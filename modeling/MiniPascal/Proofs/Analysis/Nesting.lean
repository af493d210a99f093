import MiniPascal.Proofs.Analysis.Resolution

/-!
The scopes of an analysis. They come in the order in which the program declares its procedures,
each procedure before those inside of it; so the tree can be written down without a walk.
`Walk.At` cuts the list of scopes at the scope at hand: what is declared goes into that scope,
and what is opened behind all others.
-/

namespace MiniPascal

/-- The scope with further declarations. -/
def Scope.add (s : Scope) (ds : List Declaration) : Scope :=
  ds.foldl (fun s d => s.push (d.symbol s.level)) s

@[simp]
theorem Scope.add_nil (s : Scope) : s.add [] = s := rfl

@[simp]
theorem Scope.add_cons (s : Scope) (d : Declaration) (ds : List Declaration) :
    s.add (d :: ds) = (s.push (d.symbol s.level)).add ds := rfl

theorem Scope.add_add (s : Scope) (ds es : List Declaration) :
    (s.add ds).add es = s.add (ds ++ es) :=
  List.foldl_append.symm

@[simp]
theorem Scope.level_add (s : Scope) (ds : List Declaration) : (s.add ds).level = s.level := by
  induction ds generalizing s with
  | nil => rfl
  | cons d ds ih => rw [add_cons, ih, level_push]

@[simp]
theorem Scope.enclosing_add (s : Scope) (ds : List Declaration) :
    (s.add ds).enclosing = s.enclosing := by
  induction ds generalizing s with
  | nil => rfl
  | cons d ds ih => rw [add_cons, ih, enclosing_push]

@[simp]
theorem Scope.name_add (s : Scope) (ds : List Declaration) : (s.add ds).name = s.name := by
  induction ds generalizing s with
  | nil => rfl
  | cons d ds ih => rw [add_cons, ih, name_push]

/-- What a block declares. -/
def Block.declarations (b : Block) : List Declaration :=
  b.vars.map .var ++ b.procedures.map .procedure

mutual

/-- The scopes of the procedures in a block, also of those further inside. The block belongs to
the scope `id` of the given level, and the next scope gets the number `next`. -/
def Block.scopes (id : ScopeId) (level : Nat) (next : ScopeId) : Block → List Scope
  | .mk _ procedures _ => Procedure.scopesAll id level next procedures

def Procedure.scopes (id : ScopeId) (level : Nat) (next : ScopeId) : Procedure → List Scope
  | .mk name _ params block =>
      ({ name, level := level + 1, enclosing := some id } : Scope).add
          (params.map .var ++ block.declarations)
        :: block.scopes next (level + 1) (next + 1)

def Procedure.scopesAll (id : ScopeId) (level : Nat) (next : ScopeId) :
    List Procedure → List Scope
  | [] => []
  | p :: procedures =>
      let first := p.scopes id level next
      first ++ Procedure.scopesAll id level (next + first.length) procedures

end

/-- The scope of the program comes first and has the types, too. -/
def Program.scopes (program : Program) : List Scope :=
  Walk.globalScope.add program.block.declarations :: program.block.scopes 0 1 1

namespace Walk

/-- The walk is at the scope `s`, with the scopes `before` in front of it and `after` behind
it. -/
structure At (w : Walk) (before : List Scope) (s : Scope) (after : List Scope) : Prop where
  current : w.current = before.length
  scopes : w.scopes.scopes.toList = before ++ s :: after

variable {w w' : Walk} {before after : List Scope} {s : Scope} {view outer : View}
  {ds : List Declaration}

theorem At.get? (h : w.At before s after) : w.scopes.get? w.current = some s := by
  rw [ScopeTree.get?, ← Array.getElem?_toList, h.scopes, h.current,
    List.getElem?_append_right (Nat.le_refl _), Nat.sub_self]
  rfl

theorem At.congr (h : w.At before s after) (hscopes : w'.scopes = w.scopes)
    (hcurrent : w'.current = w.current) : w'.At before s after :=
  ⟨hcurrent.trans h.current, hscopes ▸ h.scopes⟩

/-! ### Uses change no scope -/

def Still (w w' : Walk) : Prop := w'.scopes = w.scopes ∧ w'.current = w.current

theorem Still.trans {w'' : Walk} (h : Still w w') (h' : Still w' w'') : Still w w'' :=
  ⟨h'.1.trans h.1, h'.2.trans h.2⟩

theorem visitVariable_still (w : Walk) (v : Variable) : Still w (w.visitVariable v) := by
  simp only [visitVariable, lookup]
  cases w.scopes.lookup w.current v.name with
  | none => exact ⟨rfl, rfl⟩
  | some r =>
      obtain ⟨symbol, owner⟩ := r
      cases symbol <;> exact ⟨rfl, rfl⟩

theorem visitExpr_still (w : Walk) (e : Expr) : Still w (w.visitExpr e) := by
  induction e generalizing w with
  | var v => exact visitVariable_still w v
  | binary op left right position ihl ihr => exact (ihl w).trans (ihr _)
  | unary op operand position ih => exact ih w
  | literal v => exact ⟨rfl, rfl⟩

theorem visitExprs_still (w : Walk) (args : List Expr) : Still w (args.foldl visitExpr w) := by
  induction args generalizing w with
  | nil => exact ⟨rfl, rfl⟩
  | cons e args ih => exact (visitExpr_still w e).trans (ih _)

theorem visitCall_still (w : Walk) (c : Call) : Still w (w.visitCall c) := by
  refine (visitExprs_still w c.args).trans ?_
  simp only [visitCall, lookup]
  generalize c.args.foldl visitExpr w = w₁
  cases w₁.scopes.lookup w₁.current c.name with
  | none => exact ⟨rfl, rfl⟩
  | some r =>
      obtain ⟨symbol, owner⟩ := r
      cases symbol with
      | procedure p =>
          dsimp only
          split <;> exact ⟨rfl, rfl⟩
      | _ => exact ⟨rfl, rfl⟩

mutual

theorem visitStatement_still : ∀ (s : Statement) (w : Walk), Still w (w.visitStatement s)
  | .compound body, w => visitStatements_still body w
  | .assign target value, w => (visitExpr_still w value).trans (visitVariable_still _ target)
  | .call c, w => visitCall_still w c
  | .write _ args _, w => visitExprs_still w args
  | .empty, _ => ⟨rfl, rfl⟩

theorem visitStatements_still :
    ∀ (body : List Statement) (w : Walk), Still w (w.visitStatements body)
  | [], _ => ⟨rfl, rfl⟩
  | s :: body, w => (visitStatement_still s w).trans (visitStatements_still body _)

end

/-! ### Declarations -/

theorem At.declare (h : w.At before s after) (hshows : w.scopes.Shows w.current (ds :: outer))
    {d : Declaration} {position : Position}
    (hd : (Event.declaration ds d position).error? = none) :
    (w.declare (d.symbol (outer.length + 1)) position).At before (s.add [d]) after := by
  have hfree : (ds.find? (·.name = d.name)).isSome = false := by
    rw [Event.error?] at hd
    split at hd
    next => cases hd
    next hfree => exact Bool.eq_false_iff.mpr hfree
  obtain ⟨s', hs', hlevel, -, hindex⟩ := hshows.mem_index_iff d
  obtain rfl := Option.some.inj (hs'.symm.trans h.get?)
  rw [hfree] at hindex
  have hinsert :=
    ScopeTree.insert?_of_notMem hs' fun hmem => Bool.false_ne_true (hindex.mp hmem)
  simp only [Walk.declare, scopes_trace, current_trace, hinsert]
  refine ⟨h.current, ?_⟩
  rw [Array.toList_setIfInBounds, h.scopes, h.current,
    List.set_append_right _ _ (Nat.le_refl _), Nat.sub_self, List.set_cons_zero, ← hlevel,
    Scope.add_cons, Scope.add_nil]

theorem At.visitVarDecls (h : w.At before s after)
    (hshows : w.scopes.Shows w.current (ds :: outer)) (htyped : View.Typed (ds :: outer))
    {decls : List VarDecl}
    (hnames : ∀ d ∈ decls, FreeName d.name)
    (hevents : ∀ e ∈ VarDecl.events ds decls, e.error? = none) :
    (decls.foldl visitVarDecl w).At before (s.add (decls.map .var)) after := by
  induction decls generalizing w ds s with
  | nil =>
      rw [List.map_nil, Scope.add_nil]
      exact h
  | cons d decls ih =>
      obtain ⟨hfirst, hothers⟩ := List.forall_mem_cons.mp hevents
      obtain ⟨hname, hnames'⟩ := List.forall_mem_cons.mp hnames
      have hvar : (w.visitVarDecl d).At before (s.add [.var d]) after := by
        obtain ⟨j, htype⟩ := resolveType_eq
          (w := w.trace .analyzer fun _ => s!"visit VarDecl {d.name}") hshows htyped d
        have hquiet : ({ w with journal := j } : Walk).At before s after := h.congr rfl rfl
        have hdeclared := hquiet.declare (d := .var d) hshows hfirst
        rw [visitVarDecl, htype]
        exact hdeclared
      have hrest :=
        ih hvar (visitVarDecl_leads hshows htyped d).here (htyped.concat hname) hnames'
          hothers
      rw [Scope.add_add] at hrest
      exact hrest

theorem At.declareParams (h : w.At before s after)
    (hshows : w.scopes.Shows w.current (ds :: outer)) {params : List VarDecl}
    (hevents : ∀ e ∈ VarDecl.events ds params, e.error? = none) :
    ((params.map fun d => (d.symbol, d.position)).foldl
      (fun w (param, position) => w.declare (.var param) position) w).At before
        (s.add (params.map .var)) after := by
  induction params generalizing w ds s with
  | nil =>
      rw [List.map_nil, List.map_nil, Scope.add_nil]
      exact h
  | cons d params ih =>
      obtain ⟨hfirst, hothers⟩ := List.forall_mem_cons.mp hevents
      have hrest :=
        ih (h.declare hshows hfirst) (declare_leads hshows (.var d) d.position).here
          hothers
      rw [Scope.add_add] at hrest
      exact hrest

/-! ### Procedures -/

/-- A scope that is opened comes behind all others. -/
theorem At.enter (h : w.At before s after) (name : String) :
    (w.enter name).At (before ++ s :: after)
      { name, level := s.level + 1, enclosing := some before.length } [] := by
  have hopen : w.scopes.open? name (some w.current) =
      some ⟨w.scopes.scopes.push
        { name, level := s.level + 1, enclosing := some w.current }⟩ := by
    simp [ScopeTree.open?, h.get?]
  simp only [Walk.enter, hopen]
  constructor
  · rw [ScopeTree.size, ← Array.length_toList, h.scopes]
  · rw [Array.toList_push, h.scopes, h.current]

theorem At.leave {inside : Scope} {inner : List Scope}
    (h : w.At (before ++ s :: after) inside inner)
    (henclosing : inside.enclosing = some before.length) :
    w.leave.At before s (after ++ inside :: inner) := by
  constructor
  · simp [Walk.leave, scope?, h.get?, henclosing]
  · rw [Walk.leave]
    exact h.scopes.trans (by simp)

theorem At.openProcedure (h : w.At before s after)
    (hshows : w.scopes.Shows w.current (ds :: outer)) (htyped : View.Typed (ds :: outer))
    {p : Procedure}
    (hdeclared : (Event.declaration ds (.procedure p) p.position).error? = none)
    (hparams : ∀ e ∈ VarDecl.events [] p.params, e.error? = none) :
    (w.openProcedure p.name p.position p.params p.block).At
      (before ++ s.add [.procedure p] :: after)
      (({ name := p.name, level := s.level + 1, enclosing := some before.length } : Scope).add
        (p.params.map .var)) [] := by
  obtain ⟨j, hresolved⟩ : ∃ j,
      (w.trace .analyzer fun _ => s!"visit ProcedureDecl {p.name}").resolveParams
      p.params = (p.params.map fun d => (d.symbol, d.position), { w with journal := j }) :=
    resolveParams_eq (w := w.trace .analyzer _) hshows htyped p.params
  have hquiet : ({ w with journal := j } : Walk).At before s after := h.congr rfl rfl
  have hlevel : ({ w with journal := j } : Walk).scopeLevel = outer.length + 1 :=
    scopeLevel_eq hshows
  have hsymbol : (⟨p.name, (p.params.map fun d => (d.symbol, d.position)).map (·.1), p.block,
      outer.length + 1⟩ : ProcedureSymbol) = p.symbol (outer.length + 1) := by
    rw [List.map_map]
    rfl
  have hopened := (hquiet.declare (d := .procedure p) hshows hdeclared).enter p.name
  have hleads := declare_leads (w := { w with journal := j }) hshows (.procedure p) p.position
  have hempty := (enter_enters hleads.here p.name).2
  simp only [Walk.openProcedure, hresolved, hlevel, hsymbol]
  exact At.declareParams (w := Walk.trace _ _ _) (hopened.congr rfl rfl) hempty hparams

mutual

theorem visitBlock_at : ∀ (b : Block) {w : Walk} {ds : List Declaration} {outer : View}
    {before after : List Scope} {s : Scope},
    w.scopes.Shows w.current (ds :: outer) → View.Typed (ds :: outer) →
    (∀ name ∈ b.names, FreeName name) → (∀ e ∈ b.events ds outer, e.error? = none) →
    w.At before s after →
    (w.visitBlock b).At before (s.add b.declarations)
      (after ++ b.scopes before.length s.level (before.length + 1 + after.length))
  | .mk vars procedures body, w, ds, outer, before, after, s, hshows, htyped, hnames,
      hevents, h => by
      obtain ⟨hvarNames, hprocNames⟩ := List.forall_mem_append.mp hnames
      obtain ⟨hvarEvents, hothers⟩ := List.forall_mem_append.mp hevents
      obtain ⟨hprocEvents, -⟩ := List.forall_mem_append.mp hothers
      have hfree : ∀ d ∈ vars, FreeName d.name :=
        fun d hd => hvarNames _ (List.mem_map_of_mem hd)
      have hvars := h.visitVarDecls hshows htyped hfree hvarEvents
      have htyped' : View.Typed ((ds ++ vars.map .var) :: outer) := by
        refine htyped.append fun d hd => ?_
        obtain ⟨v, hv, rfl⟩ := List.mem_map.mp hd
        exact hfree v hv
      have hprocedures :=
        visitProcedures_at procedures (visitVarDecls_leads hshows htyped hfree).here
          htyped' hprocNames hprocEvents hvars
      rw [Scope.add_add, Scope.level_add] at hprocedures
      obtain ⟨hscopes, hcurrent⟩ := visitStatements_still body
        ((vars.foldl visitVarDecl w).visitProcedures procedures)
      exact hprocedures.congr hscopes hcurrent

theorem visitProcedures_at : ∀ (procedures : List Procedure) {w : Walk} {ds : List Declaration}
    {outer : View} {before after : List Scope} {s : Scope},
    w.scopes.Shows w.current (ds :: outer) → View.Typed (ds :: outer) →
    (∀ name ∈ Procedure.namesAll procedures, FreeName name) →
    (∀ e ∈ Procedure.eventsAll ds outer procedures, e.error? = none) →
    w.At before s after →
    (w.visitProcedures procedures).At before (s.add (procedures.map .procedure))
      (after ++ Procedure.scopesAll before.length s.level (before.length + 1 + after.length)
        procedures)
  | [], w, ds, outer, before, after, s, _, _, _, _, h => by
      rw [List.map_nil, Scope.add_nil, Procedure.scopesAll, List.append_nil]
      exact h
  | .mk name position params block :: procedures, w, ds, outer, before, after, s,
      hshows, htyped, hnames, hevents, h => by
      obtain ⟨hfirstNames, hotherNames⟩ := List.forall_mem_append.mp hnames
      obtain ⟨hfirstEvents, hotherEvents⟩ := List.forall_mem_append.mp hevents
      obtain ⟨hdeclared, hinside⟩ := List.forall_mem_cons.mp hfirstEvents
      obtain ⟨hparams, hblockEvents⟩ := List.forall_mem_append.mp hinside
      have hname : FreeName name := hfirstNames name List.mem_cons_self
      have hblockNames : ∀ n ∈ block.names, FreeName n := fun n hn =>
        hfirstNames n (List.mem_cons_of_mem _ (List.mem_append_right _ hn))
      have htyped' :
          View.Typed ((ds ++ [.procedure (.mk name position params block)]) :: outer) :=
        htyped.concat hname
      have hopened :=
        h.openProcedure (p := .mk name position params block) hshows htyped hdeclared
          hparams
      obtain ⟨w₁, w₂, -, -, hleads⟩ :=
        openProcedure_leads hshows htyped (.mk name position params block)
      have hblock := visitBlock_at block hleads.here (htyped.inside hfirstNames) hblockNames
        hblockEvents hopened
      have hnext : (before ++ s.add [.procedure (.mk name position params block)] ::
          after).length =
          before.length + 1 + after.length := by
        rw [List.length_append, List.length_cons]
        omega
      rw [hnext, Scope.add_add, Scope.level_add, List.nil_append] at hblock
      have hleft := hblock.leave (Scope.enclosing_add _ _)
      -- The procedure itself has been walked as a list of one.
      have honly : ∀ n ∈ Procedure.namesAll [.mk name position params block], FreeName n := by
        rwa [Procedure.namesAll, Procedure.namesAll, List.append_nil]
      have hrest :=
        visitProcedures_at procedures (visitProcedures_leads _ hshows htyped honly).here
          htyped' hotherNames hotherEvents hleft
      rw [Scope.add_add, List.append_assoc, List.length_append, ← Nat.add_assoc] at hrest
      exact hrest

end

end Walk

/-- The scopes of an analysis without errors. -/
theorem Program.Regular.scopes_eq {program : Program} {a : Analysis} {j : Journal}
    (h : program.Regular) (hanalyze : (analyze program j).1 = .ok a) :
    a.scopes.scopes.toList = program.scopes := by
  obtain ⟨-, herrors, -, -⟩ := h.analyzed hanalyze
  have hblock := Walk.visitBlock_at program.block
    (w := (Walk.start j).trace .analyzer fun _ =>
      s!"ENTER scope: global (program {program.name})")
    (Walk.start_shows j) View.typed_predeclared h.names herrors
    (show Walk.At _ [] Walk.globalScope [] from ⟨rfl, rfl⟩)
  have hok := analyzeProgram_of_analyze hanalyze
  simp only [analyzeProgram] at hok
  split at hok
  next =>
    cases hok
    exact hblock.scopes
  next => cases hok

end MiniPascal
