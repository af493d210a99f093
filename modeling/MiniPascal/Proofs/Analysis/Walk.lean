import MiniPascal.Proofs.Analysis.Events

/-!
The walk of the analysis and the events that it passes. `Leads w w' view events` says all that
one part of the walk does: it ends where it started, in a scope tree that shows `view` there;
it leaves the scopes further out alone; and it files and reports exactly what the events say.

A declaration names its type, and the type is looked up like any other name. So the types must
stay in sight: no program may declare a name that is the name of a type, as no program that is
read from a text can.
-/

namespace MiniPascal

/-- The three types can be seen. -/
def View.Typed (view : View) : Prop :=
  ∀ t : DataType, View.resolve? t.name view = some (.type t, 1)

def FreeName (name : String) : Prop := ∀ t : DataType, name ≠ t.name

theorem View.Typed.open {view : View} (h : view.Typed) : View.Typed ([] :: view) := h

theorem View.Typed.concat {ds : List Declaration} {outer : View} {d : Declaration}
    (h : View.Typed (ds :: outer)) (hd : FreeName d.name) :
    View.Typed ((ds ++ [d]) :: outer) := by
  intro t
  have hfind : (ds ++ [d]).find? (·.name = t.name) = ds.find? (·.name = t.name) := by
    rw [List.find?_append]
    simp [hd t]
  have ht := h t
  rw [View.resolve?] at ht ⊢
  rw [hfind]
  exact ht

theorem View.Typed.append {ds es : List Declaration} {outer : View}
    (h : View.Typed (ds :: outer)) (hes : ∀ d ∈ es, FreeName d.name) :
    View.Typed ((ds ++ es) :: outer) := by
  induction es generalizing ds with
  | nil => rwa [List.append_nil]
  | cons d es ih =>
      have hconcat := h.concat (hes d List.mem_cons_self)
      rw [List.append_cons]
      exact ih hconcat fun e he => hes e (List.mem_cons_of_mem d he)

/-- The types can be seen inside a procedure whose names are not names of types. -/
theorem View.Typed.inside {ds : List Declaration} {outer : View} {p : Procedure}
    (h : View.Typed (ds :: outer)) (hnames : ∀ name ∈ p.names, FreeName name) :
    View.Typed (p.params.map .var :: (ds ++ [.procedure p]) :: outer) := by
  obtain ⟨name, position, params, block⟩ := p
  obtain ⟨hname, hinside⟩ := List.forall_mem_cons.mp hnames
  have hconcat : View.Typed ((ds ++ [.procedure (.mk name position params block)]) :: outer) :=
    h.concat hname
  refine hconcat.open.append fun d hd => ?_
  obtain ⟨v, hv, rfl⟩ := List.mem_map.mp hd
  exact hinside v.name (List.mem_append_left _ (List.mem_map_of_mem hv))

namespace Walk

/-- One part of the walk. -/
structure Leads (w w' : Walk) (view : View) (events : List Event) : Prop where
  current : w'.current = w.current
  shows : w'.scopes.Shows w.current view
  below : ∀ i < w.current, w'.scopes.get? i = w.scopes.get? i
  enclosing : (w'.scopes.get? w.current).map Scope.enclosing =
    (w.scopes.get? w.current).map Scope.enclosing
  vars : w'.vars = w.vars.insertMany (events.filterMap Event.binding?)
  calls : w'.calls = w.calls.insertMany (events.filterMap Event.callee?)
  errors : w'.errors.toList = w.errors.toList ++ events.filterMap Event.error?

variable {w w' w'' : Walk} {view view' : View} {events events' : List Event}

theorem Leads.trans (h : Leads w w' view events) (h' : Leads w' w'' view' events') :
    Leads w w'' view' (events ++ events') where
  current := h'.current.trans h.current
  shows := h.current ▸ h'.shows
  below i hi := (h'.below i (h.current ▸ hi)).trans (h.below i hi)
  enclosing := by
    have henclosing := h'.enclosing
    rw [h.current] at henclosing
    exact henclosing.trans h.enclosing
  vars := by rw [h'.vars, h.vars, List.filterMap_append, Std.TreeMap.insertMany_append]
  calls := by rw [h'.calls, h.calls, List.filterMap_append, Std.TreeMap.insertMany_append]
  errors := by rw [h'.errors, h.errors, List.filterMap_append, List.append_assoc]

/-- The journal does not matter. -/
theorem Leads.quiet (h : w.scopes.Shows w.current view) (j : Journal) :
    Leads w { w with journal := j } view [] where
  current := rfl
  shows := h
  below _ _ := rfl
  enclosing := rfl
  vars := rfl
  calls := rfl
  errors := (List.append_nil _).symm

theorem Leads.refl (h : w.scopes.Shows w.current view) : Leads w w view [] :=
  .quiet h w.journal

/-- Nothing has been done to `w` but to its journal. -/
theorem Leads.after_quiet {j : Journal} (h : Leads { w with journal := j } w' view events) :
    Leads w w' view events where
  current := h.current
  shows := h.shows
  below := h.below
  enclosing := h.enclosing
  vars := h.vars
  calls := h.calls
  errors := h.errors

/-! ### Uses -/

theorem filterMap_single {α β : Type} (f : α → Option β) (a : α) :
    [a].filterMap f = (f a).toList := by
  cases ha : f a <;> simp [ha]

theorem Leads.use (h : w.scopes.Shows w.current view) (u : Use)
    (hscopes : w'.scopes = w.scopes) (hcurrent : w'.current = w.current)
    (hvars : w'.vars = w.vars.insertMany (Event.use view u).binding?.toList)
    (hcalls : w'.calls = w.calls.insertMany (Event.use view u).callee?.toList)
    (herrors : w'.errors.toList = w.errors.toList ++ (Event.use view u).error?.toList) :
    Leads w w' view [.use view u] := by
  rw [← filterMap_single] at hvars hcalls herrors
  exact ⟨hcurrent, hscopes ▸ h, fun _ _ => by rw [hscopes], by rw [hscopes], hvars,
    hcalls, herrors⟩

/-- A use of a name that means nothing or something else is reported. -/
theorem Leads.reported (h : w.scopes.Shows w.current view) {u : Use} {e : SemanticError}
    (j : Journal) (hbinding : (Event.use view u).binding? = none)
    (hcallee : (Event.use view u).callee? = none)
    (herror : (Event.use view u).error? = some e) :
    Leads w (({ w with journal := j } : Walk).fail e) view [.use view u] := by
  refine .use h u rfl rfl ?_ ?_ ?_
  · rw [hbinding]
    rfl
  · rw [hcallee]
    rfl
  · rw [herror]
    exact Array.toList_push

theorem visitVariable_leads (h : w.scopes.Shows w.current view) (v : Variable) :
    Leads w (w.visitVariable v) view [.use view (.var v)] := by
  have hcallee : (Event.use view (.var v)).callee? = none := rfl
  cases hname : View.resolve? v.name view with
  | none =>
      have hlookup := h.lookup_eq_none hname
      simp only [visitVariable, lookup, hlookup]
      exact .reported h _ (by simp [Event.binding?, View.binding?, hname]) hcallee
        (by simp [Event.error?, hname])
  | some r =>
      obtain ⟨d, level⟩ := r
      obtain ⟨s, hlookup, hlevel⟩ := h.lookup_eq_some hname
      cases d with
      | var d =>
          simp only [visitVariable, lookup, hlookup, Declaration.symbol]
          refine .use h _ rfl rfl ?_ ?_ ?_
          · simp [Event.binding?, View.binding?, hname, trace, hlevel, VarDecl.symbol]
          · simp [hcallee, trace]
          · simp [Event.error?, hname, trace]
      | type _ | procedure _ =>
          simp only [visitVariable, lookup, hlookup, Declaration.symbol]
          exact .reported h _ (by simp [Event.binding?, View.binding?, hname]) hcallee
            (by simp [Event.error?, hname, Declaration.kind, Symbol.kind])

theorem Leads.here (h : Leads w w' view events) : w'.scopes.Shows w'.current view :=
  h.current.symm ▸ h.shows

theorem visitExpr_leads (h : w.scopes.Shows w.current view) (e : Expr) :
    Leads w (w.visitExpr e) view (e.uses.map (.use view)) := by
  induction e generalizing w with
  | var v => exact visitVariable_leads h v
  | binary op left right position ihl ihr =>
      rw [Expr.uses, List.map_append, visitExpr]
      have hleft := ihl h
      exact hleft.trans (ihr hleft.here)
  | unary op operand position ih => exact ih h
  | literal v => exact .refl h

theorem visitExprs_leads (h : w.scopes.Shows w.current view) (args : List Expr) :
    Leads w (args.foldl visitExpr w) view ((args.flatMap Expr.uses).map (.use view)) := by
  induction args generalizing w with
  | nil => exact .refl h
  | cons e args ih =>
      rw [List.foldl_cons, List.flatMap_cons, List.map_append]
      have he := visitExpr_leads h e
      exact he.trans (ih he.here)

theorem visitCall_leads (h : w.scopes.Shows w.current view) (c : Call) :
    Leads w (w.visitCall c) view
      ((c.args.flatMap Expr.uses ++ [Use.call c]).map (.use view)) := by
  have hargs := visitExprs_leads h c.args
  rw [List.map_append]
  simp only [visitCall]
  generalize c.args.foldl visitExpr w = w₁ at hargs ⊢
  refine hargs.trans ?_
  have h₁ := hargs.here
  have hbinding : (Event.use view (.call c)).binding? = none := rfl
  cases hname : View.resolve? c.name view with
  | none =>
      have hlookup := h₁.lookup_eq_none hname
      simp only [lookup, hlookup]
      exact .reported h₁ _ hbinding (by simp [Event.callee?, View.callee?, hname])
        (by simp [Event.error?, hname])
  | some r =>
      obtain ⟨d, level⟩ := r
      obtain ⟨s, hlookup, hlevel⟩ := h₁.lookup_eq_some hname
      cases d with
      | procedure p =>
          simp only [lookup, hlookup, Declaration.symbol]
          by_cases hlength : p.params.length = c.args.length
          · refine .use h₁ _ ?_ ?_ ?_ ?_ ?_ <;>
              simp [Event.callee?, View.callee?, Event.error?, hbinding, hname, trace, hlength,
                Procedure.symbol]
          · refine .use h₁ _ ?_ ?_ ?_ ?_ ?_ <;>
              simp [Event.callee?, View.callee?, Event.error?, hbinding, hname, trace,
                fail, hlength, Procedure.symbol]
      | type _ | var _ =>
          simp only [lookup, hlookup, Declaration.symbol]
          exact .reported h₁ _ hbinding (by simp [Event.callee?, View.callee?, hname])
            (by simp [Event.error?, hname, Declaration.kind, Symbol.kind])

mutual

theorem visitStatement_leads : ∀ (s : Statement) {w : Walk}, w.scopes.Shows w.current view →
    Leads w (w.visitStatement s) view (s.visited.map (.use view))
  | .compound body, _, h => visitStatements_leads body h
  | .assign target value, w, h => by
      rw [visitStatement, Statement.visited, List.map_append]
      have hvalue := visitExpr_leads h value
      exact hvalue.trans (visitVariable_leads hvalue.here target)
  | .call c, _, h => visitCall_leads h c
  | .write _ args _, _, h => visitExprs_leads h args
  | .empty, _, h => .refl h

theorem visitStatements_leads : ∀ (body : List Statement) {w : Walk},
    w.scopes.Shows w.current view →
    Leads w (w.visitStatements body) view ((Statement.visitedAll body).map (.use view))
  | [], _, h => .refl h
  | s :: body, w, h => by
      rw [visitStatements, Statement.visitedAll, List.map_append]
      have hs := visitStatement_leads s h
      exact hs.trans (visitStatements_leads body hs.here)

end

/-! ### Declarations -/

variable {ds : List Declaration} {outer : View}

theorem declare_leads (h : w.scopes.Shows w.current (ds :: outer)) (d : Declaration)
    (position : Position) :
    Leads w (w.declare (d.symbol (outer.length + 1)) position) ((ds ++ [d]) :: outer)
      [.declaration ds d position] := by
  cases hd : (ds.find? (·.name = d.name)).isSome with
  | true =>
      obtain ⟨hinsert, hshows⟩ := h.insert?_taken hd
      simp only [declare, trace, hinsert]
      refine ⟨rfl, hshows, fun _ _ => rfl, rfl, rfl, rfl, ?_⟩
      rw [filterMap_single, Event.error?, if_pos hd, Declaration.name_symbol]
      exact Array.toList_push
  | false =>
      obtain ⟨t, hinsert, hshows, hbelow, henclosing⟩ := h.insert?_free hd
      simp only [declare, trace, hinsert]
      refine ⟨rfl, hshows, hbelow, henclosing, rfl, rfl, ?_⟩
      rw [filterMap_single, Event.error?, if_neg (Bool.eq_false_iff.mp hd)]
      exact (List.append_nil _).symm

/-- The type of a declaration is found. -/
theorem resolveType_eq (h : w.scopes.Shows w.current view) (htyped : view.Typed)
    (d : VarDecl) :
    ∃ j, w.resolveType d = (some d.type, { w with journal := j }) := by
  obtain ⟨s, hlookup, -⟩ := h.lookup_eq_some (htyped d.type)
  exact ⟨_, by simp only [resolveType, lookup, hlookup, Declaration.symbol]; rfl⟩

theorem visitVarDecl_leads (h : w.scopes.Shows w.current (ds :: outer))
    (htyped : View.Typed (ds :: outer)) (d : VarDecl) :
    Leads w (w.visitVarDecl d) ((ds ++ [.var d]) :: outer)
      [.declaration ds (.var d) d.position] := by
  obtain ⟨j, htype⟩ :=
    resolveType_eq (w := w.trace .analyzer fun _ => s!"visit VarDecl {d.name}")
      h htyped d
  simp only [visitVarDecl, htype]
  exact (declare_leads (w := { w with journal := j }) h (.var d) d.position).after_quiet

theorem visitVarDecls_leads (h : w.scopes.Shows w.current (ds :: outer))
    (htyped : View.Typed (ds :: outer)) {decls : List VarDecl}
    (hnames : ∀ d ∈ decls, FreeName d.name) :
    Leads w (decls.foldl visitVarDecl w) ((ds ++ decls.map .var) :: outer)
      (VarDecl.events ds decls) := by
  induction decls generalizing w ds with
  | nil =>
      rw [List.map_nil, List.append_nil]
      exact .refl h
  | cons d decls ih =>
      have hd := visitVarDecl_leads h htyped d
      have hrest := ih hd.here (htyped.concat (hnames d List.mem_cons_self))
        fun e he => hnames e (List.mem_cons_of_mem d he)
      rw [List.map_cons, List.append_cons]
      exact hd.trans hrest

/-! ### Procedures -/

theorem resolveParams_eq (h : w.scopes.Shows w.current view) (htyped : view.Typed)
    (params : List VarDecl) :
    ∃ j, w.resolveParams params =
      (params.map fun d => (d.symbol, d.position), { w with journal := j }) := by
  induction params generalizing w with
  | nil => exact ⟨w.journal, rfl⟩
  | cons d params ih =>
      obtain ⟨j, htype⟩ := resolveType_eq h htyped d
      obtain ⟨j', hparams⟩ := ih (w := { w with journal := j }) h
      exact ⟨j', by simp only [resolveParams, htype, hparams]; rfl⟩

theorem declareParams_leads (h : w.scopes.Shows w.current (ds :: outer))
    (params : List VarDecl) :
    Leads w ((params.map fun d => (d.symbol, d.position)).foldl
        (fun w (param, position) => w.declare (.var param) position) w)
      ((ds ++ params.map .var) :: outer) (VarDecl.events ds params) := by
  induction params generalizing w ds with
  | nil =>
      rw [List.map_nil, List.map_nil, List.append_nil]
      exact .refl h
  | cons d params ih =>
      have hd := declare_leads h (.var d) d.position
      rw [List.map_cons, List.map_cons, List.append_cons]
      exact hd.trans (ih hd.here)

/-- A scope has been opened in the scope at hand. -/
structure Enters (w w' : Walk) : Prop where
  lt : w.current < w'.current
  old : ∀ i ≤ w.current, w'.scopes.get? i = w.scopes.get? i
  enclosing : (w'.scopes.get? w'.current).map Scope.enclosing = some (some w.current)
  vars : w'.vars = w.vars
  calls : w'.calls = w.calls
  errors : w'.errors = w.errors

theorem enter_enters (h : w.scopes.Shows w.current view) (name : String) :
    Enters w (w.enter name) ∧ (w.enter name).scopes.Shows (w.enter name).current
      ([] :: view) := by
  obtain ⟨t, hopen, hshows, hold, henclosing⟩ := h.open? name
  simp only [enter, hopen]
  exact ⟨⟨h.lt_size, fun i hi => hold i (Nat.lt_of_le_of_lt hi h.lt_size), henclosing,
    rfl, rfl, rfl⟩, hshows⟩

/-- What is done in a scope that has been opened and is left again. -/
theorem Enters.leave (henters : Enters w w') (h : w.scopes.Shows w.current view)
    (hinside : Leads w' w'' view' events) : Leads w w''.leave view events := by
  -- Nothing inside has changed where the opened scope leads to.
  have hcurrent : w''.leave.current = w.current := by
    have henclosing := hinside.enclosing.trans henters.enclosing
    rw [← hinside.current] at henclosing
    obtain ⟨s, hs, houtside⟩ := Option.map_eq_some_iff.mp henclosing
    simp [Walk.leave, scope?, hs, houtside]
  have hold : ∀ i ≤ w.current, w''.leave.scopes.get? i = w.scopes.get? i := by
    intro i hi
    exact (hinside.below i (Nat.lt_of_le_of_lt hi henters.lt)).trans (henters.old i hi)
  refine ⟨hcurrent, h.congr hold, fun i hi => hold i (Nat.le_of_lt hi), ?_, ?_, ?_, ?_⟩
  · rw [hold w.current (Nat.le_refl _)]
  · rw [← henters.vars]
    exact hinside.vars
  · rw [← henters.calls]
    exact hinside.calls
  · rw [← henters.errors]
    exact hinside.errors

theorem scopeLevel_eq (h : w.scopes.Shows w.current (ds :: outer)) :
    w.scopeLevel = outer.length + 1 := by
  obtain ⟨s, hget, hlevel, -⟩ := h.exists_scope
  rw [scopeLevel, scope?, hget, Option.map_some, Option.getD_some, hlevel]

/-- The procedure is declared in the scope at hand, and its parameters in a scope of its
own. -/
theorem openProcedure_leads (h : w.scopes.Shows w.current (ds :: outer))
    (htyped : View.Typed (ds :: outer)) (p : Procedure) :
    ∃ w₁ w₂, Leads w w₁ ((ds ++ [.procedure p]) :: outer)
      [.declaration ds (.procedure p) p.position] ∧ Enters w₁ w₂ ∧
      Leads w₂ (w.openProcedure p.name p.position p.params p.block)
        (p.params.map .var :: (ds ++ [.procedure p]) :: outer)
          (VarDecl.events [] p.params) := by
  obtain ⟨j, hparams⟩ : ∃ j,
      (w.trace .analyzer fun _ => s!"visit ProcedureDecl {p.name}").resolveParams
      p.params = (p.params.map fun d => (d.symbol, d.position), { w with journal := j }) :=
    resolveParams_eq (w := w.trace .analyzer _) h htyped p.params
  have hdeclared := declare_leads (w := { w with journal := j }) h (.procedure p) p.position
  obtain ⟨henters, hshows⟩ := enter_enters hdeclared.here p.name
  have hlevel : ({ w with journal := j } : Walk).scopeLevel = outer.length + 1 :=
    scopeLevel_eq h
  have hsymbol : (⟨p.name, (p.params.map fun d => (d.symbol, d.position)).map (·.1), p.block,
      outer.length + 1⟩ : ProcedureSymbol) = p.symbol (outer.length + 1) := by
    rw [List.map_map]
    rfl
  refine ⟨_, _, hdeclared.after_quiet, henters, ?_⟩
  simp only [openProcedure, hparams, hlevel, hsymbol]
  exact (declareParams_leads (w := Walk.trace _ _ _) hshows p.params).after_quiet

mutual

theorem visitBlock_leads : ∀ (b : Block) {w : Walk} {ds : List Declaration} {outer : View},
    w.scopes.Shows w.current (ds :: outer) → View.Typed (ds :: outer) →
    (∀ name ∈ b.names, FreeName name) →
    Leads w (w.visitBlock b) ((ds ++ b.vars.map .var ++ b.procedures.map .procedure) :: outer)
      (b.events ds outer)
  | .mk vars procedures body, w, ds, outer, h, htyped, hnames => by
      have hvarNames : ∀ d ∈ vars, FreeName d.name := fun d hd =>
        hnames d.name (List.mem_append_left _ (List.mem_map_of_mem hd))
      have hprocNames : ∀ name ∈ Procedure.namesAll procedures, FreeName name :=
        fun name hname => hnames name (List.mem_append_right _ hname)
      have hvars := visitVarDecls_leads h htyped hvarNames
      have htyped' : View.Typed ((ds ++ vars.map .var) :: outer) := by
        refine htyped.append fun d hd => ?_
        obtain ⟨v, hv, rfl⟩ := List.mem_map.mp hd
        exact hvarNames v hv
      have hprocedures := visitProcedures_leads procedures hvars.here htyped' hprocNames
      exact hvars.trans (hprocedures.trans (visitStatements_leads body hprocedures.here))

theorem visitProcedures_leads :
    ∀ (procedures : List Procedure) {w : Walk} {ds : List Declaration}
    {outer : View}, w.scopes.Shows w.current (ds :: outer) → View.Typed (ds :: outer) →
    (∀ name ∈ Procedure.namesAll procedures, FreeName name) →
    Leads w (w.visitProcedures procedures) ((ds ++ procedures.map .procedure) :: outer)
      (Procedure.eventsAll ds outer procedures)
  | [], w, ds, outer, h, _, _ => by
      rw [List.map_nil, List.append_nil]
      exact .refl h
  | .mk name position params block :: procedures, w, ds, outer, h, htyped, hnames => by
      have hblockNames : ∀ n ∈ block.names, FreeName n := fun n hn =>
        hnames n (List.mem_append_left _ (List.mem_cons_of_mem _ (List.mem_append_right _ hn)))
      have hrestNames : ∀ n ∈ Procedure.namesAll procedures, FreeName n := fun n hn =>
        hnames n (List.mem_append_right _ hn)
      have hname : FreeName name := hnames name (List.mem_append_left _ List.mem_cons_self)
      have htyped' :
          View.Typed ((ds ++ [.procedure (.mk name position params block)]) :: outer) :=
        htyped.concat hname
      have htyped'' : View.Typed (params.map .var ::
          (ds ++ [.procedure (.mk name position params block)]) :: outer) :=
        htyped.inside fun n hn => hnames n (List.mem_append_left _ hn)
      obtain ⟨w₁, w₂, hdeclared, henters, hparams⟩ :=
        openProcedure_leads h htyped (.mk name position params block)
      -- The block is walked inside the scope of the parameters; then the walk is back
      -- where it was.
      have hblock := hparams.trans (visitBlock_leads block hparams.here htyped'' hblockNames)
      have hleft := hdeclared.trans (henters.leave hdeclared.here hblock)
      have hrest := visitProcedures_leads procedures hleft.here htyped' hrestNames
      rw [List.map_cons, List.append_cons]
      exact hleft.trans hrest

end

end Walk

end MiniPascal
