import Mathlib.Data.List.Nodup
import MiniPascal.Proofs.Analysis.Nesting
import MiniPascal.Proofs.Analysis.Violations
import MiniPascal.Proofs.Renaming.Capture

/-!
The analysis of a program with other names. What the walk passes is the same but for the names.
So a program whose names are kept apart is analyzed like the program with the names that they
become: uses have the same levels and types, and the scopes and the procedures differ in the
names alone.
-/

namespace MiniPascal

/-! ### Symbols and scopes -/

def VarSymbol.mapNames (f : String → String) (v : VarSymbol) : VarSymbol :=
  { v with name := f v.name }

def ProcedureSymbol.mapNames (f : String → String) (p : ProcedureSymbol) : ProcedureSymbol :=
  { p with name := f p.name, params := p.params.map (VarSymbol.mapNames f),
           block := p.block.mapNames f }

def Symbol.mapNames (f : String → String) : Symbol → Symbol
  | .type t => .type t
  | .var v => .var (v.mapNames f)
  | .procedure p => .procedure (p.mapNames f)

/-- The symbols are filed anew, one after the other. The scope that has no other around it has
no name of the program. -/
def Scope.mapNames (f : String → String) (s : Scope) : Scope :=
  (s.symbols.toList.map (Symbol.mapNames f)).foldl Scope.push
    { name := s.enclosing.elim s.name fun _ => f s.name, level := s.level,
      enclosing := s.enclosing }

def ScopeTree.mapNames (f : String → String) (t : ScopeTree) : ScopeTree :=
  ⟨t.scopes.map (Scope.mapNames f)⟩

def Declaration.mapNames (f : String → String) : Declaration → Declaration
  | .type t => .type t
  | .var d => .var (d.mapNames f)
  | .procedure p => .procedure (p.mapNames f)

def View.mapNames (f : String → String) (view : View) : View :=
  view.map (List.map (Declaration.mapNames f))

variable {f : String → String}

theorem Procedure.symbol_mapNames (f : String → String) (p : Procedure) (level : Nat) :
    (p.mapNames f).symbol level = (p.symbol level).mapNames f := by
  obtain ⟨name, position, params, block⟩ := p
  simp only [symbol, ProcedureSymbol.mapNames, mapNames, Procedure.params, List.map_map]
  rfl

theorem Declaration.symbol_mapNames (f : String → String) (d : Declaration) (level : Nat) :
    (d.mapNames f).symbol level = (d.symbol level).mapNames f := by
  cases d with
  | type t => rfl
  | var d => rfl
  | procedure p => exact congrArg Symbol.procedure (p.symbol_mapNames f level)

theorem Declaration.name_mapNames (hf : ∀ t : DataType, f t.name = t.name) (d : Declaration) :
    (d.mapNames f).name = f d.name := by
  cases d with
  | type t => exact (hf t).symm
  | var d => rfl
  | procedure p => exact p.name_mapNames f

theorem Declaration.map_var_mapNames (f : String → String) (decls : List VarDecl) :
    (decls.map (VarDecl.mapNames f)).map Declaration.var =
      (decls.map Declaration.var).map (mapNames f) := by
  rw [List.map_map, List.map_map]
  rfl

theorem Declaration.map_procedure_mapNames (f : String → String)
    (procedures : List Procedure) :
    (procedures.map (Procedure.mapNames f)).map Declaration.procedure =
      (procedures.map Declaration.procedure).map (mapNames f) := by
  rw [List.map_map, List.map_map]
  rfl

@[simp]
theorem Scope.push_mapNames (f : String → String) (s : Scope) (x : Symbol) :
    (s.push x).mapNames f = (s.mapNames f).push (x.mapNames f) := by
  simp [mapNames]

@[simp]
theorem Scope.level_mapNames (f : String → String) (s : Scope) :
    (s.mapNames f).level = s.level := by
  have hfold : ∀ (xs : List Symbol) (s : Scope), (xs.foldl Scope.push s).level = s.level := by
    intro xs
    induction xs with
    | nil => exact fun _ => rfl
    | cons x xs ih => exact fun s => (ih _).trans (s.level_push x)
  exact hfold _ _

theorem Scope.add_mapNames (f : String → String) (s : Scope) (ds : List Declaration) :
    (s.mapNames f).add (ds.map (Declaration.mapNames f)) = (s.add ds).mapNames f := by
  induction ds generalizing s with
  | nil => rfl
  | cons d ds ih =>
      rw [List.map_cons, add_cons, add_cons, d.symbol_mapNames, s.level_mapNames,
        ← push_mapNames, ih]

@[simp]
theorem Block.declarations_mapNames (f : String → String) (b : Block) :
    (b.mapNames f).declarations = b.declarations.map (Declaration.mapNames f) := by
  rw [declarations, vars_mapNames, procedures_mapNames, Declaration.map_var_mapNames,
    Declaration.map_procedure_mapNames, declarations, List.map_append]

mutual

theorem Block.scopes_mapNames (f : String → String) : ∀ (b : Block) (id level next : Nat),
    (b.mapNames f).scopes id level next = (b.scopes id level next).map (Scope.mapNames f)
  | .mk _ procedures _, id, level, next =>
      Procedure.scopesAll_mapNames f procedures id level next

theorem Procedure.scopes_mapNames (f : String → String) :
    ∀ (p : Procedure) (id level next : Nat), (p.mapNames f).scopes id level next =
    (p.scopes id level next).map (Scope.mapNames f)
  | .mk name position params block, id, level, next => by
      have hempty : ({ name, level := level + 1, enclosing := some id } : Scope).mapNames f =
          { name := f name, level := level + 1, enclosing := some id } := by
        rfl
      rw [Procedure.mapNames, Procedure.scopes, Procedure.scopes, List.map_cons,
        Block.scopes_mapNames f block, Block.declarations_mapNames,
        Declaration.map_var_mapNames,
        ← List.map_append, ← Scope.add_mapNames, hempty]

theorem Procedure.scopesAll_mapNames (f : String → String) :
    ∀ (procedures : List Procedure) (id level next : Nat),
      Procedure.scopesAll id level next (Procedure.mapNamesAll f procedures) =
        (Procedure.scopesAll id level next procedures).map (Scope.mapNames f)
  | [], _, _, _ => rfl
  | p :: procedures, id, level, next => by
      rw [Procedure.mapNamesAll, Procedure.scopesAll, Procedure.scopesAll, List.map_append,
        Procedure.scopes_mapNames f p, List.length_map,
        Procedure.scopesAll_mapNames f procedures]

end

theorem Program.scopes_mapNames (f : String → String) (program : Program) :
    (program.mapNames f).scopes = program.scopes.map (Scope.mapNames f) := by
  have hglobal : Walk.globalScope.mapNames f = Walk.globalScope := rfl
  rw [scopes, scopes, List.map_cons, ← Scope.add_mapNames, ← Block.declarations_mapNames,
    ← Block.scopes_mapNames, hglobal]
  rfl

/-! ### Events -/

def Event.mapNames (f : String → String) : Event → Event
  | .declaration earlier d position =>
      .declaration (earlier.map (Declaration.mapNames f)) (d.mapNames f) position
  | .use view u => .use (view.mapNames f) (u.mapNames f)

namespace Statement

mutual

theorem visited_mapNames (f : String → String) :
    ∀ s : Statement, (s.mapNames f).visited = s.visited.map (Use.mapNames f)
  | .compound body => visitedAll_mapNames f body
  | .assign target value => by
      rw [mapNames, visited, Expr.uses_mapNames, visited, List.map_append]
      rfl
  | .call c => by
      rw [mapNames, visited, visited, List.map_append, ← Expr.flatMap_uses_mapNames]
      rfl
  | .write _ args _ => Expr.flatMap_uses_mapNames f args
  | .empty => rfl

theorem visitedAll_mapNames (f : String → String) : ∀ body : List Statement,
    visitedAll (mapNamesAll f body) = (visitedAll body).map (Use.mapNames f)
  | [] => rfl
  | s :: body => by
      rw [mapNamesAll, visitedAll, visited_mapNames f s,
        visitedAll_mapNames f body, visitedAll, List.map_append]

end

end Statement

theorem VarDecl.events_mapNames (f : String → String) (decls : List VarDecl)
    (earlier : List Declaration) :
    VarDecl.events (earlier.map (Declaration.mapNames f)) (decls.map (VarDecl.mapNames f)) =
      (VarDecl.events earlier decls).map (Event.mapNames f) := by
  induction decls generalizing earlier with
  | nil => rfl
  | cons d decls ih =>
      have hrest := ih (earlier ++ [.var d])
      rw [List.map_append] at hrest
      rw [List.map_cons, events, events, List.map_cons, ← hrest]
      rfl

mutual

theorem Block.events_mapNames (f : String → String) :
    ∀ (b : Block) (opening : List Declaration) (outer : View),
      (b.mapNames f).events (opening.map (Declaration.mapNames f)) (outer.mapNames f) =
        (b.events opening outer).map (Event.mapNames f)
  | .mk vars procedures body, opening, outer => by
      have hprocedures :=
        Procedure.eventsAll_mapNames f procedures (opening ++ vars.map .var) outer
      rw [List.map_append] at hprocedures
      rw [Block.mapNames, Block.events, Block.events, List.map_append, List.map_append,
        VarDecl.events_mapNames, Declaration.map_var_mapNames, hprocedures,
        Statement.visitedAll_mapNames, Procedure.mapNamesAll_eq_map,
        Declaration.map_procedure_mapNames, ← List.map_append, ← List.map_append, List.map_map,
        List.map_map]
      rfl

theorem Procedure.eventsAll_mapNames (f : String → String) :
    ∀ (procedures : List Procedure) (earlier : List Declaration) (outer : View),
      Procedure.eventsAll (earlier.map (Declaration.mapNames f)) (outer.mapNames f)
          (Procedure.mapNamesAll f procedures) =
        (Procedure.eventsAll earlier outer procedures).map (Event.mapNames f)
  | [], _, _ => rfl
  | .mk name position params block :: procedures, earlier, outer => by
      have hparams := VarDecl.events_mapNames f params []
      have hblock := Block.events_mapNames f block (params.map .var)
        ((earlier ++ [.procedure (.mk name position params block)]) :: outer)
      have hrest := Procedure.eventsAll_mapNames f procedures
        (earlier ++ [.procedure (.mk name position params block)]) outer
      rw [View.mapNames, List.map_cons, List.map_append] at hblock
      rw [List.map_append] at hrest
      rw [Procedure.mapNamesAll, Procedure.eventsAll, Procedure.eventsAll,
        List.map_append, ← hrest, Procedure.mapNames, Procedure.events, Procedure.events,
        List.map_cons, List.map_append,
        ← hparams, ← hblock, Declaration.map_var_mapNames]
      rfl

end

theorem Program.events_mapNames (f : String → String) (program : Program) :
    (program.mapNames f).events = program.events.map (Event.mapNames f) :=
  Block.events_mapNames f program.block Declaration.predeclared []

/-! ### Names in views -/

theorem View.names_append_vars (ds : List Declaration) (decls : List VarDecl) (outer : View) :
    View.names ((ds ++ decls.map .var) :: outer) =
      (decls.map VarDecl.name).reverse ++ View.names (ds :: outer) := by
  rw [names_append, List.map_map]
  rfl

theorem View.names_append_procedures (ds : List Declaration) (procedures : List Procedure)
    (outer : View) :
    View.names ((ds ++ procedures.map .procedure) :: outer) =
      (procedures.map Procedure.name).reverse ++ View.names (ds :: outer) := by
  rw [names_append, List.map_map]
  rfl

/-- A use is kept apart from what can be seen at its place. -/
def Event.Apart (f : String → String) : Event → Prop
  | .declaration _ _ _ => True
  | .use view u => MiniPascal.Apart f view.names u.name

theorem VarDecl.apart_of_mem_events {earlier : List Declaration}
    {decls : List VarDecl} {e : Event} (he : e ∈ VarDecl.events earlier decls) :
    e.Apart f := by
  obtain ⟨_, _, _, -, rfl⟩ := VarDecl.mem_events_iff.mp he
  trivial

mutual

theorem Block.apart_of_mem_events : ∀ (b : Block) {opening : List Declaration} {outer : View},
    b.Apart f (View.names (opening :: outer)) → ∀ e ∈ b.events opening outer, e.Apart f
  | .mk vars procedures body, opening, outer, h, e, he => by
      rw [Block.Apart, ← View.names_append_vars, ← View.names_append_procedures] at h
      rw [Block.events, List.mem_append, List.mem_append] at he
      rcases he with he | he | he
      · exact VarDecl.apart_of_mem_events he
      · exact Procedure.apart_of_mem_eventsAll procedures h.1 e he
      · obtain ⟨u, hu, rfl⟩ := List.mem_map.mp he
        exact h.2 u ((Statement.visitedAll_perm body).mem_iff.mp hu)

theorem Procedure.apart_of_mem_eventsAll : ∀ (procedures : List Procedure)
    {earlier : List Declaration} {outer : View},
    Procedure.ApartAll f (View.names (earlier :: outer)) procedures →
    ∀ e ∈ Procedure.eventsAll earlier outer procedures, e.Apart f
  | [], _, _, _, _, he => by cases he
  | .mk name position params block :: procedures, earlier, outer, h, e, he => by
      have hearlier : name :: View.names (earlier :: outer) = View.names
          ((earlier ++ [.procedure (.mk name position params block)]) :: outer) :=
        (View.names_append earlier [.procedure (.mk name position params block)] outer).symm
      rw [Procedure.ApartAll, Procedure.Apart, Procedure.name, hearlier] at h
      rw [Procedure.eventsAll, Procedure.events, List.mem_append, List.mem_cons,
        List.mem_append] at he
      rcases he with (rfl | he | he) | he
      · trivial
      · exact VarDecl.apart_of_mem_events he
      · refine Block.apart_of_mem_events block ?_ e he
        have hopening := View.names_append_vars [] params
          ((earlier ++ [.procedure (.mk name position params block)]) :: outer)
        rw [List.nil_append] at hopening
        rw [hopening]
        exact h.1
      · exact Procedure.apart_of_mem_eventsAll procedures h.2 e he

end

/-! ### Resolution -/

theorem Distinct.find?_eq_some {ds : List Declaration} {d : Declaration} (h : Distinct ds)
    (hd : d ∈ ds) : ds.find? (·.name = d.name) = some d := by
  obtain ⟨d', hd'⟩ : ∃ d', ds.find? (·.name = d.name) = some d' :=
    Option.isSome_iff_exists.mp (List.find?_isSome.mpr ⟨d, hd, by simp⟩)
  have hname : d'.name = d.name := by simpa using List.find?_some hd'
  rw [hd', List.inj_on_of_nodup_map h (List.mem_of_find?_eq_some hd') hd hname]

/-- The name means the same after all names have changed. -/
def View.Keeps (f : String → String) (view : View) (name : String) : Prop :=
  View.resolve? (f name) (view.mapNames f) =
    (View.resolve? name view).map fun r => (r.1.mapNames f, r.2)

theorem View.keeps_of_apart (hf : ∀ t : DataType, f t.name = t.name) {view : View}
    {name : String} (hdistinct : ∀ ds ∈ view.mapNames f, Distinct ds)
    (h : Apart f view.names name) :
    view.Keeps f name := by
  induction view with
  | nil => rfl
  | cons ds outer ih =>
      rw [mapNames, List.map_cons] at hdistinct
      obtain ⟨hds, houter⟩ := List.forall_mem_cons.mp hdistinct
      rw [names_cons] at h
      rw [Keeps, mapNames, List.map_cons]
      cases hfind : ds.find? (·.name = name) with
      | some d =>
          obtain rfl : d.name = name := by simpa using List.find?_some hfind
          have hmem := List.mem_map_of_mem (f := Declaration.mapNames f)
            (List.mem_of_find?_eq_some hfind)
          have hfound := hds.find?_eq_some hmem
          rw [d.name_mapNames hf] at hfound
          rw [resolve?_cons_of_some hfound, resolve?_cons_of_some hfind, List.length_map]
          rfl
      | none =>
          have hname : name ∉ (ds.map Declaration.name).reverse := by
            rw [List.mem_reverse]
            intro hmem
            obtain ⟨d, hd, hdname⟩ := List.mem_map.mp hmem
            exact List.find?_eq_none.mp hfind d hd (by simpa using hdname)
          obtain ⟨hne, hrest⟩ := h.of_append_of_notMem hname
          have hnone : (ds.map (Declaration.mapNames f)).find? (·.name = f name) = none := by
            rw [List.find?_eq_none]
            intro d' hd'
            obtain ⟨d, hd, rfl⟩ := List.mem_map.mp hd'
            rw [d.name_mapNames hf]
            simpa using hne d.name (List.mem_reverse.mpr (List.mem_map_of_mem hd))
          rw [resolve?_cons_of_none hnone, resolve?_cons_of_none hfind]
          exact ih houter hrest

/-- In a program without errors no scope that can be seen from a use declares a name twice. -/
theorem Program.distinct_of_use_mem_events {program : Program}
    (hevents : ∀ e ∈ program.events, e.error? = none) {view : View} {u : Use}
    (h : .use view u ∈ program.events) : ∀ ds ∈ view, Distinct ds := by
  obtain ⟨path, s, hs, rfl, -⟩ := Program.mem_events_iff.mp h
  intro ds hds
  obtain ⟨inner, outer, heq⟩ := List.append_of_mem hds
  obtain ⟨declaring, s', k, -, hs', rfl, -⟩ :=
    Program.exists_site_of_suffix hs ⟨inner, heq.symm⟩
  exact (Program.distinct_declared hevents hs').sublist ((s'.declared_sublist k).map _)

theorem View.Keeps.binding?_mapNames {view : View} {v : Variable} (h : view.Keeps f v.name) :
    (view.mapNames f).binding? (v.mapNames f) = view.binding? v := by
  rw [View.binding?, Variable.mapNames, h, View.binding?]
  cases View.resolve? v.name view with
  | none => rfl
  | some r =>
      obtain ⟨d, level⟩ := r
      cases d <;> rfl

theorem View.Keeps.callee?_mapNames {view : View} {c : Call} (h : view.Keeps f c.name) :
    (view.mapNames f).callee? (c.mapNames f) =
      (view.callee? c).map (ProcedureSymbol.mapNames f) := by
  rw [View.callee?, Call.mapNames, h, View.callee?]
  cases View.resolve? c.name view with
  | none => rfl
  | some r =>
      obtain ⟨d, level⟩ := r
      cases d with
      | procedure p => exact congrArg some (p.symbol_mapNames f level)
      | _ => rfl

namespace Event

def Keeps (f : String → String) : Event → Prop
  | .declaration _ _ _ => True
  | .use view u => view.Keeps f u.name

variable {e : Event}

theorem Keeps.binding?_mapNames (h : e.Keeps f) : (e.mapNames f).binding? = e.binding? := by
  cases e with
  | declaration earlier d position => rfl
  | use view u =>
      cases u with
      | call c => rfl
      | var v =>
          have hbinding := View.Keeps.binding?_mapNames h
          exact congrArg (Option.map (v.id, ·)) hbinding

theorem Keeps.callee?_mapNames (h : e.Keeps f) :
    (e.mapNames f).callee? = e.callee?.map fun r => (r.1, r.2.mapNames f) := by
  cases e with
  | declaration earlier d position => rfl
  | use view u =>
      cases u with
      | var v => rfl
      | call c =>
          have hcallee := View.Keeps.callee?_mapNames h
          refine (congrArg (Option.map (c.id, ·)) hcallee).trans ?_
          rw [Option.map_map, Event.callee?, Option.map_map]
          rfl

theorem Keeps.error?_eq_none (hf : ∀ t : DataType, f t.name = t.name) (h : e.Keeps f)
    (herror : (e.mapNames f).error? = none) : e.error? = none := by
  cases e with
  | declaration earlier d position =>
      -- Names that are the same before are the same afterwards.
      have hfree : ∀ d' ∈ earlier, (d'.mapNames f).name ≠ (d.mapNames f).name := by
        simpa [mapNames, Event.error?] using herror
      have hfree' : ∀ d' ∈ earlier, d'.name ≠ d.name := by
        intro d' hd' heq
        refine hfree d' hd' ?_
        rw [d'.name_mapNames hf, d.name_mapNames hf, heq]
      simpa [Event.error?] using hfree'
  | use view u =>
      cases u with
      | var v =>
          obtain ⟨d', level, hd'⟩ := var_of_error? herror
          obtain ⟨⟨d, level'⟩, hr, heq⟩ := Option.map_eq_some_iff.mp (h.symm.trans hd')
          rw [Use.name] at hr
          cases d with
          | var d => simp [Event.error?, hr]
          | type t => cases heq
          | procedure p => cases heq
      | call c =>
          obtain ⟨p', level, hp', hlength⟩ := call_of_error? herror
          obtain ⟨⟨d, level'⟩, hr, heq⟩ := Option.map_eq_some_iff.mp (h.symm.trans hp')
          rw [Use.name] at hr
          cases d with
          | procedure p =>
              cases heq
              have hparams : p.params.length = c.args.length := by
                simpa [Procedure.params_mapNames, Call.mapNames] using hlength
              simp [Event.error?, hr, hparams]
          | type t => cases heq
          | var d => cases heq

end Event

/-! ### Tables -/

theorem getElem?_insertMany_map {β : Type} (g : β → β) (entries : List (NodeId × β))
    {t t' : Std.TreeMap NodeId β} (h : ∀ id : NodeId, t[id]? = t'[id]?.map g) (id : NodeId) :
    (t.insertMany (entries.map fun r => (r.1, g r.2)))[id]? =
      (t'.insertMany entries)[id]?.map g := by
  induction entries generalizing t t' with
  | nil => exact h id
  | cons r entries ih =>
      obtain ⟨k, v⟩ := r
      rw [List.map_cons, Std.TreeMap.insertMany_cons, Std.TreeMap.insertMany_cons]
      refine ih fun id => ?_
      rw [Std.TreeMap.getElem?_insert, Std.TreeMap.getElem?_insert, h id]
      split <;> rfl

/-- The analysis `a` is `a'` but for the names. -/
structure Analysis.Matches (f : String → String) (a a' : Analysis) : Prop where
  binding (id : NodeId) : a.binding? id = a'.binding? id
  procedure (id : NodeId) : a.procedure? id = (a'.procedure? id).map
    (ProcedureSymbol.mapNames f)
  scopes : a.scopes = a'.scopes.mapNames f

section

variable {program : Program} {a : Analysis} {j : Journal}

theorem Program.Regular.of_mapNames (hf : ∀ t : DataType, f t.name = t.name)
    (h : (program.mapNames f).Regular) : program.Regular where
  ids := by
    have hids := h.ids
    rw [Program.mapNames, Block.uses_mapNames, List.map_map] at hids
    have hsame : program.block.uses.map (Use.id ∘ Use.mapNames f) =
        program.block.uses.map Use.id :=
      List.map_congr_left fun u _ => u.id_mapNames f
    rwa [hsame] at hids
  names := by
    intro name hname t heq
    have hnames := h.names
    rw [Program.mapNames, Block.names_mapNames] at hnames
    exact hnames (f name) (List.mem_map_of_mem hname) t (by rw [heq, hf])

theorem Program.Apart.keeps (hf : ∀ t : DataType, f t.name = t.name) (h : program.Apart f)
    (herrors : ∀ e ∈ (program.mapNames f).events, e.error? = none) :
    ∀ e ∈ program.events, e.Keeps f := by
  intro e he
  cases e with
  | declaration earlier d position => trivial
  | use view u =>
      have hmem : .use (view.mapNames f) (u.mapNames f) ∈ (program.mapNames f).events := by
        rw [Program.events_mapNames]
        exact List.mem_map_of_mem (f := Event.mapNames f) he
      exact View.keeps_of_apart hf (Program.distinct_of_use_mem_events herrors hmem)
        (Block.apart_of_mem_events program.block h _ he)

/-- A program whose names are kept apart is analyzed like the program with the names that they
become. -/
theorem Program.Apart.exists_analysis (hf : ∀ t : DataType, f t.name = t.name)
    (h : program.Apart f) (hregular : (program.mapNames f).Regular)
    (hanalyze : (analyze (program.mapNames f) j).1 = .ok a) (j' : Journal) :
    ∃ a', (analyze program j').1 = .ok a' ∧ a.Matches f a' := by
  obtain ⟨-, herrors, hvars, hcalls⟩ := hregular.analyzed hanalyze
  have hkeeps := h.keeps hf herrors
  have hregular' := hregular.of_mapNames hf
  have herrors' : ∀ e ∈ program.events, e.error? = none := by
    intro e he
    refine (hkeeps e he).error?_eq_none hf (herrors _ ?_)
    rw [Program.events_mapNames]
    exact List.mem_map_of_mem he
  obtain ⟨a', hanalyze'⟩ : ∃ a', (analyze program j').1 = .ok a' := by
    rcases analyze_cases hregular'.names j' with ⟨-, hok⟩ | ⟨hne, -⟩
    · exact hok
    · exact absurd (List.filterMap_eq_nil_iff.mpr herrors') hne
  obtain ⟨-, -, hvars', hcalls'⟩ := hregular'.analyzed hanalyze'
  rw [Program.events_mapNames, List.filterMap_map] at hvars hcalls
  refine ⟨a', hanalyze', ?_, ?_, ?_⟩
  · intro id
    have hbindings : program.events.filterMap (Event.binding? ∘ Event.mapNames f) =
        program.events.filterMap Event.binding? :=
      List.filterMap_congr fun e he => (hkeeps e he).binding?_mapNames
    rw [Analysis.binding?, Analysis.binding?, hvars, hvars', hbindings]
  · intro id
    have hcallees : program.events.filterMap (Event.callee? ∘ Event.mapNames f) =
        (program.events.filterMap Event.callee?).map fun r => (r.1, r.2.mapNames f) := by
      rw [List.map_filterMap]
      exact List.filterMap_congr fun e he => (hkeeps e he).callee?_mapNames
    rw [Analysis.procedure?, Analysis.procedure?, hcalls, hcalls', hcallees]
    exact getElem?_insertMany_map _ _ (by simp) id
  · have hscopes := hregular.scopes_eq hanalyze
    rw [Program.scopes_mapNames, ← hregular'.scopes_eq hanalyze',
      ← Array.toList_map] at hscopes
    exact congrArg ScopeTree.mk (Array.toList_inj.mp hscopes)

end

end MiniPascal
