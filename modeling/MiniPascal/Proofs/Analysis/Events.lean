import MiniPascal.Proofs.Scope.Tree

/-!
What the analysis checks, as a list of events. An event is a declaration, seen together with
the declarations before it in its scope, or a use of a name, seen together with the view of its
place. The walk passes the events of a program in their order: each event has at most one
error, and a use that has none is filed under its number.
-/

namespace MiniPascal

inductive Event where
  | declaration (earlier : List Declaration) (d : Declaration) (position : Position)
  | use (view : View) (u : Use)

namespace Event

/-- What is wrong with a declaration or a use. -/
def error? : Event → Option SemanticError
  | .declaration earlier d position =>
      if (earlier.find? (·.name = d.name)).isSome
        then some (.duplicateId d.name position) else none
  | .use view (.var v) =>
      match View.resolve? v.name view with
      | some (.var _, _) => none
      | some (d, _) => some (.wrongSymbolKind v.name .var d.kind v.position)
      | none => some (.idNotFound v.name v.position)
  | .use view (.call c) =>
      match View.resolve? c.name view with
      | some (.procedure p, _) =>
          if p.params.length = c.args.length then none
          else some (.wrongParamsNum c.name p.params.length c.args.length c.position)
      | some (d, _) => some (.wrongSymbolKind c.name .procedure d.kind c.position)
      | none => some (.idNotFound c.name c.position)

/-- What is filed about a variable. -/
def binding? : Event → Option (NodeId × VarBinding)
  | .use view (.var v) => (view.binding? v).map (v.id, ·)
  | _ => none

/-- What is filed about a call. -/
def callee? : Event → Option (NodeId × ProcedureSymbol)
  | .use view (.call c) => (view.callee? c).map (c.id, ·)
  | _ => none

def use? : Event → Option Use
  | .use _ u => some u
  | .declaration _ _ _ => none

end Event

namespace Statement

mutual

/-- The uses in a statement, in the order of the walk. -/
def visited : Statement → List Use
  | .compound body => visitedAll body
  | .assign target value => value.uses ++ [.var target]
  | .call c => c.args.flatMap Expr.uses ++ [.call c]
  | .write _ args _ => args.flatMap Expr.uses
  | .empty => []

def visitedAll : List Statement → List Use
  | [] => []
  | s :: statements => s.visited ++ visitedAll statements

end

mutual

theorem visited_perm : ∀ s : Statement, s.visited.Perm s.uses
  | .compound body => visitedAll_perm body
  | .assign _ value => List.perm_append_singleton _ value.uses
  | .call _ => .refl _
  | .write _ _ _ => .refl _
  | .empty => .refl _

theorem visitedAll_perm : ∀ body : List Statement, (visitedAll body).Perm (usesAll body)
  | [] => .refl _
  | s :: body => (visited_perm s).append (visitedAll_perm body)

end

end Statement

/-- Variables or parameters, declared one after the other. -/
def VarDecl.events (earlier : List Declaration) : List VarDecl → List Event
  | [] => []
  | d :: decls =>
      .declaration earlier (.var d) d.position :: VarDecl.events (earlier ++ [.var d]) decls

mutual

/-- The events of a block in a scope that has the declarations `opening` already. -/
def Block.events (opening : List Declaration) (outer : View) : Block → List Event
  | .mk vars procedures body =>
      VarDecl.events opening vars ++
        (Procedure.eventsAll (opening ++ vars.map .var) outer procedures ++
          (Statement.visitedAll body).map
            (.use ((opening ++ vars.map .var ++ procedures.map .procedure) :: outer)))

def Procedure.events (earlier : List Declaration) (outer : View) : Procedure → List Event
  | .mk name position params block =>
      .declaration earlier (.procedure (.mk name position params block)) position ::
        (VarDecl.events [] params ++
          block.events (params.map .var)
            ((earlier ++ [.procedure (.mk name position params block)]) :: outer))

def Procedure.eventsAll (earlier : List Declaration) (outer : View) :
    List Procedure → List Event
  | [] => []
  | p :: procedures =>
      p.events earlier outer ++
        Procedure.eventsAll (earlier ++ [.procedure p]) outer procedures

end

def Site.events (s : Site) : List Event := s.block.events s.opening s.outer

def Program.events (program : Program) : List Event := program.root.events

/-! ### The events of a program are those of its scopes -/

theorem Site.view_eq (s : Site) :
    s.view =
      (s.opening ++ s.block.vars.map .var ++ s.block.procedures.map .procedure) ::
        s.outer := by
  rw [Site.view, Site.declared, List.take_length]

theorem Site.use_mem_events {s : Site} {u : Use} (hu : u ∈ Statement.usesAll s.block.body) :
    .use s.view u ∈ s.events := by
  have hvisited := (Statement.visitedAll_perm s.block.body).mem_iff.mpr hu
  rw [Site.view_eq]
  obtain ⟨⟨vars, procedures, body⟩, opening, outer⟩ := s
  exact List.mem_append_right _ (List.mem_append_right _ (List.mem_map_of_mem hvisited))

theorem Procedure.events_subset_eventsAll {procedures : List Procedure}
    {p : Procedure} {k : Nat} (hp : procedures[k]? = some p) (earlier : List Declaration)
    (outer : View) :
    p.events (earlier ++ (procedures.take k).map .procedure) outer ⊆
      eventsAll earlier outer procedures := by
  induction procedures generalizing k earlier with
  | nil => cases hp
  | cons q procedures ih =>
      cases k with
      | zero =>
          cases hp
          rw [List.take_zero, List.map_nil, List.append_nil]
          exact List.subset_append_left _ _
      | succ k =>
          have hsubset := ih hp (earlier ++ [.procedure q])
          rw [List.append_assoc] at hsubset
          exact List.subset_append_of_subset_right _ hsubset

theorem Site.declared_succ {s : Site} {p : Procedure} {k : Nat}
    (hp : s.block.procedures[k]? = some p) :
    s.declared (k + 1) = s.declared k ++ [.procedure p] := by
  rw [Site.declared, List.take_add_one, hp, Option.toList_some, List.map_append,
    ← List.append_assoc]
  rfl

theorem Site.procedure_events_subset {s : Site} {p : Procedure} {k : Nat}
    (hp : s.block.procedures[k]? = some p) : p.events (s.declared k) s.outer ⊆ s.events := by
  have hsubset :=
    Procedure.events_subset_eventsAll hp (s.opening ++ s.block.vars.map .var) s.outer
  obtain ⟨⟨vars, procedures, body⟩, opening, outer⟩ := s
  exact fun e he => List.mem_append_right _ (List.mem_append_left _ (hsubset he))

theorem Site.inside_events_subset {s : Site} {p : Procedure} {k : Nat}
    (hp : s.block.procedures[k]? = some p) : (s.inside k p).events ⊆ s.events := by
  refine List.Subset.trans ?_ (Site.procedure_events_subset hp)
  rw [Site.inside, Site.declared_succ hp]
  obtain ⟨name, position, params, block⟩ := p
  exact List.subset_cons_of_subset _ (List.subset_append_right _ _)

theorem Program.site_events_subset {program : Program} {path : List Nat} {s : Site}
    (h : program.site? path = some s) : s.events ⊆ program.events := by
  induction path generalizing s with
  | nil =>
      cases h
      exact List.Subset.refl _
  | cons k path ih =>
      obtain ⟨s₀, p, hs₀, hp, rfl⟩ := Program.site?_cons_eq_some h
      exact List.Subset.trans (Site.inside_events_subset hp) (ih hs₀)

/-- A use in the body of a scope is an event with the view of that body. -/
theorem Program.use_mem_events {program : Program} {path : List Nat} {s : Site} {u : Use}
    (h : program.site? path = some s) (hu : u ∈ Statement.usesAll s.block.body) :
    .use s.view u ∈ program.events :=
  Program.site_events_subset h (Site.use_mem_events hu)

/-! ### Declarations without errors -/

/-- No name is declared twice. -/
def Distinct (ds : List Declaration) : Prop := (ds.map Declaration.name).Nodup

theorem Distinct.concat {ds : List Declaration} {d : Declaration} {position : Position}
    (h : Distinct ds) (hd : (Event.declaration ds d position).error? = none) :
    Distinct (ds ++ [d]) := by
  have hfree : ∀ d' ∈ ds, d'.name ≠ d.name := by simpa [Event.error?] using hd
  rw [Distinct, List.map_append, List.nodup_append]
  refine ⟨h, by simp, ?_⟩
  intro name hname name' hname'
  obtain ⟨d', hd', rfl⟩ := List.mem_map.mp hname
  obtain rfl := List.mem_singleton.mp hname'
  exact hfree d' hd'

theorem VarDecl.distinct_of_events {ds : List Declaration} {decls : List VarDecl}
    (h : Distinct ds) (hevents : ∀ e ∈ VarDecl.events ds decls, e.error? = none) :
    Distinct (ds ++ decls.map .var) := by
  induction decls generalizing ds with
  | nil => rwa [List.map_nil, List.append_nil]
  | cons d decls ih =>
      rw [List.map_cons, List.append_cons]
      exact ih (h.concat (hevents _ List.mem_cons_self))
        fun e he => hevents e (List.mem_cons_of_mem _ he)

theorem Procedure.distinct_of_events {ds : List Declaration} {outer : View}
    {procedures : List Procedure} (h : Distinct ds)
    (hevents : ∀ e ∈ Procedure.eventsAll ds outer procedures, e.error? = none) :
    Distinct (ds ++ procedures.map .procedure) := by
  induction procedures generalizing ds with
  | nil => rwa [List.map_nil, List.append_nil]
  | cons p procedures ih =>
      rw [List.map_cons, List.append_cons]
      have hp : (Event.declaration ds (.procedure p) p.position).error? = none := by
        obtain ⟨name, position, params, block⟩ := p
        exact hevents _ (List.mem_append_left _ List.mem_cons_self)
      exact ih (h.concat hp) fun e he => hevents e (List.mem_append_right _ he)

/-- In a program without errors no scope declares a name twice. -/
theorem Program.distinct_declared {program : Program}
    (hevents : ∀ e ∈ program.events, e.error? = none) {path : List Nat} {s : Site}
    (h : program.site? path = some s) : Distinct (s.declared s.block.procedures.length) := by
  have hsite : ∀ e ∈ s.events, e.error? = none :=
    fun e he => hevents e (site_events_subset h he)
  have hopening : Distinct s.opening := by
    cases path with
    | nil =>
        cases h
        show (Declaration.predeclared.map Declaration.name).Nodup
        decide
    | cons k path =>
        obtain ⟨s₀, p, hs₀, hp, rfl⟩ := site?_cons_eq_some h
        have hnil : Distinct [] := List.nodup_nil
        refine VarDecl.distinct_of_events hnil fun e he => ?_
        refine hevents e (site_events_subset hs₀ (Site.procedure_events_subset hp ?_))
        obtain ⟨name, position, params, block⟩ := p
        exact List.mem_cons_of_mem _ (List.mem_append_left _ he)
  obtain ⟨⟨vars, procedures, body⟩, opening, outer⟩ := s
  rw [Site.declared, List.take_length]
  have hvars := VarDecl.distinct_of_events hopening
    fun e he => hsite e (List.mem_append_left _ he)
  exact Procedure.distinct_of_events hvars
    fun e he => hsite e (List.mem_append_right _ (List.mem_append_left _ he))

/-! ### Every use is an event -/

theorem VarDecl.filterMap_use?_events (earlier : List Declaration) (decls : List VarDecl) :
    (VarDecl.events earlier decls).filterMap Event.use? = [] := by
  induction decls generalizing earlier with
  | nil => rfl
  | cons d decls ih => exact ih _

mutual

/-- The walk comes to every use once. -/
theorem Block.filterMap_use?_events :
    ∀ (b : Block) (opening : List Declaration) (outer : View),
      ((b.events opening outer).filterMap Event.use?).Perm b.uses
  | .mk vars procedures body, opening, outer => by
      rw [Block.events, List.filterMap_append, List.filterMap_append, List.filterMap_map,
        VarDecl.filterMap_use?_events, List.nil_append, Block.uses]
      refine (Procedure.filterMap_use?_eventsAll procedures _ outer).append ?_
      have hsome : Event.use? ∘
          Event.use ((opening ++ vars.map .var ++ procedures.map .procedure) ::
            outer) = some := rfl
      rw [hsome, List.filterMap_some]
      exact Statement.visitedAll_perm body

theorem Procedure.filterMap_use?_eventsAll :
    ∀ (procedures : List Procedure) (earlier : List Declaration) (outer : View),
      ((Procedure.eventsAll earlier outer procedures).filterMap Event.use?).Perm
        (Procedure.usesAll procedures)
  | [], _, _ => .refl _
  | .mk name position params block :: procedures, earlier, outer => by
      rw [Procedure.eventsAll, Procedure.events, List.filterMap_append, Procedure.usesAll,
        Procedure.uses]
      refine List.Perm.append ?_ (Procedure.filterMap_use?_eventsAll procedures _ outer)
      rw [List.filterMap_cons_none rfl, List.filterMap_append, VarDecl.filterMap_use?_events,
        List.nil_append]
      exact Block.filterMap_use?_events block _ _

end

end MiniPascal
