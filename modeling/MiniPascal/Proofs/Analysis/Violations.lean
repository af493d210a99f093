import MiniPascal.Proofs.Analysis.Resolution

/-!
What can be wrong with the names of a program, told without the analysis. A declaration is
wrong if its scope has an earlier one of that name; a use is wrong if its name has no
declaration in sight, or if the innermost one is of another kind or has another number of
parameters. The analysis reports one error for each declaration and each use that is wrong, in
the order of its walk, and nothing else.
-/

namespace MiniPascal

/-! ### What names mean -/

namespace View

/-- The innermost declaration of a name in sight; in its scope it is the first one of that
name. -/
inductive Means : View → String → Declaration → Prop
  | here {earlier later : List Declaration} {d : Declaration} {outer : View} :
      (∀ d' ∈ earlier, d'.name ≠ d.name) → Means ((earlier ++ d :: later) :: outer) d.name d
  | outside {ds : List Declaration} {name : String} {d : Declaration} {outer : View} :
      (∀ d' ∈ ds, d'.name ≠ name) → Means outer name d → Means (ds :: outer) name d

/-- No declaration of the name is in sight. -/
def Unknown (view : View) (name : String) : Prop := ∀ ds ∈ view, ∀ d ∈ ds, d.name ≠ name

theorem means_of_resolve? {view : View} {name : String} {d : Declaration} {level : Nat}
    (h : resolve? name view = some (d, level)) : view.Means name d := by
  induction view with
  | nil => cases h
  | cons ds outer ih =>
      cases hds : ds.find? (·.name = name) with
      | none =>
          rw [resolve?_cons_of_none hds] at h
          refine .outside ?_ (ih h)
          simpa using hds
      | some d' =>
          rw [resolve?_cons_of_some hds] at h
          cases h
          obtain ⟨hname, earlier, later, rfl, hearlier⟩ := List.find?_eq_some_iff_append.mp hds
          obtain rfl : d.name = name := by simpa using hname
          refine .here ?_
          simpa using hearlier

theorem Means.resolve? {view : View} {name : String} {d : Declaration}
    (h : view.Means name d) :
    ∃ level, View.resolve? name view = some (d, level) := by
  induction h with
  | @here earlier later d outer hearlier =>
      refine ⟨outer.length + 1, resolve?_cons_of_some ?_⟩
      refine List.find?_eq_some_iff_append.mpr ⟨by simp, earlier, later, rfl, ?_⟩
      simpa using hearlier
  | @outside ds name d outer hds _ ih =>
      obtain ⟨level, hlevel⟩ := ih
      refine ⟨level, (resolve?_cons_of_none ?_).trans hlevel⟩
      simpa using hds

theorem resolve?_eq_none_iff {view : View} {name : String} :
    resolve? name view = none ↔ view.Unknown name := by
  induction view with
  | nil => simp [resolve?, Unknown]
  | cons ds outer ih =>
      rw [Unknown, List.forall_mem_cons]
      cases hds : ds.find? (·.name = name) with
      | none =>
          have hfree : ∀ d ∈ ds, d.name ≠ name := by simpa using hds
          rw [resolve?_cons_of_none hds, ih]
          exact ⟨fun h => ⟨hfree, h⟩, fun h => h.2⟩
      | some d =>
          rw [resolve?_cons_of_some hds]
          have hname : d.name = name := by simpa using List.find?_some hds
          constructor
          · intro h
            cases h
          · intro h
            exact absurd hname (h.1 d (List.mem_of_find?_eq_some hds))

theorem Means.unique {view : View} {name : String} {d d' : Declaration} (h : view.Means name d)
    (h' : view.Means name d') : d = d' := by
  obtain ⟨level, hlevel⟩ := h.resolve?
  obtain ⟨level', hlevel'⟩ := h'.resolve?
  exact congrArg Prod.fst (Option.some.inj (hlevel.symm.trans hlevel'))

theorem Means.name_eq {view : View} {name : String} {d : Declaration} (h : view.Means name d) :
    d.name = name := by
  induction h with
  | here _ => rfl
  | outside _ _ ih => exact ih

theorem Means.not_unknown {view : View} {name : String} {d : Declaration}
    (h : view.Means name d) :
    ¬ view.Unknown name := by
  obtain ⟨level, hlevel⟩ := h.resolve?
  intro hunknown
  rw [resolve?_eq_none_iff.mpr hunknown] at hlevel
  cases hlevel

end View

/-! ### What is wrong -/

/-- An event and the error that it is. -/
inductive Event.Violates : Event → SemanticError → Prop
  | duplicate {earlier : List Declaration} {d d' : Declaration} {position : Position} :
      d' ∈ earlier → d'.name = d.name →
      Violates (.declaration earlier d position) (.duplicateId d.name position)
  | unknownVar {view : View} {v : Variable} :
      view.Unknown v.name → Violates (.use view (.var v)) (.idNotFound v.name v.position)
  | unknownCall {view : View} {c : Call} :
      view.Unknown c.name → Violates (.use view (.call c)) (.idNotFound c.name c.position)
  | procedureAsVar {view : View} {v : Variable} {p : Procedure} :
      view.Means v.name (.procedure p) →
      Violates (.use view (.var v)) (.wrongSymbolKind v.name .var .procedure v.position)
  | varAsProcedure {view : View} {c : Call} {d : VarDecl} :
      view.Means c.name (.var d) →
      Violates (.use view (.call c)) (.wrongSymbolKind c.name .procedure .var c.position)
  | argumentCount {view : View} {c : Call} {p : Procedure} :
      view.Means c.name (.procedure p) → p.params.length ≠ c.args.length →
      Violates (.use view (.call c))
        (.wrongParamsNum c.name p.params.length c.args.length c.position)

/-- The errors of a row of events: one for each event that is wrong, in their order. -/
inductive Reports : List Event → List SemanticError → Prop
  | nil : Reports [] []
  | wrong {e : Event} {events : List Event} {error : SemanticError}
      {errors : List SemanticError} :
      e.Violates error → Reports events errors → Reports (e :: events) (error :: errors)
  | right {e : Event} {events : List Event} {errors : List SemanticError} :
      (∀ error, ¬ e.Violates error) → Reports events errors → Reports (e :: events) errors

/-- The name of a use is not the name of a type. -/
def Event.Free : Event → Prop
  | .use _ u => FreeName u.name
  | .declaration _ _ _ => True

theorem FreeName.ne_type {view : View} {name : String} {t : DataType} (hname : FreeName name)
    (h : view.Means name (.type t)) : False := hname t h.name_eq.symm

namespace Event

theorem violates_declaration_iff {earlier : List Declaration} {d : Declaration}
    {position : Position} {error : SemanticError} :
    (Event.declaration earlier d position).Violates error ↔
      (Event.declaration earlier d position).error? = some error := by
  rw [error?, Option.ite_none_right_eq_some]
  constructor
  · rintro ⟨hmem, hname⟩
    refine ⟨?_, rfl⟩
    simp only [List.find?_isSome, decide_eq_true_eq]
    exact ⟨_, hmem, hname⟩
  · rintro ⟨hsome, herror⟩
    simp only [List.find?_isSome, decide_eq_true_eq] at hsome
    obtain ⟨d', hmem, hname⟩ := hsome
    cases herror
    exact .duplicate hmem hname

theorem violates_var_iff {view : View} {v : Variable} (hname : FreeName v.name)
    {error : SemanticError} :
    (Event.use view (.var v)).Violates error ↔
      (Event.use view (.var v)).error? = some error := by
  cases hres : View.resolve? v.name view with
  | none =>
      have hunknown := View.resolve?_eq_none_iff.mp hres
      simp only [error?, hres, Option.some.injEq]
      constructor
      · intro h
        cases h with
        | unknownVar _ => rfl
        | procedureAsVar hmeans => exact absurd hunknown hmeans.not_unknown
      · rintro rfl
        exact .unknownVar hunknown
  | some r =>
      obtain ⟨d, level⟩ := r
      have hmeans := View.means_of_resolve? hres
      cases d with
      | type t => exact (hname.ne_type hmeans).elim
      | var d =>
          simp only [error?, hres, reduceCtorEq, iff_false]
          intro h
          cases h with
          | unknownVar hunknown => exact hmeans.not_unknown hunknown
          | procedureAsVar hmeans' => cases hmeans.unique hmeans'
      | procedure p =>
          simp only [error?, hres, Option.some.injEq]
          constructor
          · intro h
            cases h with
            | unknownVar hunknown => exact absurd hunknown hmeans.not_unknown
            | procedureAsVar _ => rfl
          · rintro rfl
            exact .procedureAsVar hmeans

theorem violates_call_iff {view : View} {c : Call} (hname : FreeName c.name)
    {error : SemanticError} :
    (Event.use view (.call c)).Violates error ↔
      (Event.use view (.call c)).error? = some error := by
  cases hres : View.resolve? c.name view with
  | none =>
      have hunknown := View.resolve?_eq_none_iff.mp hres
      simp only [error?, hres, Option.some.injEq]
      constructor
      · intro h
        cases h with
        | unknownCall _ => rfl
        | varAsProcedure hmeans | argumentCount hmeans _ =>
            exact absurd hunknown hmeans.not_unknown
      · rintro rfl
        exact .unknownCall hunknown
  | some r =>
      obtain ⟨d, level⟩ := r
      have hmeans := View.means_of_resolve? hres
      cases d with
      | type t => exact (hname.ne_type hmeans).elim
      | var d =>
          simp only [error?, hres, Option.some.injEq]
          constructor
          · intro h
            cases h with
            | unknownCall hunknown => exact absurd hunknown hmeans.not_unknown
            | varAsProcedure _ => rfl
            | argumentCount hmeans' _ => cases hmeans.unique hmeans'
          · rintro rfl
            exact .varAsProcedure hmeans
      | procedure p =>
          simp only [error?, hres, Option.ite_none_left_eq_some, Option.some.injEq]
          constructor
          · intro h
            cases h with
            | unknownCall hunknown => exact absurd hunknown hmeans.not_unknown
            | varAsProcedure hmeans' => cases hmeans.unique hmeans'
            | argumentCount hmeans' hlength =>
                cases hmeans.unique hmeans'
                exact ⟨hlength, rfl⟩
          · rintro ⟨hlength, rfl⟩
            exact .argumentCount hmeans hlength

/-- An event violates a rule exactly if the walk reports it. -/
theorem violates_iff {e : Event} (hfree : e.Free) {error : SemanticError} :
    e.Violates error ↔ e.error? = some error := by
  cases e with
  | declaration earlier d position => exact violates_declaration_iff
  | use view u =>
      cases u with
      | var v => exact violates_var_iff hfree
      | call c => exact violates_call_iff hfree

theorem not_violates_iff {e : Event} (hfree : e.Free) :
    (∀ error, ¬ e.Violates error) ↔ e.error? = none := by
  simp only [violates_iff hfree, Option.eq_none_iff_forall_ne_some, ne_eq]

end Event

theorem reports_iff {events : List Event} (hfree : ∀ e ∈ events, e.Free)
    {errors : List SemanticError} :
    Reports events errors ↔ events.filterMap Event.error? = errors := by
  induction events generalizing errors with
  | nil =>
      constructor
      · rintro ⟨⟩
        rfl
      · rintro rfl
        exact .nil
  | cons e events ih =>
      have he := hfree e List.mem_cons_self
      have hrest := @ih fun e' he' => hfree e' (List.mem_cons_of_mem e he')
      cases herror : e.error? with
      | none =>
          rw [List.filterMap_cons_none herror, ← hrest]
          constructor
          · intro h
            cases h with
            | wrong hviolates _ =>
                rw [(Event.violates_iff he).mp hviolates] at herror
                cases herror
            | right _ hreports => exact hreports
          · exact .right ((Event.not_violates_iff he).mpr herror)
      | some error =>
          rw [List.filterMap_cons_some herror]
          constructor
          · intro h
            cases h with
            | wrong hviolates hreports =>
                have heq := (Event.violates_iff he).mp hviolates
                rw [herror] at heq
                rw [hrest.mp hreports, Option.some.inj heq]
            | right hnone _ =>
                rw [(Event.not_violates_iff he).mp hnone] at herror
                cases herror
          · rintro rfl
            exact .wrong ((Event.violates_iff he).mpr herror) (hrest.mpr rfl)

/-! ### Events and scopes -/

/-- Where a declaration stands. Types are declared nowhere. -/
def Declaration.position? : Declaration → Option Position
  | .type _ => none
  | .var d => some d.position
  | .procedure p => some p.position

/-- What a scope declares, in order: its parameters, its variables and its procedures. -/
def Site.declarations (s : Site) : List Declaration := s.declared s.block.procedures.length

theorem Site.declarations_eq (s : Site) :
    s.declarations = s.opening ++ s.block.vars.map .var ++
      s.block.procedures.map .procedure := by
  rw [declarations, declared, List.take_length]

theorem Site.declarations_eq_append_drop (s : Site) (k : Nat) :
    s.declarations = s.declared k ++ (s.block.procedures.drop k).map .procedure := by
  rw [declarations_eq, declared, List.append_assoc (_ ++ _), ← List.map_append,
    List.take_append_drop]

/-- The events of a scope itself: its declarations, each with those before it, and the uses in
its body. -/
def Site.Has (s : Site) : Event → Prop
  | .declaration earlier d position =>
      (∃ later, s.declarations = earlier ++ d :: later) ∧ d.position? = some position
  | .use view u => view = s.declarations :: s.outer ∧ u ∈ Statement.usesAll s.block.body

theorem VarDecl.mem_events_iff {earlier : List Declaration} {decls : List VarDecl}
    {e : Event} :
    e ∈ VarDecl.events earlier decls ↔ ∃ before d later, decls = before ++ d :: later ∧
      e = .declaration (earlier ++ before.map .var) (.var d) d.position := by
  induction decls generalizing earlier with
  | nil => simp [VarDecl.events]
  | cons d decls ih =>
      rw [VarDecl.events, List.mem_cons, ih]
      constructor
      · rintro (rfl | ⟨before, d', later, rfl, rfl⟩)
        · exact ⟨[], d, decls, rfl, by simp⟩
        · exact ⟨d :: before, d', later, rfl, by simp⟩
      · rintro ⟨before, d', later, hdecls, rfl⟩
        cases before with
        | nil =>
            cases hdecls
            exact .inl (by simp)
        | cons d'' before =>
            cases hdecls
            exact .inr ⟨before, d', later, rfl, by simp⟩

mutual

/-- Every event belongs to a scope. -/
theorem Block.exists_site_of_mem_events {program : Program} {e : Event} :
    ∀ (b : Block) {path : List Nat} {opening : List Declaration} {outer : View},
      program.site? path = some ⟨b, opening, outer⟩ → e ∈ b.events opening outer →
      ∃ path s, program.site? path = some s ∧ s.Has e
  | .mk vars procedures body, path, opening, outer, h, he => by
      have hdeclarations := Site.declarations_eq ⟨.mk vars procedures body, opening, outer⟩
      rcases List.mem_append.mp he with he | he
      · obtain ⟨before, d, later, rfl, rfl⟩ := VarDecl.mem_events_iff.mp he
        refine ⟨path, _, h, ⟨later.map .var ++ procedures.map .procedure, ?_⟩, rfl⟩
        simp [hdeclarations, Block.vars, Block.procedures]
      · rcases List.mem_append.mp he with he | he
        · refine Procedure.exists_site_of_mem_eventsAll procedures 0 h rfl ?_
          simpa [Site.declared, Block.vars] using he
        · obtain ⟨u, hu, rfl⟩ := List.mem_map.mp he
          refine ⟨path, _, h, ?_, (Statement.visitedAll_perm body).mem_iff.mp hu⟩
          rw [hdeclarations]
          rfl

theorem Procedure.exists_site_of_mem_eventsAll {program : Program} {e : Event} :
    ∀ (procedures : List Procedure) (k : Nat) {path : List Nat} {s : Site},
      program.site? path = some s → s.block.procedures.drop k = procedures →
      e ∈ Procedure.eventsAll (s.declared k) s.outer procedures →
      ∃ path s, program.site? path = some s ∧ s.Has e
  | [], _, _, _, _, _, he => by cases he
  | .mk name position params block :: procedures, k, path, s, h, hdrop, he => by
      have hp : s.block.procedures[k]? = some (.mk name position params block) := by
        rw [← List.head?_drop, hdrop, List.head?_cons]
      have hsucc := Site.declared_succ hp
      have hinside := Program.site?_cons h hp
      rcases List.mem_append.mp he with he | he
      · rcases List.mem_cons.mp he with rfl | he
        · refine ⟨path, s, h, ⟨procedures.map .procedure, ?_⟩, rfl⟩
          rw [← List.map_cons, ← hdrop, Site.declarations_eq_append_drop]
        · rcases List.mem_append.mp he with he | he
          · obtain ⟨before, d, later, hparams, rfl⟩ := VarDecl.mem_events_iff.mp he
            refine ⟨k :: path, _, hinside, ⟨later.map .var ++ block.vars.map .var ++
              block.procedures.map .procedure, ?_⟩, rfl⟩
            simp [Site.declarations_eq, Site.inside, Procedure.params,
              Procedure.block, hparams]
          · rw [← hsucc] at he
            exact Block.exists_site_of_mem_events block hinside he
      · rw [← hsucc] at he
        have hdrop' : s.block.procedures.drop (k + 1) = procedures := by
          rw [← List.tail_drop, hdrop, List.tail_cons]
        exact Procedure.exists_site_of_mem_eventsAll procedures (k + 1) h hdrop' he

end

/-- An element of two lists, one after the other, is in the first or in the second. -/
theorem exists_of_append_eq_append_cons {α : Type} {xs ys before later : List α} {a : α}
    (h : xs ++ ys = before ++ a :: later) :
    (∃ rest, xs = before ++ a :: rest) ∨ ∃ rest, before = xs ++ rest ∧
    ys = rest ++ a :: later := by
  rcases List.append_eq_append_iff.mp h with ⟨rest, hbefore, hys⟩ | ⟨rest, hxs, hlater⟩
  · exact .inr ⟨rest, hbefore, hys⟩
  · cases rest with
    | nil =>
        refine .inr ⟨[], ?_, hlater.symm⟩
        rw [hxs, List.append_nil, List.append_nil]
    | cons b rest =>
        cases hlater
        exact .inl ⟨rest, hxs⟩

theorem exists_of_map_eq_append_cons {α β : Type} {f : α → β} {xs : List α}
    {before later : List β} {b : β} (h : xs.map f = before ++ b :: later) :
    ∃ first a rest, xs = first ++ a :: rest ∧ before = first.map f ∧ b = f a := by
  obtain ⟨first, others, rfl, rfl, hothers⟩ := List.map_eq_append_iff.mp h
  obtain ⟨a, rest, rfl, rfl, -⟩ := List.map_eq_cons_iff.mp hothers
  exact ⟨first, a, rest, rfl, rfl, rfl⟩

/-- The declarations of a scope are events. -/
theorem Program.declaration_mem_events {program : Program} {path : List Nat} {s : Site}
    {earlier : List Declaration} {d : Declaration} {position : Position}
    (h : program.site? path = some s) (hd : s.Has (.declaration earlier d position)) :
    .declaration earlier d position ∈ program.events := by
  obtain ⟨⟨later, hlater⟩, hposition⟩ := hd
  rw [Site.declarations_eq] at hlater
  rcases exists_of_append_eq_append_cons hlater with ⟨rest, hrest⟩ | ⟨rest, rfl, hrest⟩
  · rcases exists_of_append_eq_append_cons hrest with ⟨rest', hopening⟩ | ⟨rest', rfl, hvars⟩
    · cases path with
      | nil =>
          cases h
          have hnone : ∀ d ∈ program.root.opening, d.position? = none := by
            simp [Program.root, Declaration.predeclared, Declaration.position?]
          rw [hopening] at hnone
          rw [hnone d (by simp)] at hposition
          cases hposition
      | cons k path =>
          obtain ⟨s₀, p, hs₀, hp, rfl⟩ := Program.site?_cons_eq_some h
          obtain ⟨first, v, others, hparams, rfl, rfl⟩ := exists_of_map_eq_append_cons hopening
          cases hposition
          apply Program.site_events_subset hs₀
          apply Site.procedure_events_subset hp
          obtain ⟨name, position, params, block⟩ := p
          refine List.mem_cons_of_mem _ (List.mem_append_left _ ?_)
          exact VarDecl.mem_events_iff.mpr ⟨first, v, others, hparams, rfl⟩
    · obtain ⟨first, v, others, hfirst, rfl, rfl⟩ := exists_of_map_eq_append_cons hvars
      cases hposition
      apply Program.site_events_subset h
      obtain ⟨⟨vars, procedures, body⟩, opening, outer⟩ := s
      refine List.mem_append_left _
        (VarDecl.mem_events_iff.mpr ⟨first, v, others, hfirst, rfl⟩)
  · obtain ⟨first, p, others, hfirst, rfl, rfl⟩ := exists_of_map_eq_append_cons hrest
    cases hposition
    have hp : s.block.procedures[first.length]? = some p := by simp [hfirst]
    have hearlier : s.declared first.length =
        s.opening ++ s.block.vars.map .var ++ first.map .procedure := by
      rw [Site.declared, hfirst, List.take_left]
    apply Program.site_events_subset h
    apply Site.procedure_events_subset hp
    rw [hearlier]
    obtain ⟨name, position, params, block⟩ := p
    exact List.mem_cons_self

/-- The events of a program are those of its scopes. -/
theorem Program.mem_events_iff {program : Program} {e : Event} :
    e ∈ program.events ↔ ∃ path s, program.site? path = some s ∧ s.Has e := by
  constructor
  · intro he
    have hroot : program.site? [] = some program.root := rfl
    exact Block.exists_site_of_mem_events program.block hroot he
  · rintro ⟨path, s, hs, he⟩
    cases e with
    | declaration earlier d position => exact Program.declaration_mem_events hs he
    | use view u =>
        obtain ⟨rfl, hu⟩ := he
        exact Program.use_mem_events hs hu

/-! ### Every declaration is an event -/

def Event.declared? : Event → Option Declaration
  | .declaration _ d _ => some d
  | .use _ _ => none

theorem VarDecl.filterMap_declared?_events (earlier : List Declaration)
    (decls : List VarDecl) :
    ((VarDecl.events earlier decls).filterMap Event.declared?).map Declaration.name =
      decls.map VarDecl.name := by
  induction decls generalizing earlier with
  | nil => rfl
  | cons d decls ih => exact congrArg (d.name :: ·) (ih _)

mutual

/-- The walk comes to every declaration once, in the order of the text. -/
theorem Block.filterMap_declared?_events :
    ∀ (b : Block) (opening : List Declaration) (outer : View),
      ((b.events opening outer).filterMap Event.declared?).map Declaration.name = b.names
  | .mk vars procedures body, opening, outer => by
      have hbody : ((Statement.visitedAll body).map (Event.use
          ((opening ++ vars.map .var ++ procedures.map .procedure) :: outer))).filterMap
            Event.declared? = [] := by
        simp [List.filterMap_map, Event.declared?]
      rw [Block.events, List.filterMap_append, List.filterMap_append, hbody, List.append_nil,
        List.map_append, VarDecl.filterMap_declared?_events,
        Procedure.filterMap_declared?_eventsAll procedures, Block.names]

theorem Procedure.filterMap_declared?_eventsAll :
    ∀ (procedures : List Procedure) (earlier : List Declaration) (outer : View),
      ((Procedure.eventsAll earlier outer procedures).filterMap Event.declared?).map
        Declaration.name = Procedure.namesAll procedures
  | [], _, _ => rfl
  | .mk name position params block :: procedures, earlier, outer => by
      rw [Procedure.eventsAll, Procedure.events, List.filterMap_append, List.map_append,
        Procedure.filterMap_declared?_eventsAll procedures,
        List.filterMap_cons_some (f := Event.declared?) rfl,
        List.filterMap_append, List.map_cons, List.map_append,
        VarDecl.filterMap_declared?_events,
        Block.filterMap_declared?_events block]
      rfl

end

/-! ### The analysis -/

section Analysis

variable {settings : Settings} {text : String} {j : Journal} {program : Program}

theorem Program.free_of_parse (h : (parse settings text j).1 = .ok program) :
    ∀ e ∈ program.events, e.Free := by
  intro e he
  cases e with
  | declaration _ _ _ => exact trivial
  | use view u => exact freeName_of_use h (Program.mem_uses_iff.mpr ⟨view, he⟩)

/-- An analysis ends in the errors of the walk, if there are any. -/
theorem analyze_cases (h : ∀ name ∈ program.block.names, FreeName name) (j' : Journal) :
    (program.events.filterMap Event.error? = [] ∧ ∃ a, (analyze program j').1 = .ok a) ∨
      (program.events.filterMap Event.error? ≠ [] ∧
        (analyze program j').1 =
          .error (.semantic (program.events.filterMap Event.error?))) := by
  rw [← Walk.visitProgram_errors j' h]
  simp only [analyze, analyzeProgram]
  by_cases hempty : ((Walk.start j').visitProgram program).errors.isEmpty = true
  · refine .inl ⟨by simpa using hempty, ?_⟩
    rw [if_pos hempty]
    exact ⟨_, rfl⟩
  · refine .inr ⟨by simpa using hempty, ?_⟩
    rw [if_neg hempty]

theorem analyze_eq_error_iff (h : (parse settings text j).1 = .ok program) (j' : Journal)
    (errors : List SemanticError) :
    (analyze program j').1 = .error (.semantic errors) ↔
      errors ≠ [] ∧ program.events.filterMap Event.error? = errors := by
  rcases analyze_cases (freeName_of_parse h) j' with ⟨hnil, a, ha⟩ | ⟨hne, herror⟩
  · rw [ha, hnil]
    simp only [reduceCtorEq, false_iff]
    rintro ⟨hne, rfl⟩
    exact hne rfl
  · simp only [herror, Except.error.injEq, Error.semantic.injEq]
    constructor
    · rintro rfl
      exact ⟨hne, rfl⟩
    · exact fun h => h.2

theorem exists_analyze_eq_ok_iff (h : (parse settings text j).1 = .ok program) (j' : Journal) :
    (∃ a, (analyze program j').1 = .ok a) ↔ program.events.filterMap Event.error? = [] := by
  rcases analyze_cases (freeName_of_parse h) j' with ⟨hnil, hok⟩ | ⟨hne, herror⟩
  · exact ⟨fun _ => hnil, fun _ => hok⟩
  · simp [herror, hne]

end Analysis

/-- **Semantic errors are complete and exact.** Take a program that is read from a text. The
analysis fails with exactly the errors of its declarations and uses that are wrong, one for
each, in the order of the walk; and it succeeds exactly if none is wrong. What is looked at
are, scope by scope, all declarations, each with those that come before it in its scope, and
all uses in the body, each with what is in sight there; a procedure whose name is taken has a
scope like any other. Every name that is declared and every use is looked at once. -/
theorem semantic_errors_are_exact (settings : Settings) (text : String) (j j' : Journal)
    (program : Program) (hparse : (parse settings text j).1 = .ok program) :
    (∀ errors, (analyze program j').1 = .error (.semantic errors) ↔
      errors ≠ [] ∧ Reports program.events errors) ∧
    ((∃ a, (analyze program j').1 = .ok a) ↔
      ∀ e ∈ program.events, ∀ error, ¬ e.Violates error) ∧
    (∀ e, e ∈ program.events ↔ ∃ path s, program.site? path = some s ∧ s.Has e) ∧
    (program.events.filterMap Event.declared?).map Declaration.name = program.block.names ∧
    (program.events.filterMap Event.use?).Perm program.block.uses := by
  have hfree := Program.free_of_parse hparse
  refine ⟨?_, ?_, fun e => Program.mem_events_iff, ?_, ?_⟩
  · intro errors
    rw [analyze_eq_error_iff hparse, reports_iff hfree]
  · rw [exists_analyze_eq_ok_iff hparse, List.filterMap_eq_nil_iff]
    refine forall₂_congr fun e he => ?_
    exact (Event.not_violates_iff (hfree e he)).symm
  · exact Block.filterMap_declared?_events program.block _ _
  · exact Block.filterMap_use?_events program.block _ _

/-- Two declarations of `X`, two of `A` and two procedures `Q`, whose bodies are checked both;
and calls and variables that are no such things. -/
def faultyText : String :=
  "PROGRAM P; VAR X, X : INTEGER; PROCEDURE Q(A : REAL; A : REAL); BEGIN A := Y END; " ++
    "PROCEDURE Q; BEGIN Q := X END; BEGIN X(1); Q(); Z := Q END."

/-- A text that is read and has errors that pass a test. -/
theorem exists_errors_any (settings : Settings) (text : String) (j j' : Journal)
    (test : List SemanticError → Bool)
    (h : ((parse settings text j).1.toOption.any fun p =>
      match (analyze p j').1 with
      | .error (.semantic errors) => test errors
      | _ => false) = true) :
    ∃ program errors, (parse settings text j).1 = .ok program ∧
      (analyze program j').1 = .error (.semantic errors) ∧ test errors = true := by
  cases hparse : (parse settings text j).1 with
  | error e => simp [hparse, Except.toOption] at h
  | ok program =>
      simp only [hparse, Except.toOption, Option.any_some] at h
      split at h
      next errors hanalyze => exact ⟨program, errors, rfl, hanalyze, h⟩
      next => cases h

theorem faultyText_reported :
    ∃ program errors, (parse {} faultyText { traces := [], dumps := [] }).1 = .ok program ∧
      (analyze program { traces := [], dumps := [] }).1 = .error (.semantic errors) ∧
      errors.map (fun e => (e.code, e.name)) =
        [(.duplicateId, "X"), (.duplicateId, "A"), (.idNotFound, "Y"), (.duplicateId, "Q"),
          (.wrongSymbolKind, "Q"), (.wrongSymbolKind, "X"), (.wrongParamsNum, "Q"),
          (.wrongSymbolKind, "Q"), (.idNotFound, "Z")] ∧
      Reports program.events errors := by
  obtain ⟨program, errors, hparse, hanalyze, htest⟩ :=
    exists_errors_any {} faultyText { traces := [], dumps := [] } { traces := [], dumps := [] }
      (fun errors => errors.map (fun e => (e.code, e.name)) =
        [(.duplicateId, "X"), (.duplicateId, "A"), (.idNotFound, "Y"), (.duplicateId, "Q"),
          (.wrongSymbolKind, "Q"), (.wrongSymbolKind, "X"), (.wrongParamsNum, "Q"),
          (.wrongSymbolKind, "Q"), (.idNotFound, "Z")]) (by decide +kernel)
  have hexact :=
    semantic_errors_are_exact {} faultyText _ { traces := [], dumps := [] } program hparse
  exact ⟨program, errors, hparse, hanalyze, of_decide_eq_true htest,
    ((hexact.1 errors).mp hanalyze).2⟩

end MiniPascal
