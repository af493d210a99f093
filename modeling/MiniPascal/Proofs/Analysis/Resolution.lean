import MiniPascal.Proofs.Analysis.Walk
import MiniPascal.Proofs.Grammar.Acceptance
import MiniPascal.Proofs.Grammar.DerivedTree
import MiniPascal.Proofs.Token.Identifier
import MiniPascal.Run

/-!
The tables of the analysis hold exactly what lexical scoping says. A program that is read from
a text has its uses numbered without repetition and declares no name of a type; so the walk
passes its events, and when it reports none of them, every use has an entry of its own, which
is what the view of its place resolves its name to.
-/

namespace MiniPascal

/-! ### Programs that are read from a text -/

theorem exists_tokens_of_parse {settings : Settings} {text : String} {j : Journal}
    {program : Program} (h : (parse settings text j).1 = .ok program) :
    ∃ tokens d, (readTokens text (j.dump .text fun _ => text)).1 = .ok tokens ∧
      Grammar.IsProgram d (body tokens) program := by
  unfold parse tokenize at h
  cases htokens : readTokens text (j.dump .text fun _ => text) with
  | mk result j₁ =>
      cases result with
      | error e => simp [htokens] at h
      | ok tokens =>
          cases hprogram : parseProgram tokens settings j₁ with
          | mk result j₂ =>
              cases result with
              | error e => simp [htokens, hprogram] at h
              | ok program' =>
                  simp only [htokens, hprogram, Except.ok.injEq] at h
                  obtain ⟨d, -, hderived⟩ :=
                    (parseProgram_eq_ok_iff tokens settings j₁ program').mp
                      (congrArg Prod.fst hprogram)
                  exact ⟨tokens, d, rfl, h ▸ hderived⟩

theorem nodup_of_parse {settings : Settings} {text : String} {j : Journal} {program : Program}
    (h : (parse settings text j).1 = .ok program) : (program.block.uses.map Use.id).Nodup := by
  obtain ⟨tokens, d, -, hderived⟩ := exists_tokens_of_parse h
  obtain ⟨n, -, hids⟩ := hderived.numbered
  rw [hids]
  exact List.nodup_range'

theorem freeName_of_ofWord? {name : String} (h : Token.Kind.ofWord? name = none) :
    FreeName name := by
  rintro t rfl
  cases t <;> cases h

/-- Names that are words of identifiers are not names of types. -/
theorem freeName_of_named {settings : Settings} {text : String} {j : Journal}
    {program : Program} {names : List String} (h : (parse settings text j).1 = .ok program)
    (hnamed : ∀ {d ts}, Grammar.IsProgram d ts program → Grammar.Named ts names) :
    ∀ name ∈ names, FreeName name := by
  obtain ⟨tokens, d, htokens, hderived⟩ := exists_tokens_of_parse h
  intro name hname
  obtain ⟨t, ht, hkind, rfl⟩ := hnamed hderived name hname
  have hmem : t ∈ tokens := (List.takeWhile_sublist _).subset ht
  obtain ⟨spelling, hspelling, hword⟩ := readTokens_unreserved htokens hmem hkind
  rw [Token.word, hspelling, Option.getD_some]
  exact freeName_of_ofWord? hword

theorem freeName_of_parse {settings : Settings} {text : String} {j : Journal}
    {program : Program} (h : (parse settings text j).1 = .ok program) :
    ∀ name ∈ program.block.names, FreeName name :=
  freeName_of_named h Grammar.IsProgram.named

theorem freeName_of_use {settings : Settings} {text : String} {j : Journal} {program : Program}
    (h : (parse settings text j).1 = .ok program) {u : Use} (hu : u ∈ program.block.uses) :
    FreeName u.name :=
  freeName_of_named h Grammar.IsProgram.uses_named u.name (List.mem_map_of_mem hu)

/-- What the analysis needs of a program: no use has the number of another one, and no name of
a type is declared. -/
structure Program.Regular (program : Program) : Prop where
  ids : (program.block.uses.map Use.id).Nodup
  names : ∀ name ∈ program.block.names, FreeName name

theorem Program.regular_of_parse {settings : Settings} {text : String} {j : Journal}
    {program : Program} (h : (parse settings text j).1 = .ok program) : program.Regular :=
  ⟨nodup_of_parse h, freeName_of_parse h⟩

/-! ### The tables -/

theorem Walk.start_shows (j : Journal) :
    (Walk.start j).scopes.Shows (Walk.start j).current [Declaration.predeclared] := by
  refine .global (s := Walk.globalScope) rfl rfl rfl ?_
  exact ((Scope.Lists.nil.push (d := .type .integer) rfl).push (d := .type .real) rfl).push
    (d := .type .string) rfl

theorem View.typed_predeclared : View.Typed [Declaration.predeclared] := by
  intro t
  cases t <;> rfl

/-- The walk reports what is wrong with the events of the program. -/
theorem Walk.visitProgram_errors {program : Program} (j : Journal)
    (hnames : ∀ name ∈ program.block.names, FreeName name) :
    ((Walk.start j).visitProgram program).errors.toList =
      program.events.filterMap Event.error? :=
  (Walk.visitBlock_leads program.block
    (w := (Walk.start j).trace .analyzer fun _ =>
      s!"ENTER scope: global (program {program.name})")
    (Walk.start_shows j) View.typed_predeclared hnames).errors

/-- What an analysis without errors has filed. -/
theorem analyzeProgram_eq_ok {program : Program} {j : Journal} {a : Analysis}
    (hnames : ∀ name ∈ program.block.names, FreeName name)
    (h : (analyzeProgram program j).1 = .ok a) :
    program.events.filterMap Event.error? = [] ∧
      a.vars = Std.TreeMap.insertMany {} (program.events.filterMap Event.binding?) ∧
      a.calls = Std.TreeMap.insertMany {} (program.events.filterMap Event.callee?) := by
  have hwalk := Walk.visitBlock_leads program.block
    (w := (Walk.start j).trace .analyzer fun _ =>
      s!"ENTER scope: global (program {program.name})")
    (Walk.start_shows j) View.typed_predeclared hnames
  have herrors := Walk.visitProgram_errors j hnames
  simp only [analyzeProgram] at h
  split at h
  next hempty =>
    cases h
    rw [Array.isEmpty_iff] at hempty
    rw [← herrors, hempty]
    exact ⟨rfl, hwalk.vars, hwalk.calls⟩
  next => cases h

section Tables

variable {program : Program} {events : List Event} {β : Type} {f : Event → Option (NodeId × β)}

/-- An event is filed under the number of its use. -/
def Files (f : Event → Option (NodeId × β)) : Prop :=
  ∀ e id b, f e = some (id, b) → ∃ u, e.use? = some u ∧ u.id = id

theorem Event.exists_var_of_binding? {e : Event} {id : NodeId} {b : VarBinding}
    (h : e.binding? = some (id, b)) : ∃ v view, e = .use view (.var v) ∧ v.id = id := by
  cases e with
  | declaration _ _ _ => cases h
  | use view u =>
      cases u with
      | call c => cases h
      | var v =>
          obtain ⟨b', -, heq⟩ := Option.map_eq_some_iff.mp h
          exact ⟨v, view, rfl, congrArg Prod.fst heq⟩

theorem Event.exists_call_of_callee? {e : Event} {id : NodeId} {p : ProcedureSymbol}
    (h : e.callee? = some (id, p)) : ∃ c view, e = .use view (.call c) ∧ c.id = id := by
  cases e with
  | declaration _ _ _ => cases h
  | use view u =>
      cases u with
      | var v => cases h
      | call c =>
          obtain ⟨p', -, heq⟩ := Option.map_eq_some_iff.mp h
          exact ⟨c, view, rfl, congrArg Prod.fst heq⟩

theorem files_binding? : Files Event.binding? := by
  intro e id b h
  obtain ⟨v, view, rfl, hid⟩ := Event.exists_var_of_binding? h
  exact ⟨.var v, rfl, hid⟩

theorem files_callee? : Files Event.callee? := by
  intro e id p h
  obtain ⟨c, view, rfl, hid⟩ := Event.exists_call_of_callee? h
  exact ⟨.call c, rfl, hid⟩

theorem Files.sublist (hf : Files f) (events : List Event) :
    ((events.filterMap f).map Prod.fst).Sublist
      ((events.filterMap Event.use?).map Use.id) := by
  induction events with
  | nil => exact .slnil
  | cons e events ih =>
      cases he : f e with
      | none =>
          rw [List.filterMap_cons_none he]
          cases hu : e.use? with
          | none => rwa [List.filterMap_cons_none hu]
          | some u =>
              rw [List.filterMap_cons_some hu]
              exact ih.cons _
      | some r =>
          obtain ⟨id, b⟩ := r
          obtain ⟨u, hu, rfl⟩ := hf e id b he
          rw [List.filterMap_cons_some he, List.filterMap_cons_some hu]
          exact ih.cons_cons _

/-- Where no number is used twice, an event is found under its number. -/
theorem Files.getElem? (hf : Files f) (hids : ((events.filterMap Event.use?).map Use.id).Nodup)
    {e : Event} (he : e ∈ events) {id : NodeId} {b : β} (hb : f e = some (id, b)) :
    (Std.TreeMap.insertMany {} (events.filterMap f) : Std.TreeMap NodeId β)[id]? = some b := by
  have hkeys := (hf.sublist events).nodup hids
  refine Std.TreeMap.getElem?_insertMany_list_of_mem Std.ReflCmp.compare_self ?_
    (List.mem_filterMap.mpr ⟨e, he, hb⟩)
  rw [List.nodup_iff_pairwise_ne, List.pairwise_map] at hkeys
  exact hkeys.imp fun hne heq => hne (Std.LawfulEqCmp.eq_of_compare heq)

/-- What is found belongs to an event. -/
theorem Files.exists_of_mem {id : NodeId}
    (h : id ∈ (Std.TreeMap.insertMany {} (events.filterMap f) : Std.TreeMap NodeId β)) :
    ∃ e ∈ events, ∃ b, f e = some (id, b) := by
  rcases Std.TreeMap.mem_insertMany_list.mp h with h | h
  · simp at h
  · obtain ⟨⟨id', b⟩, hmem, rfl⟩ := List.mem_map.mp (List.contains_iff_mem.mp h)
    obtain ⟨e, he, hb⟩ := List.mem_filterMap.mp hmem
    exact ⟨e, he, b, hb⟩

end Tables

/-! ### Resolution -/

/-- The analysis has resolved all names of the program: each use means what its name means in
the view of its place, calls have the right number of arguments, and no scope declares a name
twice. -/
structure Analysis.Resolves (a : Analysis) (program : Program) : Prop where
  var {path : List Nat} {s : Site} {v : Variable} (hs : program.site? path = some s)
    (hv : .var v ∈ Statement.usesAll s.block.body) :
    ∃ declaring d, declaring <:+ path ∧ program.Declares declaring (.var d) ∧
      View.resolve? v.name s.view = some (.var d, declaring.length + 1) ∧
      a.binding? v.id = some ⟨declaring.length + 1, d.type⟩
  call {path : List Nat} {s : Site} {c : Call} (hs : program.site? path = some s)
    (hc : .call c ∈ Statement.usesAll s.block.body) :
    ∃ declaring p, declaring <:+ path ∧ program.Declares declaring (.procedure p) ∧
      View.resolve? c.name s.view = some (.procedure p, declaring.length + 1) ∧
      a.procedure? c.id = some (p.symbol (declaring.length + 1)) ∧
      p.params.length = c.args.length
  distinct {path : List Nat} {s : Site} (hs : program.site? path = some s) :
    Distinct (s.declared s.block.procedures.length)

theorem Event.var_of_error? {view : View} {v : Variable}
    (h : (Event.use view (.var v)).error? = none) :
    ∃ d level, View.resolve? v.name view = some (.var d, level) := by
  simp only [Event.error?] at h
  split at h
  next d level hname => exact ⟨d, level, hname⟩
  next => cases h
  next => cases h

theorem Event.call_of_error? {view : View} {c : Call}
    (h : (Event.use view (.call c)).error? = none) :
    ∃ p level, View.resolve? c.name view = some (.procedure p, level) ∧
      p.params.length = c.args.length := by
  simp only [Event.error?] at h
  split at h
  next p level hname =>
    split at h
    next hlength => exact ⟨p, level, hname, hlength⟩
    next => cases h
  next => cases h
  next => cases h

theorem analyzeProgram_of_analyze {program : Program} {a : Analysis} {j : Journal}
    (h : (analyze program j).1 = .ok a) : (analyzeProgram program j).1 = .ok a := by
  unfold analyze at h
  split at h
  next => cases h
  next hresult =>
    cases h
    rw [hresult]

/-- An analysis without errors. -/
theorem Program.Regular.analyzed {program : Program} {a : Analysis} {j : Journal}
    (h : program.Regular) (hanalyze : (analyze program j).1 = .ok a) :
    ((program.events.filterMap Event.use?).map Use.id).Nodup ∧
      (∀ e ∈ program.events, e.error? = none) ∧
      a.vars = Std.TreeMap.insertMany {} (program.events.filterMap Event.binding?) ∧
      a.calls = Std.TreeMap.insertMany {} (program.events.filterMap Event.callee?) := by
  obtain ⟨herrors, hvars, hcalls⟩ :=
    analyzeProgram_eq_ok h.names (analyzeProgram_of_analyze hanalyze)
  refine ⟨?_, List.filterMap_eq_nil_iff.mp herrors, hvars, hcalls⟩
  -- The walk comes to the target of an assignment after the value, and its number is before.
  have hperm := Block.filterMap_use?_events program.block Declaration.predeclared []
  exact (hperm.map Use.id).nodup_iff.mpr h.ids

theorem Program.Regular.resolves {program : Program} {a : Analysis} {j : Journal}
    (h : program.Regular) (hanalyze : (analyze program j).1 = .ok a) : a.Resolves program := by
  obtain ⟨hids, herrors, hvars, hcalls⟩ := h.analyzed hanalyze
  constructor
  case var =>
    intro path s v hs hv
    have hmem := Program.use_mem_events hs hv
    obtain ⟨d, level, hname⟩ := Event.var_of_error? (herrors _ hmem)
    obtain ⟨declaring, hsuffix, rfl, hd⟩ := Program.declares_of_resolve? hs hname
    refine ⟨declaring, d, hsuffix, hd, hname, ?_⟩
    rw [Analysis.binding?, hvars]
    exact files_binding?.getElem? hids hmem (by simp [Event.binding?, View.binding?, hname])
  case call =>
    intro path s c hs hc
    have hmem := Program.use_mem_events hs hc
    obtain ⟨p, level, hname, hlength⟩ := Event.call_of_error? (herrors _ hmem)
    obtain ⟨declaring, hsuffix, rfl, hp⟩ := Program.declares_of_resolve? hs hname
    refine ⟨declaring, p, hsuffix, hp, hname, ?_, hlength⟩
    rw [Analysis.procedure?, hcalls]
    exact files_callee?.getElem? hids hmem (by simp [Event.callee?, View.callee?, hname])
  case distinct =>
    intro path s hs
    exact Program.distinct_declared herrors hs

/-- The same for a program that was read from a text. -/
theorem analyzed {settings : Settings} {text : String} {j j' : Journal} {program : Program}
    {a : Analysis} (hparse : (parse settings text j).1 = .ok program)
    (hanalyze : (analyze program j').1 = .ok a) :
    ((program.events.filterMap Event.use?).map Use.id).Nodup ∧
      (∀ e ∈ program.events, e.error? = none) ∧
      a.vars = Std.TreeMap.insertMany {} (program.events.filterMap Event.binding?) ∧
      a.calls = Std.TreeMap.insertMany {} (program.events.filterMap Event.callee?) :=
  (Program.regular_of_parse hparse).analyzed hanalyze

theorem Analysis.resolves {settings : Settings} {text : String} {j j' : Journal}
    {program : Program} {a : Analysis} (hparse : (parse settings text j).1 = .ok program)
    (hanalyze : (analyze program j').1 = .ok a) : a.Resolves program :=
  (Program.regular_of_parse hparse).resolves hanalyze

theorem Program.mem_uses_iff {program : Program} {u : Use} :
    u ∈ program.block.uses ↔ ∃ view, .use view u ∈ program.events := by
  have hperm := Block.filterMap_use?_events program.block Declaration.predeclared []
  rw [← hperm.mem_iff, List.mem_filterMap]
  constructor
  · rintro ⟨e, he, hu⟩
    cases e with
    | declaration _ _ _ => cases hu
    | use view u' =>
        cases hu
        exact ⟨view, he⟩
  · rintro ⟨view, he⟩
    exact ⟨_, he, rfl⟩

/-- A table that holds an entry for every event of its kind has the numbers of these events. -/
theorem Files.isSome_iff {β : Type} {f : Event → Option (NodeId × β)} {events : List Event}
    (hf : Files f) (hids : ((events.filterMap Event.use?).map Use.id).Nodup) (id : NodeId) :
    ((Std.TreeMap.insertMany {} (events.filterMap f) : Std.TreeMap NodeId β)[id]?).isSome ↔
      ∃ e ∈ events, ∃ b, f e = some (id, b) := by
  constructor
  · intro h
    exact Files.exists_of_mem (Std.TreeMap.mem_iff_isSome_getElem?.mpr h)
  · rintro ⟨e, he, b, hb⟩
    rw [hf.getElem? hids he hb]
    rfl

/-- A procedure that is found under some number is one of the program. -/
theorem Program.Regular.exists_of_procedure? {program : Program} {a : Analysis} {j : Journal}
    (h : program.Regular) (hanalyze : (analyze program j).1 = .ok a) {id : NodeId}
    {p : ProcedureSymbol} (hp : a.procedure? id = some p) :
    ∃ declaring q, program.Declares declaring (.procedure q) ∧
      p = q.symbol (declaring.length + 1) := by
  obtain ⟨-, -, -, hcalls⟩ := h.analyzed hanalyze
  have hmem : id ∈ a.calls :=
    Std.TreeMap.mem_iff_isSome_getElem?.mpr (Option.isSome_of_eq_some hp)
  rw [hcalls] at hmem
  obtain ⟨e, he, p', hp'⟩ := Files.exists_of_mem hmem
  obtain ⟨c, view, rfl, rfl⟩ := Event.exists_call_of_callee? hp'
  obtain ⟨path, s, hs, hc⟩ :=
    Program.exists_site_of_mem_uses (Program.mem_uses_iff.mpr ⟨view, he⟩)
  obtain ⟨declaring, q, -, hq, -, hentry, -⟩ := (h.resolves hanalyze).call hs hc
  exact ⟨declaring, q, hq, Option.some.inj (hp.symm.trans hentry)⟩

/-- **The tables are lexical resolution.** For a program that is read from a text and analyzed
without errors, the variables that have an entry are those of the program, and so are the
calls; every one of them stands in the body of some scope. The name of a variable there
resolves, in the view of the body, to a variable that is declared in a scope on the way
outwards; the entry is the level of that scope and the type of that declaration. The name of a
call resolves to a procedure in the same way, and the entry is the symbol of the procedure with
its parameters, its block and the level of the declaring scope. -/
theorem tables_are_lexical_resolution (settings : Settings) (text : String) (j j' : Journal)
    (program : Program) (a : Analysis) (hparse : (parse settings text j).1 = .ok program)
    (hanalyze : (analyze program j').1 = .ok a) :
    (∀ id, (a.binding? id).isSome ↔ ∃ v, .var v ∈ program.block.uses ∧ v.id = id) ∧
    (∀ id, (a.procedure? id).isSome ↔ ∃ c, .call c ∈ program.block.uses ∧ c.id = id) ∧
    (∀ u ∈ program.block.uses,
      ∃ path s, program.site? path = some s ∧ u ∈ Statement.usesAll s.block.body) ∧
    ∀ path s, program.site? path = some s →
      (∀ v, .var v ∈ Statement.usesAll s.block.body →
        ∃ declaring d, declaring <:+ path ∧ program.Declares declaring (.var d) ∧
          View.resolve? v.name s.view = some (.var d, declaring.length + 1) ∧
          a.binding? v.id = some ⟨declaring.length + 1, d.type⟩) ∧
      ∀ c, .call c ∈ Statement.usesAll s.block.body →
        ∃ declaring p, declaring <:+ path ∧ program.Declares declaring (.procedure p) ∧
          View.resolve? c.name s.view = some (.procedure p, declaring.length + 1) ∧
          a.procedure? c.id =
            some ⟨p.name, p.params.map VarDecl.symbol, p.block, declaring.length + 1⟩ := by
  have hresolves := Analysis.resolves hparse hanalyze
  obtain ⟨hids, herrors, hvars, hcalls⟩ := analyzed hparse hanalyze
  refine ⟨?_, ?_, fun u hu => Program.exists_site_of_mem_uses hu, ?_⟩
  · intro id
    rw [Analysis.binding?, hvars, files_binding?.isSome_iff hids]
    constructor
    · rintro ⟨e, he, b, hb⟩
      obtain ⟨v, view, rfl, rfl⟩ := Event.exists_var_of_binding? hb
      exact ⟨v, Program.mem_uses_iff.mpr ⟨view, he⟩, rfl⟩
    · rintro ⟨v, hv, rfl⟩
      obtain ⟨view, he⟩ := Program.mem_uses_iff.mp hv
      obtain ⟨d, level, hname⟩ := Event.var_of_error? (herrors _ he)
      exact ⟨_, he, ⟨level, d.type⟩, by simp [Event.binding?, View.binding?, hname]⟩
  · intro id
    rw [Analysis.procedure?, hcalls, files_callee?.isSome_iff hids]
    constructor
    · rintro ⟨e, he, p, hp⟩
      obtain ⟨c, view, rfl, rfl⟩ := Event.exists_call_of_callee? hp
      exact ⟨c, Program.mem_uses_iff.mpr ⟨view, he⟩, rfl⟩
    · rintro ⟨c, hc, rfl⟩
      obtain ⟨view, he⟩ := Program.mem_uses_iff.mp hc
      obtain ⟨p, level, hname, -⟩ := Event.call_of_error? (herrors _ he)
      exact ⟨_, he, p.symbol level, by simp [Event.callee?, View.callee?, hname]⟩
  · intro path s hs
    refine ⟨fun v hv => hresolves.var hs hv, fun c hc => ?_⟩
    obtain ⟨declaring, p, hsuffix, hp, hname, hentry, -⟩ := hresolves.call hs hc
    exact ⟨declaring, p, hsuffix, hp, hname, hentry⟩

/-- A parameter hides a variable of the program, and a procedure inside uses it. -/
def hidingText : String :=
  "PROGRAM P; VAR X : INTEGER; PROCEDURE Q(X : REAL); PROCEDURE R; BEGIN X := X + 1 END; " ++
    "BEGIN R() END; BEGIN X := 1; Q(X) END."

/-- A text that is read and analyzed without errors, as a test can tell. -/
theorem exists_analysis (settings : Settings) (text : String) (j j' : Journal)
    (h : ((parse settings text j).1.toOption.any fun p => (analyze p j').1.toBool) = true) :
    ∃ program a, (parse settings text j).1 = .ok program ∧ (analyze program j').1 = .ok a := by
  cases hparse : (parse settings text j).1 with
  | error e => simp [hparse, Except.toOption] at h
  | ok program =>
      cases hanalyze : (analyze program j').1 with
      | error e => simp [hparse, hanalyze, Except.toOption, Except.toBool] at h
      | ok a => exact ⟨program, a, rfl, hanalyze⟩

/-- The same with a further test of the program and its analysis. -/
theorem exists_analysis_any (settings : Settings) (text : String) (j j' : Journal)
    (test : Program → Analysis → Bool)
    (h : ((parse settings text j).1.toOption.any fun p =>
      (analyze p j').1.toOption.any (test p)) = true) :
    ∃ program a, (parse settings text j).1 = .ok program ∧ (analyze program j').1 = .ok a ∧
      test program a = true := by
  cases hparse : (parse settings text j).1 with
  | error e => simp [hparse, Except.toOption] at h
  | ok program =>
      cases hanalyze : (analyze program j').1 with
      | error e => simp [hparse, hanalyze, Except.toOption] at h
      | ok a =>
          simp only [hparse, hanalyze, Except.toOption, Option.any_some] at h
          exact ⟨program, a, rfl, hanalyze, h⟩

theorem hidingText_resolved :
    ∃ program a, (parse {} hidingText { traces := [], dumps := [] }).1 = .ok program ∧
      (analyze program { traces := [], dumps := [] }).1 = .ok a ∧
      ∀ path s, program.site? path = some s → ∀ v, .var v ∈ Statement.usesAll s.block.body →
        ∃ declaring d, declaring <:+ path ∧ program.Declares declaring (.var d) ∧
          View.resolve? v.name s.view = some (.var d, declaring.length + 1) ∧
          a.binding? v.id = some ⟨declaring.length + 1, d.type⟩ := by
  obtain ⟨program, a, hparse, hanalyze⟩ :=
    exists_analysis {} hidingText { traces := [], dumps := [] } { traces := [], dumps := [] }
      (by decide +kernel)
  have htables := tables_are_lexical_resolution {} hidingText _ _ program a hparse hanalyze
  exact ⟨program, a, hparse, hanalyze, fun path s hs => (htables.2.2.2 path s hs).1⟩

end MiniPascal
