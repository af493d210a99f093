import Mathlib.Logic.Equiv.Basic
import MiniPascal.Proofs.Machine.Shape
import MiniPascal.Proofs.Renaming.Evaluation
import MiniPascal.Proofs.Renaming.Tables

/-!
A consistent renaming changes nothing but the name. A declaration gets a name that is new to
the program, and so does every use that means it. Putting the old name back everywhere gives
the program as it was, and no use is captured on the way. So the two programs have the same
analysis but for the name, and running them leads to the same output and the same values, or to
the same fault.
-/

namespace MiniPascal

section Declarations

variable {program : Program} {path : List Nat} {s : Site} {d : Declaration} {r : Renaming}
  {name : String}

theorem Program.Declares.name_mem (h : program.Declares path d) (hkind : d.kind ≠ .type) :
    d.name ∈ program.block.names := by
  obtain ⟨s, hs, hd⟩ := h
  obtain ⟨position, hposition⟩ : ∃ position, d.position? = some position := by
    cases d with
    | type t => exact absurd rfl hkind
    | var v => exact ⟨v.position, rfl⟩
    | procedure p => exact ⟨p.position, rfl⟩
  obtain ⟨earlier, later, hsplit⟩ := List.append_of_mem hd
  have hevent : .declaration earlier d position ∈ program.events :=
    Program.declaration_mem_events hs ⟨⟨later, hsplit⟩, hposition⟩
  rw [← Block.filterMap_declared?_events program.block Declaration.predeclared []]
  exact List.mem_map_of_mem (List.mem_filterMap.mpr ⟨_, hevent, rfl⟩)

/-- The renaming gives the declaration a name that is new to the program. -/
structure Renaming.Renames (r : Renaming) (program : Program) (d : Declaration) : Prop where
  declares : program.Declares r.path d
  name : d.name = r.old
  old_mem : r.old ∈ program.block.names
  free_old : FreeName r.old
  free_new : FreeName r.new
  names : r.new ∉ program.block.names
  uses : r.new ∉ program.block.uses.map Use.name

/-- The uses that get the new name are those that mean the declaration. -/
theorem Renaming.Renames.meets_iff {a : Analysis} (h : r.Renames program d)
    (hres : a.Resolves program) (hs : program.site? path = some s) :
    r.Meets path s.view name ↔
      r.path <:+ path ∧ View.resolve? name s.view = some (d, r.path.length + 1) := by
  constructor
  · rintro ⟨rfl, hsuffix, hlevel⟩
    rw [View.level] at hlevel
    cases hname : View.resolve? r.old s.view with
    | none =>
        rw [hname] at hlevel
        cases hlevel
    | some found =>
        obtain ⟨d', level⟩ := found
        rw [hname] at hlevel
        obtain rfl : level = r.path.length + 1 := hlevel
        obtain ⟨declaring, hdeclaring, hlength, s', hs', hd'⟩ :=
          Program.declares_of_resolve? hs hname
        -- Scopes on the way outwards are told apart by their levels, declarations
        -- of one by their names.
        obtain rfl : declaring = r.path := by
          have hlength' : declaring.length = r.path.length := (Nat.succ.inj hlength).symm
          exact (List.suffix_of_suffix_length_le hdeclaring hsuffix
            hlength'.le).eq_of_length hlength'
        obtain ⟨s'', hs'', hd⟩ := h.declares
        cases hs'.symm.trans hs''
        rw [List.inj_on_of_nodup_map (hres.distinct hs') hd' hd
          ((View.name_of_resolve? hname).trans h.name.symm)]
        exact ⟨hsuffix, rfl⟩
  · rintro ⟨hsuffix, hresolve⟩
    refine ⟨(View.name_of_resolve? hresolve).symm.trans h.name, hsuffix, ?_⟩
    rw [View.level, hresolve]
    rfl

end Declarations

/-! ### Global variables -/

open Reference (Store globalEnv)

/-- Under which name a global variable is found after the renaming. -/
def Renaming.key (r : Renaming) (name : String) : String :=
  if r.path = [] then Equiv.swap r.old r.new name else name

namespace Reference

theorem Env.value?_of_notMem {env : Env} {name : String} (h : name ∉ env.names)
    (store : Store) :
    env.value? store name = none := by
  have hlookup : env.lookup? name = none := by
    induction env with
    | nil => rfl
    | cons entry env ih =>
        obtain ⟨other, b⟩ := entry
        rw [Env.names, List.map_cons, List.mem_cons, not_or] at h
        rw [Env.lookup?_cons_of_ne (Ne.symm h.1)]
        exact ih h.2
  rw [value?, hlookup]

theorem names_globalEnv (program : Program) :
    (globalEnv program).names = (program.block.procedures.map Procedure.name).reverse ++
      (program.block.vars.map VarDecl.name).reverse := by
  rw [globalEnv, Env.names_enter]
  simp [Env.names]

end Reference

section Globals

variable {program : Program} {r : Renaming} {d : Declaration} {name : String}

theorem Program.names_globalEnv_subset (program : Program) :
    (globalEnv program).names ⊆ program.block.names := by
  obtain ⟨_, ⟨vars, procedures, body⟩, _⟩ := program
  rw [Reference.names_globalEnv]
  intro name hname
  rcases List.mem_append.mp hname with hprocedure | hvar
  · exact List.mem_append_right _
      (Procedure.map_name_subset_namesAll procedures (List.mem_reverse.mp hprocedure))
  · exact List.mem_append_left _ (List.mem_reverse.mp hvar)

theorem Program.names_globalEnv_rename (program : Program) (r : Renaming) :
    (globalEnv (program.rename r)).names = (globalEnv program).names.map (r.declared []) := by
  obtain ⟨_, ⟨vars, procedures, body⟩, _⟩ := program
  rw [Reference.names_globalEnv, Reference.names_globalEnv, Program.rename, Block.rename,
    Block.procedures, Block.vars, Procedure.map_name_renameAll, VarDecl.map_name_mapNames,
    List.map_append,
    List.map_reverse, List.map_reverse, List.map_map (f := Declaration.procedure)]
  rfl

/-- In front of the types, the body of a program sees the names of the global environment. -/
theorem Program.names_root_view (program : Program) :
    program.root.view.names =
      (globalEnv program).names ++ View.names [Declaration.predeclared] := by
  rw [Site.view, Site.declared, List.take_length, View.names_append, View.names_append,
    Reference.names_globalEnv, List.append_assoc, List.map_map, List.map_map]
  rfl

theorem Renaming.names_singleton (r : Renaming) (ds : List Declaration) :
    r.names [] [ds] = (View.names [ds]).map (r.declared []) := by
  rw [names, names, View.names_cons, List.map_append, List.map_reverse]
  rfl

/-- What the body of a program means by a name has the same value after the renaming. -/
theorem Renaming.value?_used (hold : FreeName r.old) (hnew : FreeName r.new)
    (hnames : r.new ∉ program.block.names) (huses : r.new ∉ program.block.uses.map Use.name)
    (hname : name ≠ r.new) (store : Store) :
    (globalEnv (program.rename r)).value? store (r.used [] program.root.view name) =
      (globalEnv program).value? store name := by
  have hview : r.new ∉ program.root.view.names := by
    rw [Program.names_root_view, List.mem_append, not_or]
    exact ⟨fun h => hnames (program.names_globalEnv_subset h), hnew.notMem_names_predeclared⟩
  have hroot : r.names [] program.root.view =
      (globalEnv (program.rename r)).names ++ View.names [Declaration.predeclared] := by
    rw [← r.names_predeclared hold, names_singleton, Program.names_globalEnv_rename,
      ← List.map_append, ← Program.names_root_view]
    exact r.names_singleton _
  have hapart : Apart r.restore (r.names [] program.root.view)
      (r.used [] program.root.view name) :=
    Renaming.apart rfl hview hname
  rw [hroot] at hapart
  rw [← Reference.Env.value?_mapNames hapart, r.restore_used hname,
    Reference.mapNames_globalEnv, Program.restore_rename hnames huses]

/-- The key is what the body of the program uses for the name. -/
theorem Renaming.key_eq_used (hmem : r.path = [] →
      r.old ∈ (program.root.declared program.block.procedures.length).map Declaration.name)
    (hname : name ≠ r.new) : r.key name = r.used [] program.root.view name := by
  by_cases hold : name = r.old
  · subst hold
    rw [key]
    split
    next hpath =>
      have hdeclared : r.declared [] r.old = r.new := if_pos ⟨hpath.symm, rfl⟩
      rw [Equiv.swap_apply_left, ← hdeclared]
      exact (Renaming.used_of_mem rfl (hmem hpath)).symm
    next hpath =>
      exact (if_neg fun h => hpath (List.suffix_nil.mp h.2.1)).symm
  · have hused : r.used [] program.root.view name = name := if_neg fun h => hold h.1
    rw [hused, key, Equiv.swap_apply_of_ne_of_ne hold hname, ite_self]

/-- After a renaming in the outermost scope its old name is bound to nothing there, and after
any other the new one. -/
theorem Renaming.key_new_notMem (hnames : r.new ∉ program.block.names)
    (hold : r.old ∈ program.block.names) :
    r.key r.new ∉ (globalEnv (program.rename r)).names := by
  rw [Program.names_globalEnv_rename, List.mem_map]
  rintro ⟨before, hbefore, heq⟩
  have hne : before ≠ r.new :=
    ne_of_mem_of_not_mem (program.names_globalEnv_subset hbefore) hnames
  have hne' : r.old ≠ r.new := ne_of_mem_of_not_mem hold hnames
  rw [declared, key] at heq
  split at heq
  next h =>
    rw [if_pos h.1.symm, Equiv.swap_apply_right] at heq
    exact hne' heq.symm
  next h =>
    split at heq
    next hpath =>
      rw [Equiv.swap_apply_right] at heq
      exact h ⟨hpath.symm, heq⟩
    next => exact hne heq

theorem Renaming.Renames.value?_key (h : r.Renames program d) (store : Store) (name : String) :
    (globalEnv (program.rename r)).value? store (r.key name) =
      (globalEnv program).value? store name := by
  by_cases hname : name = r.new
  · rw [hname, Reference.Env.value?_of_notMem (r.key_new_notMem h.names h.old_mem),
      Reference.Env.value?_of_notMem fun hmem => h.names (program.names_globalEnv_subset hmem)]
  · have hmem : r.path = [] →
        r.old ∈ (program.root.declared program.block.procedures.length).map
          Declaration.name := by
      intro hpath
      obtain ⟨s, hs, hd⟩ := h.declares
      rw [hpath] at hs
      cases hs
      exact h.name ▸ List.mem_map_of_mem hd
    rw [r.key_eq_used hmem hname, r.value?_used h.free_old h.free_new h.names h.uses hname]

end Globals

/-! ### Runs -/

/-- The second run, after the renaming, ends like the first one before it. -/
inductive Renaming.Alike (r : Renaming) : Ending Frame → Ending Frame → Prop
  | ok {globals globals' : Frame} {m m' : Machine} : m'.output = m.output →
      (∀ name, globals'.get? (r.key name) = globals.get? name) →
      Alike r (.ok globals m) (.ok globals' m')
  | error {e e' : RuntimeError} {m m' : Machine} : m'.output = m.output →
      e'.mapNames r.restore = e → Alike r (.error e m) (.error e' m')

section Runs

variable {program : Program} {r : Renaming} {d : Declaration} {a a' : Analysis}

theorem Renaming.Renames.apart (h : r.Renames program d) :
    (program.rename r).Apart r.restore :=
  Program.apart_rename h.free_old h.free_new h.names h.uses

theorem Renaming.Renames.restore_rename (h : r.Renames program d) :
    (program.rename r).mapNames r.restore = program := Program.restore_rename h.names h.uses

theorem Renaming.Renames.interpret_alike (h : r.Renames program d) (hres : a.Resolves program)
    (hres' : a'.Resolves (program.rename r)) (limit : Nat) (output : Output)
    (journal journal' : Journal) :
    r.Alike (a.interpret limit program { output, journal })
      (a'.interpret limit (program.rename r) { output, journal := journal' }) := by
  have hreference : Reference.interpret limit program =
      Reference.Run.mapNames r.restore (Reference.interpret limit (program.rename r)) := by
    rw [← Reference.interpret_mapNames h.apart limit, h.restore_rename]
  rcases interpret_agrees hres' limit output journal' with
    ⟨globals', m', st', hmachine', hreference', hout', hglobals'⟩ |
    ⟨e', m', st', hmachine', hreference', hout'⟩
  · have hend := Reference.Run.mapNames_of_ok (f := r.restore) hreference'
    rw [← hreference] at hend
    rcases interpret_agrees hres limit output journal with
      ⟨globals, m, st, hmachine, hst, hout, hglobals⟩ | ⟨e, m, st, hmachine, hst, hout⟩
    · cases hst.symm.trans hend
      rw [hmachine, hmachine']
      refine .ok (hout'.trans hout.symm) fun name => ?_
      rw [hglobals', hglobals, h.value?_key]
    · cases hst.symm.trans hend
  · have hend := Reference.Run.mapNames_of_error (f := r.restore) hreference'
    rw [← hreference] at hend
    rcases interpret_agrees hres limit output journal with
      ⟨globals, m, st, hmachine, hst, hout, hglobals⟩ | ⟨e, m, st, hmachine, hst, hout⟩
    · cases hst.symm.trans hend
    · cases hst.symm.trans hend
      rw [hmachine, hmachine']
      exact .error (hout'.trans hout.symm) rfl

end Runs

/-- **A consistent renaming keeps the behaviour.** In a program that is read from a text and
analyzed without errors, a variable, a parameter or a procedure gets a name that is no reserved
word and that the program does not have, and so do the uses that mean it. With the old name put
back the program is the one that it was. It is analyzed without errors, too, and the analyses
differ in the name alone: uses have the same levels and types, and the procedures and the
scopes are the same but for the name. From the same start the two programs, each with its own
analysis, write the same output and end with the same values of the global variables, that of
the renamed one under its new name, or with the same fault. -/
theorem renaming_keeps_behaviour (settings : Settings) (text : String) (j j₁ j₂ : Journal)
    (program : Program) (a : Analysis) (r : Renaming) (d : Declaration)
    (hparse : (parse settings text j).1 = .ok program)
    (hanalyze : (analyze program j₁).1 = .ok a) (hdeclares : program.Declares r.path d)
    (hkind : d.kind ≠ .type) (hold : d.name = r.old)
    (hword : Token.Kind.ofWord? r.new = none) (hnames : r.new ∉ program.block.names)
    (huses : r.new ∉ program.block.uses.map Use.name) :
    (∀ path s name, program.site? path = some s →
      (r.Meets path s.view name ↔
        r.path <:+ path ∧ View.resolve? name s.view = some (d, r.path.length + 1))) ∧
    (program.rename r).mapNames r.restore = program ∧
    ∃ a', (analyze (program.rename r) j₂).1 = .ok a' ∧ a.Matches r.restore a' ∧
      ∀ limit output journal journal',
        r.Alike (a.interpret limit program { output, journal })
          (a'.interpret limit (program.rename r) { output, journal := journal' }) := by
  have hregular := Program.regular_of_parse hparse
  have hmem : r.old ∈ program.block.names := hold ▸ hdeclares.name_mem hkind
  have hrenames : r.Renames program d :=
    ⟨hdeclares, hold, hmem, hregular.names r.old hmem, freeName_of_ofWord? hword,
      hnames, huses⟩
  have hres := hregular.resolves hanalyze
  have htypes : ∀ t : DataType, r.restore t.name = t.name := fun t =>
    r.restore_of_ne (hrenames.free_new t).symm
  refine ⟨fun path s name hs => hrenames.meets_iff hres hs, hrenames.restore_rename, ?_⟩
  rw [← hrenames.restore_rename] at hregular hanalyze
  obtain ⟨a', hanalyze', hmatches⟩ :=
    hrenames.apart.exists_analysis htypes hregular hanalyze j₂
  have hres' := (hregular.of_mapNames htypes).resolves hanalyze'
  exact ⟨a', hanalyze', hmatches, hrenames.interpret_alike hres hres'⟩

/-- The variable `X` of the program gets another name, and the parameter that hides it keeps
its own. -/
theorem nestedText_renamed :
    ∃ program a d, (parse {} nestedText { traces := [], dumps := [] }).1 = .ok program ∧
      (analyze program { traces := [], dumps := [] }).1 = .ok a ∧
      program.Declares [] (.var d) ∧ d.name = "X" ∧
      (program.rename ⟨[], "X", "Z"⟩).mapNames (Renaming.restore ⟨[], "X", "Z"⟩) = program ∧
      ∃ a',
        (analyze (program.rename ⟨[], "X", "Z"⟩) { traces := [], dumps := [] }).1 = .ok a' ∧
        a.Matches (Renaming.restore ⟨[], "X", "Z"⟩) a' ∧
        ∀ limit output journal journal',
          Renaming.Alike ⟨[], "X", "Z"⟩ (a.interpret limit program { output, journal })
            (a'.interpret limit (program.rename ⟨[], "X", "Z"⟩)
              { output, journal := journal' }) := by
  obtain ⟨program, a, hparse, hanalyze, htest⟩ :=
    exists_analysis_any {} nestedText { traces := [], dumps := [] }
      { traces := [], dumps := [] }
      (fun p _ => p.block.vars.any (·.name = "X") && !p.block.names.contains "Z" &&
        !(p.block.uses.map Use.name).contains "Z") (by decide +kernel)
  simp only [Bool.and_eq_true, Bool.not_eq_true', List.any_eq_true, decide_eq_true_eq,
    List.contains_eq_mem, decide_eq_false_iff_not] at htest
  obtain ⟨⟨⟨d, hd, hname⟩, hnames⟩, huses⟩ := htest
  have hdeclares : program.Declares [] (.var d) :=
    ⟨program.root, rfl, List.mem_append_left _
      (List.mem_append_right _ (List.mem_map_of_mem hd))⟩
  obtain ⟨-, hrestore, hbehaviour⟩ := renaming_keeps_behaviour {} nestedText _ _
    { traces := [], dumps := [] } program a ⟨[], "X", "Z"⟩ (.var d) hparse hanalyze hdeclares
    (by simp [Declaration.kind]) hname (by decide) hnames huses
  exact ⟨program, a, d, hparse, hanalyze, hdeclares, hname, hrestore, hbehaviour⟩

end MiniPascal
