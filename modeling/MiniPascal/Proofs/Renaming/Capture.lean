import Mathlib.Data.List.Infix
import MiniPascal.Proofs.Analysis.Walk
import MiniPascal.Proofs.Renaming.Names
import MiniPascal.Proofs.Scope.Renaming

/-!
Renaming one declaration. The declaration gets a new name, and so do the uses that mean it, as
the views of their places tell. If the new name is nowhere in the program, the old name can be
put back wherever the new one stands, and this gives the program as it was. Nothing is captured
on the way back: a name that is nearer to a use than the declaration that it means does not
become the name of the use.
-/

namespace MiniPascal

/-! ### Names that are kept apart -/

/-- None of the names before `name`, of those that can be seen with the nearest first, becomes
the same as `name`. -/
def Apart (f : String → String) : List String → String → Prop
  | [], _ => True
  | other :: names, name => other = name ∨ f other ≠ f name ∧ Apart f names name

namespace Apart

variable {f : String → String} {names others : List String} {name : String}

theorem append_of_mem (hmem : name ∈ names)
    (h : ∀ other ∈ names, f other = f name → other = name) :
    Apart f (names ++ others) name := by
  induction names with
  | nil => cases hmem
  | cons other names ih =>
      obtain ⟨hother, hnames⟩ := List.forall_mem_cons.mp h
      by_cases heq : other = name
      · exact .inl heq
      · have hmem' := (List.mem_cons.mp hmem).resolve_left (Ne.symm heq)
        exact .inr ⟨fun hf => heq (hother hf), ih hmem' hnames⟩

theorem append_of_forall_ne (h : ∀ other ∈ names, f other ≠ f name)
    (hothers : Apart f others name) :
    Apart f (names ++ others) name := by
  induction names with
  | nil => exact hothers
  | cons other names ih =>
      obtain ⟨hother, hnames⟩ := List.forall_mem_cons.mp h
      exact .inr ⟨hother, ih hnames⟩

theorem of_append_of_notMem (h : Apart f (names ++ others) name) (hname : name ∉ names) :
    (∀ other ∈ names, f other ≠ f name) ∧ Apart f others name := by
  induction names with
  | nil => exact ⟨by simp, h⟩
  | cons other names ih =>
      rw [List.mem_cons, not_or] at hname
      obtain ⟨hother, hrest⟩ := h.resolve_left (Ne.symm hname.1)
      obtain ⟨hnames, hothers⟩ := ih hrest hname.2
      exact ⟨List.forall_mem_cons.mpr ⟨hother, hnames⟩, hothers⟩

end Apart

mutual

/-- The uses in a block are kept apart from what can be seen there. Around the block `names`
can be seen, the nearest first. -/
def Block.Apart (f : String → String) (names : List String) : Block → Prop
  | .mk vars procedures body =>
      Procedure.ApartAll f ((vars.map VarDecl.name).reverse ++ names) procedures ∧
        ∀ u ∈ Statement.usesAll body, MiniPascal.Apart f
          ((procedures.map Procedure.name).reverse ++
            ((vars.map VarDecl.name).reverse ++ names)) u.name

/-- A procedure sees its own name. -/
def Procedure.Apart (f : String → String) (names : List String) : Procedure → Prop
  | .mk name _ params block =>
      block.Apart f ((params.map VarDecl.name).reverse ++ name :: names)

def Procedure.ApartAll (f : String → String) (names : List String) : List Procedure → Prop
  | [] => True
  | p :: procedures => p.Apart f names ∧ Procedure.ApartAll f (p.name :: names) procedures

end

theorem Procedure.Apart.block {f : String → String} {names : List String} {p : Procedure}
    (h : p.Apart f names) :
    p.block.Apart f ((p.params.map VarDecl.name).reverse ++ p.name :: names) := by
  cases p
  exact h

/-- The names in a view, the nearest first. -/
def View.names (view : View) : List String :=
  view.flatMap fun ds => (ds.map Declaration.name).reverse

theorem View.names_cons (ds : List Declaration) (outer : View) :
    View.names (ds :: outer) = (ds.map Declaration.name).reverse ++ outer.names :=
  List.flatMap_cons

theorem View.names_append (ds es : List Declaration) (outer : View) :
    View.names ((ds ++ es) :: outer) =
      (es.map Declaration.name).reverse ++ View.names (ds :: outer) := by
  rw [names_cons, List.map_append, List.reverse_append, List.append_assoc, names_cons]

def Program.Apart (f : String → String) (program : Program) : Prop :=
  program.block.Apart f (View.names [Declaration.predeclared])

/-! ### Renaming -/

/-- The declaration of the name `old` in the scope of `path` gets the name `new`. -/
structure Renaming where
  path : List Nat
  old : String
  new : String

namespace Renaming

variable (r : Renaming)

/-- What a declaration in the scope of the path `here` is called. -/
def declared (here : List Nat) (name : String) : String :=
  if here = r.path ∧ name = r.old then r.new else name

/-- A use of the name means the declaration: the name leads to the level of its scope, and that
scope is one on the way outwards. -/
def Meets (here : List Nat) (view : View) (name : String) : Prop :=
  name = r.old ∧ r.path <:+ here ∧ view.level name = r.path.length + 1

instance (here : List Nat) (view : View) (name : String) :
    Decidable (r.Meets here view name) :=
  inferInstanceAs (Decidable (_ ∧ _ ∧ _))

/-- What is used for a name in the body of the scope of the path `here`. -/
def used (here : List Nat) (view : View) (name : String) : String :=
  if r.Meets here view name then r.new else name

/-- The name before the renaming. -/
def restore (name : String) : String := if name = r.new then r.old else name

end Renaming

mutual

/-- A block in a scope that has the declarations `opening` already. -/
def Block.rename (r : Renaming) (here : List Nat) (opening : List Declaration) (outer : View) :
    Block → Block
  | .mk vars procedures body =>
      .mk (vars.map (VarDecl.mapNames (r.declared here)))
        (Procedure.renameAll r here 0 (opening ++ vars.map .var) outer procedures)
        (Statement.mapNamesAll
          (r.used here ((opening ++ vars.map .var ++ procedures.map .procedure) :: outer))
            body)

/-- The procedure number `k` of a block. -/
def Procedure.rename (r : Renaming) (here : List Nat) (k : Nat) (earlier : List Declaration)
    (outer : View) : Procedure → Procedure
  | .mk name position params block =>
      .mk (r.declared here name) position
        (params.map (VarDecl.mapNames (r.declared (k :: here))))
        (block.rename r (k :: here) (params.map .var)
          ((earlier ++ [.procedure (.mk name position params block)]) :: outer))

def Procedure.renameAll (r : Renaming) (here : List Nat) (k : Nat) (earlier : List Declaration)
    (outer : View) : List Procedure → List Procedure
  | [] => []
  | p :: procedures =>
      p.rename r here k earlier outer ::
        Procedure.renameAll r here (k + 1) (earlier ++ [.procedure p]) outer procedures

end

def Program.rename (r : Renaming) (program : Program) : Program :=
  { program with block := program.block.rename r [] Declaration.predeclared [] }

/-! ### The old name is put back -/

section Restore

variable {r : Renaming} {here : List Nat} {view : View} {name : String}

theorem Renaming.restore_of_ne (h : name ≠ r.new) : r.restore name = name := if_neg h

theorem Renaming.restore_declared (h : name ≠ r.new) :
    r.restore (r.declared here name) = name := by
  rw [declared]
  split
  next hold => rw [restore, if_pos rfl, hold.2]
  next => exact restore_of_ne h

theorem Renaming.restore_used (h : name ≠ r.new) :
    r.restore (r.used here view name) = name := by
  rw [used]
  split
  next hmeets => rw [restore, if_pos rfl, hmeets.1]
  next => exact restore_of_ne h

mutual

theorem Block.restore_rename : ∀ (b : Block) (here : List Nat) (opening : List Declaration)
    (outer : View), r.new ∉ b.names → r.new ∉ b.uses.map Use.name →
    (b.rename r here opening outer).mapNames r.restore = b
  | .mk vars procedures body, here, opening, outer, hnames, huses => by
      rw [Block.names, List.mem_append, not_or] at hnames
      rw [Block.uses, List.map_append, List.mem_append, not_or] at huses
      rw [Block.rename, Block.mapNames, VarDecl.map_mapNames_eq_self,
        Procedure.restore_renameAll procedures _ _ _ _ hnames.2 huses.1,
        Statement.mapNamesAll_mapNamesAll_eq_self]
      · exact fun u hu => r.restore_used
          (ne_of_mem_of_not_mem (List.mem_map_of_mem hu) huses.2)
      · exact fun d hd => r.restore_declared
          (ne_of_mem_of_not_mem (List.mem_map_of_mem hd) hnames.1)

theorem Procedure.restore_renameAll :
    ∀ (procedures : List Procedure) (here : List Nat) (k : Nat)
    (earlier : List Declaration) (outer : View), r.new ∉ Procedure.namesAll procedures →
    r.new ∉ (Procedure.usesAll procedures).map Use.name →
    Procedure.mapNamesAll r.restore (Procedure.renameAll r here k earlier outer procedures) =
      procedures
  | [], _, _, _, _, _, _ => rfl
  | .mk name position params block :: procedures, here, k, earlier, outer, hnames, huses => by
      rw [Procedure.namesAll, Procedure.names, List.mem_append, List.mem_cons, List.mem_append,
        not_or, not_or, not_or] at hnames
      obtain ⟨⟨hname, hparams, hblock⟩, hothers⟩ := hnames
      rw [Procedure.usesAll, Procedure.uses, List.map_append, List.mem_append, not_or] at huses
      rw [Procedure.renameAll, Procedure.rename, Procedure.mapNamesAll, Procedure.mapNames,
        r.restore_declared (Ne.symm hname), VarDecl.map_mapNames_eq_self,
        Block.restore_rename block _ _ _ hblock huses.1,
        Procedure.restore_renameAll procedures _ _ _ _ hothers huses.2]
      exact fun d hd => r.restore_declared
        (ne_of_mem_of_not_mem (List.mem_map_of_mem hd) hparams)

end

theorem Program.restore_rename {program : Program} (hnames : r.new ∉ program.block.names)
    (huses : r.new ∉ program.block.uses.map Use.name) :
    (program.rename r).mapNames r.restore = program := by
  rw [Program.mapNames, Program.rename]
  exact congrArg (Program.mk program.name · program.position)
    (Block.restore_rename program.block _ _ _ hnames huses)

end Restore

/-! ### Nothing is captured -/

theorem View.level_le (view : View) (name : String) : view.level name ≤ view.length := by
  rw [View.level]
  cases hname : View.resolve? name view with
  | none => exact Nat.zero_le _
  | some r =>
      obtain ⟨d, level⟩ := r
      obtain ⟨ds, outer, rfl, hsuffix, -⟩ := View.exists_of_resolve? hname
      exact hsuffix.length_le

namespace Renaming

variable {r : Renaming} {here : List Nat} {ds es : List Declaration} {outer view : View}
  {name : String}

/-- The names in a view after the renaming, the nearest first. -/
def names (r : Renaming) : List Nat → View → List String
  | _, [] => []
  | here, ds :: outer =>
      ((ds.map Declaration.name).map (r.declared here)).reverse ++ r.names here.tail outer

theorem names_append :
    r.names here ((ds ++ es) :: outer) =
      ((es.map Declaration.name).map (r.declared here)).reverse ++
        r.names here (ds :: outer) := by
  rw [names, List.map_append, List.map_append, List.reverse_append, List.append_assoc, names]

/-- A name that the nearest scope declares is used as that declaration is called. -/
theorem used_of_mem (hlength : outer.length = here.length)
    (hname : name ∈ ds.map Declaration.name) :
    r.used here (ds :: outer) name = r.declared here name := by
  obtain ⟨d, hd⟩ : ∃ d, ds.find? (·.name = name) = some d := by
    obtain ⟨d, hd, rfl⟩ := List.mem_map.mp hname
    exact Option.isSome_iff_exists.mp (List.find?_isSome.mpr ⟨d, hd, by simp⟩)
  have hlevel : View.level (ds :: outer) name = here.length + 1 := by
    rw [View.level, View.resolve?_cons_of_some hd, hlength]
    rfl
  have hmeets : r.Meets here (ds :: outer) name ↔ here = r.path ∧ name = r.old := by
    rw [Meets, hlevel]
    constructor
    · rintro ⟨hold, hsuffix, heq⟩
      exact ⟨(hsuffix.eq_of_length (Nat.succ.inj heq).symm).symm, hold⟩
    · rintro ⟨rfl, hold⟩
      exact ⟨hold, List.suffix_refl _, rfl⟩
  rw [used, declared]
  simp only [hmeets]

/-- Any other name is used as it is further out. -/
theorem used_of_notMem (hlength : outer.length = here.length)
    (hname : name ∉ ds.map Declaration.name) :
    r.used here (ds :: outer) name = r.used here.tail outer name := by
  have hnone : ds.find? (·.name = name) = none := by
    rw [List.find?_eq_none]
    intro d hd heq
    exact hname (List.mem_map.mpr ⟨d, hd, by simpa using heq⟩)
  have hlevel : View.level (ds :: outer) name = outer.level name := by
    rw [View.level, View.resolve?_cons_of_none hnone, View.level]
  have hmeets : r.Meets here (ds :: outer) name ↔ r.Meets here.tail outer name := by
    rw [Meets, Meets, hlevel]
    refine and_congr_right fun _ => and_congr_left fun heq => ?_
    -- The scope that is met has a level of the outer view, so it is not the nearest one.
    have hle := outer.level_le name
    cases here with
    | nil => exact Iff.rfl
    | cons k here =>
        rw [List.suffix_cons_iff, List.tail_cons, or_iff_right]
        intro hpath
        have hnearest : r.path.length = outer.length := by rw [hpath, hlength]
        omega
  rw [used, used]
  simp only [hmeets]

theorem apart (hlength : view.length = here.length + 1)
    (hview : r.new ∉ view.names) (hname : name ≠ r.new) :
    Apart r.restore (r.names here view) (r.used here view name) := by
  induction view generalizing here with
  | nil => trivial
  | cons ds outer ih =>
      have hlength' : outer.length = here.length := Nat.succ.inj hlength
      rw [View.names_cons, List.mem_append, List.mem_reverse, not_or] at hview
      -- What is declared here is restored to the names that were declared here.
      have hrestore : ∀ other ∈ ((ds.map Declaration.name).map (r.declared here)).reverse,
          r.restore other ∈ ds.map Declaration.name ∧
          other = r.declared here (r.restore other) := by
        intro other hother
        obtain ⟨before, hbefore, rfl⟩ := List.mem_map.mp (List.mem_reverse.mp hother)
        rw [r.restore_declared (ne_of_mem_of_not_mem hbefore hview.1)]
        exact ⟨hbefore, rfl⟩
      by_cases hmem : name ∈ ds.map Declaration.name
      · rw [used_of_mem hlength' hmem, names]
        refine Apart.append_of_mem (List.mem_reverse.mpr (List.mem_map_of_mem hmem)) ?_
        intro other hother heq
        rw [(hrestore other hother).2, heq, r.restore_declared hname]
      · rw [used_of_notMem hlength' hmem, names]
        refine Apart.append_of_forall_ne ?_ ?_
        · intro other hother heq
          rw [r.restore_used hname] at heq
          exact hmem (heq ▸ (hrestore other hother).1)
        · cases here with
          | nil =>
              cases outer with
              | nil => trivial
              | cons _ _ => cases hlength'
          | cons k here => exact ih hlength' hview.2

end Renaming

section

variable {r : Renaming}

theorem VarDecl.map_name_declared (here : List Nat) (decls : List VarDecl) :
    ((decls.map (VarDecl.mapNames (r.declared here))).map VarDecl.name).reverse =
      (((decls.map Declaration.var).map Declaration.name).map (r.declared here)).reverse := by
  rw [VarDecl.map_name_mapNames, List.map_map (g := Declaration.name)]
  rfl

theorem Procedure.name_rename (here : List Nat) (k : Nat) (earlier : List Declaration)
    (outer : View) (p : Procedure) :
    (p.rename r here k earlier outer).name = r.declared here p.name := by
  cases p
  rfl

theorem Procedure.map_name_renameAll (here : List Nat) (k : Nat) (earlier : List Declaration)
    (outer : View) (procedures : List Procedure) :
    ((Procedure.renameAll r here k earlier outer procedures).map Procedure.name) =
      ((procedures.map Declaration.procedure).map Declaration.name).map (r.declared here) := by
  induction procedures generalizing k earlier with
  | nil => rfl
  | cons p procedures ih =>
      rw [renameAll, List.map_cons, name_rename, ih]
      rfl

mutual

theorem Block.apart_rename : ∀ (b : Block) (here : List Nat) {opening : List Declaration}
    {outer : View}, outer.length = here.length → r.new ∉ View.names (opening :: outer) →
    r.new ∉ b.names → r.new ∉ b.uses.map Use.name →
    (b.rename r here opening outer).Apart r.restore (r.names here (opening :: outer))
  | .mk vars procedures body, here, opening, outer, hlength, hview, hnames, huses => by
      rw [Block.names, List.mem_append, not_or] at hnames
      rw [Block.uses, List.map_append, List.mem_append, not_or] at huses
      have hvars : r.new ∉ View.names ((opening ++ vars.map .var) :: outer) := by
        rw [View.names_append, List.mem_append, List.mem_reverse, List.map_map, not_or]
        exact ⟨hnames.1, hview⟩
      have hall : r.new ∉ View.names
          ((opening ++ vars.map .var ++ procedures.map .procedure) :: outer) := by
        rw [View.names_append, List.mem_append, List.mem_reverse, List.map_map, not_or]
        exact ⟨fun hmem =>
          hnames.2 (Procedure.map_name_subset_namesAll procedures hmem), hvars⟩
      rw [Block.rename, Block.Apart, VarDecl.map_name_declared, ← Renaming.names_append,
        Procedure.map_name_renameAll, ← Renaming.names_append]
      refine ⟨Procedure.apart_renameAll procedures here 0 hlength hvars hnames.2 huses.1, ?_⟩
      intro u' hu'
      rw [Statement.usesAll_mapNames] at hu'
      obtain ⟨u, hu, rfl⟩ := List.mem_map.mp hu'
      rw [Use.name_mapNames]
      exact Renaming.apart (congrArg Nat.succ hlength) hall
        (ne_of_mem_of_not_mem (List.mem_map_of_mem hu) huses.2)

theorem Procedure.apart_renameAll : ∀ (procedures : List Procedure) (here : List Nat) (k : Nat)
    {earlier : List Declaration} {outer : View}, outer.length = here.length →
    r.new ∉ View.names (earlier :: outer) → r.new ∉ Procedure.namesAll procedures →
    r.new ∉ (Procedure.usesAll procedures).map Use.name →
    Procedure.ApartAll r.restore (r.names here (earlier :: outer))
      (Procedure.renameAll r here k earlier outer procedures)
  | [], _, _, _, _, _, _, _, _ => trivial
  | .mk name position params block :: procedures, here, k, earlier, outer, hlength,
      hview, hnames, huses => by
      rw [Procedure.namesAll, Procedure.names, List.mem_append, List.mem_cons, List.mem_append,
        not_or, not_or, not_or] at hnames
      obtain ⟨⟨hname, hparams, hblock⟩, hothers⟩ := hnames
      rw [Procedure.usesAll, Procedure.uses, List.map_append, List.mem_append, not_or] at huses
      have hearlier : r.new ∉ View.names
          ((earlier ++ [.procedure (.mk name position params block)]) :: outer) := by
        rw [View.names_append, List.mem_append, not_or]
        exact ⟨fun hmem => hname (List.mem_singleton.mp hmem), hview⟩
      have hopening : r.new ∉ View.names (params.map .var ::
          (earlier ++ [.procedure (.mk name position params block)]) :: outer) := by
        rw [View.names_cons, List.mem_append, List.mem_reverse, List.map_map, not_or]
        exact ⟨hparams, hearlier⟩
      have hlength' : List.length
          ((earlier ++ [Declaration.procedure (.mk name position params block)])
          :: outer) = (k :: here).length := congrArg Nat.succ hlength
      have hinside := Block.apart_rename block (k :: here) hlength' hopening hblock huses.1
      have hrest :=
        Procedure.apart_renameAll procedures here (k + 1) hlength hearlier hothers huses.2
      rw [Procedure.renameAll, Procedure.ApartAll, Procedure.name_rename]
      rw [Renaming.names_append] at hrest
      refine ⟨?_, hrest⟩
      rw [Procedure.rename, Procedure.Apart, VarDecl.map_name_declared]
      rw [Renaming.names, List.tail_cons, Renaming.names_append] at hinside
      exact hinside

end

theorem FreeName.notMem_names_predeclared {name : String} (h : FreeName name) :
    name ∉ View.names [Declaration.predeclared] := by
  simp [View.names, Declaration.predeclared, Declaration.name, h _]

theorem Renaming.names_predeclared (hold : FreeName r.old) :
    r.names [] [Declaration.predeclared] = View.names [Declaration.predeclared] := by
  have hkeep : ∀ t : DataType, r.declared [] t.name = t.name := fun t =>
    if_neg fun h => hold t h.2.symm
  simp [names, View.names, Declaration.predeclared, Declaration.name, hkeep]

/-- Nothing is captured when the old name is put back. -/
theorem Program.apart_rename {program : Program} (hold : FreeName r.old)
    (hnew : FreeName r.new) (hnames : r.new ∉ program.block.names)
    (huses : r.new ∉ program.block.uses.map Use.name) :
    (program.rename r).Apart r.restore := by
  have hblock := Block.apart_rename (r := r) program.block [] rfl hnew.notMem_names_predeclared
    hnames huses
  rwa [r.names_predeclared hold] at hblock

end

end MiniPascal
