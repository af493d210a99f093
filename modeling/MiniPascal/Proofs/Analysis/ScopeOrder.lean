import Mathlib.Data.List.Forall2
import Mathlib.Data.List.Lex
import MiniPascal.Proofs.Analysis.Nesting

/-!
The scopes of an analysis, found by paths. All paths of a program are listed as its scopes
come: a procedure before those inside of it, and these before the next one. Read from the
outermost number inwards, that is the lexicographic order. So the scope of a procedure stands
at the place of its path, and its enclosing scope at the place of the path without the last
step.
-/

namespace MiniPascal

mutual

/-- The paths to all procedures in a block that `path` leads to. -/
def Block.paths (path : List Nat) : Block → List (List Nat)
  | .mk _ procedures _ => Procedure.pathsAll path 0 procedures

/-- The path to a procedure, and those to all procedures inside. -/
def Procedure.paths (path : List Nat) : Procedure → List (List Nat)
  | .mk _ _ _ block => path :: block.paths path

/-- The same for the procedures of a block from the number `k` on. -/
def Procedure.pathsAll (path : List Nat) (k : Nat) : List Procedure → List (List Nat)
  | [] => []
  | p :: procedures => p.paths (k :: path) ++ Procedure.pathsAll path (k + 1) procedures

end

def Program.paths (program : Program) : List (List Nat) := [] :: program.block.paths []

theorem Block.paths_eq (b : Block) (path : List Nat) :
    b.paths path = Procedure.pathsAll path 0 b.procedures := by
  cases b
  rfl

theorem Procedure.paths_eq (p : Procedure) (path : List Nat) :
    p.paths path = path :: p.block.paths path := by
  cases p
  rfl

theorem Procedure.paths_subset_pathsAll {procedures : List Procedure} {p : Procedure} {i : Nat}
    (h : procedures[i]? = some p) (path : List Nat) (k : Nat) :
    p.paths ((k + i) :: path) ⊆ pathsAll path k procedures := by
  induction procedures generalizing i k with
  | nil => cases h
  | cons p' procedures ih =>
      cases i with
      | zero =>
          cases h
          exact List.subset_append_left _ _
      | succ i =>
          have hrest := ih h (k + 1)
          rw [Nat.add_right_comm, Nat.add_assoc] at hrest
          exact List.Subset.trans hrest (List.subset_append_right _ _)

/-! ### The paths are those that lead to a scope -/

namespace Program

variable {program : Program} {path : List Nat} {s : Site}

theorem paths_of_site (h : program.site? path = some s) :
    path ∈ program.paths ∧ s.block.paths path ⊆ program.paths := by
  induction path generalizing s with
  | nil =>
      cases h
      exact ⟨List.mem_cons_self, List.subset_cons_self _ _⟩
  | cons k path ih =>
      obtain ⟨s₀, p, hs₀, hp, rfl⟩ := site?_cons_eq_some h
      have hlisted := Procedure.paths_subset_pathsAll hp path 0
      rw [Nat.zero_add, ← Block.paths_eq, Procedure.paths_eq] at hlisted
      exact List.cons_subset.mp (List.Subset.trans hlisted (ih hs₀).2)

end Program

mutual

theorem Block.exists_site_of_mem_paths {program : Program} {q : List Nat} :
    ∀ (b : Block) {path : List Nat} {s : Site}, program.site? path = some s → s.block = b →
      q ∈ b.paths path → ∃ s', program.site? q = some s'
  | .mk vars procedures body, path, s, h, hb, hq => by
      refine Procedure.exists_site_of_mem_pathsAll procedures 0 h ?_ hq
      rw [hb]
      rfl

theorem Procedure.exists_site_of_mem_pathsAll {program : Program} {q : List Nat} :
    ∀ (procedures : List Procedure) (k : Nat) {path : List Nat} {s : Site},
      program.site? path = some s → s.block.procedures.drop k = procedures →
      q ∈ Procedure.pathsAll path k procedures → ∃ s', program.site? q = some s'
  | [], _, _, _, _, _, hq => by cases hq
  | .mk name position params block :: procedures, k, path, s, h, hdrop, hq => by
      rcases List.mem_append.mp hq with hq | hq
      · have hp : s.block.procedures[k]? = some (.mk name position params block) := by
          rw [← List.head?_drop, hdrop, List.head?_cons]
        have hsite := Program.site?_cons h hp
        rcases List.mem_cons.mp hq with rfl | hq
        · exact ⟨_, hsite⟩
        · exact Block.exists_site_of_mem_paths block hsite rfl hq
      · have hdrop' : s.block.procedures.drop (k + 1) = procedures := by
          rw [← List.tail_drop, hdrop, List.tail_cons]
        exact Procedure.exists_site_of_mem_pathsAll procedures (k + 1) h hdrop' hq

end

theorem Program.mem_paths_iff {program : Program} {path : List Nat} :
    path ∈ program.paths ↔ ∃ s, program.site? path = some s := by
  constructor
  · intro h
    rcases List.mem_cons.mp h with rfl | h
    · exact ⟨program.root, rfl⟩
    · exact Block.exists_site_of_mem_paths program.block (s := program.root) rfl rfl h
  · rintro ⟨s, hs⟩
    exact (paths_of_site hs).1

/-! ### Their order -/

/-- The first path comes before the second one, from the outermost numbers on. -/
def Precedes (p q : List Nat) : Prop := p.reverse < q.reverse

theorem precedes_append_cons (front : List Nat) (k : Nat) (path : List Nat) :
    Precedes path (front ++ k :: path) := by
  rw [Precedes, List.reverse_append, List.reverse_cons, List.append_assoc]
  nth_rewrite 1 [← List.append_nil path.reverse]
  exact List.Lex.append_left _ .nil path.reverse

theorem precedes_of_lt {front front' path : List Nat} {k k' : Nat} (h : k < k') :
    Precedes (front ++ k :: path) (front' ++ k' :: path) := by
  rw [Precedes, List.reverse_append, List.reverse_cons, List.reverse_append, List.reverse_cons,
    List.append_assoc, List.append_assoc]
  exact List.Lex.append_left _ (.rel h) path.reverse

mutual

/-- Paths to procedures inside go on from the path of the block. -/
theorem Block.exists_of_mem_paths : ∀ (b : Block) {path q : List Nat}, q ∈ b.paths path →
    ∃ front k, q = front ++ k :: path
  | .mk _ procedures _, _, _, hq => by
      obtain ⟨front, k, -, rfl⟩ := Procedure.exists_of_mem_pathsAll procedures hq
      exact ⟨front, k, rfl⟩

theorem Procedure.exists_of_mem_paths : ∀ (p : Procedure) {path q : List Nat} {k : Nat},
    q ∈ p.paths (k :: path) → ∃ front, q = front ++ k :: path
  | .mk _ _ _ block, path, q, k, hq => by
      rcases List.mem_cons.mp hq with rfl | hq
      · exact ⟨[], rfl⟩
      · obtain ⟨front, i, rfl⟩ := Block.exists_of_mem_paths block hq
        exact ⟨front ++ [i], by simp⟩

theorem Procedure.exists_of_mem_pathsAll : ∀ (procedures : List Procedure) {path q : List Nat}
    {k : Nat}, q ∈ Procedure.pathsAll path k procedures →
    ∃ front i, k ≤ i ∧ q = front ++ i :: path
  | [], _, _, _, hq => by cases hq
  | p :: procedures, path, q, k, hq => by
      rcases List.mem_append.mp hq with hq | hq
      · obtain ⟨front, rfl⟩ := Procedure.exists_of_mem_paths p hq
        exact ⟨front, k, Nat.le_refl k, rfl⟩
      · obtain ⟨front, i, hi, rfl⟩ := Procedure.exists_of_mem_pathsAll procedures hq
        exact ⟨front, i, Nat.le_of_succ_le hi, rfl⟩

end

mutual

theorem Block.pairwise_paths :
    ∀ (b : Block) (path : List Nat), (b.paths path).Pairwise Precedes
  | .mk _ procedures _, path => Procedure.pairwise_pathsAll procedures path 0

theorem Procedure.pairwise_pathsAll :
    ∀ (procedures : List Procedure) (path : List Nat) (k : Nat),
    (Procedure.pathsAll path k procedures).Pairwise Precedes
  | [], _, _ => .nil
  | .mk name position params block :: procedures, path, k => by
      rw [Procedure.pathsAll, List.pairwise_append]
      refine ⟨?_, Procedure.pairwise_pathsAll procedures path (k + 1), ?_⟩
      · refine List.pairwise_cons.mpr ⟨fun q hq => ?_, Block.pairwise_paths block (k :: path)⟩
        obtain ⟨front, i, rfl⟩ := Block.exists_of_mem_paths block hq
        exact precedes_append_cons front i (k :: path)
      · intro q hq q' hq'
        obtain ⟨front, rfl⟩ :=
          Procedure.exists_of_mem_paths (.mk name position params block) hq
        obtain ⟨front', i, hi, rfl⟩ := Procedure.exists_of_mem_pathsAll procedures hq'
        exact precedes_of_lt hi

end

theorem Program.pairwise_paths (program : Program) : program.paths.Pairwise Precedes := by
  refine List.pairwise_cons.mpr ⟨fun q hq => ?_, Block.pairwise_paths program.block []⟩
  obtain ⟨front, k, rfl⟩ := Block.exists_of_mem_paths program.block hq
  exact precedes_append_cons front k []

/-! ### The scope at a path -/

/-- The scope of the procedure that the path leads to. The scope that encloses it has the
number of the path one step outwards. -/
inductive Program.ScopeOf (program : Program) : List Nat → Scope → Prop
  | procedure {k : Nat} {path : List Nat} {id : ScopeId} {s : Site} {p : Procedure} :
      program.site? path = some s → s.block.procedures[k]? = some p →
      program.paths[id]? = some path →
      ScopeOf program (k :: path)
        (({ name := p.name, level := path.length + 2, enclosing := some id } : Scope).add
          (p.params.map .var ++ p.block.declarations))

section

variable {program : Program}

mutual

/-- `before` are the paths before those of the block, so the next scope gets their number. -/
theorem Block.scopes_forall₂ : ∀ (b : Block) (before after : List (List Nat)) {path : List Nat}
    {s : Site} {id : ScopeId}, program.site? path = some s → s.block = b →
    program.paths[id]? = some path → program.paths = before ++ b.paths path ++ after →
    List.Forall₂ program.ScopeOf (b.paths path) (b.scopes id (path.length + 1) before.length)
  | .mk vars procedures body, before, after, path, s, id, h, hb, hid, hpaths => by
      refine Procedure.scopesAll_forall₂ procedures 0 before after h ?_ hid hpaths
      rw [hb]
      rfl

theorem Procedure.scopesAll_forall₂ : ∀ (procedures : List Procedure) (k : Nat)
    (before after : List (List Nat)) {path : List Nat} {s : Site} {id : ScopeId},
    program.site? path = some s →
    s.block.procedures.drop k = procedures → program.paths[id]? = some path →
    program.paths = before ++ Procedure.pathsAll path k procedures ++ after →
    List.Forall₂ program.ScopeOf (Procedure.pathsAll path k procedures)
      (Procedure.scopesAll id (path.length + 1) before.length procedures)
  | [], _, _, _, _, _, _, _, _, _, _ => .nil
  | .mk name position params block :: procedures, k, before, after, path, s, id, h, hdrop, hid,
      hpaths => by
      have hp : s.block.procedures[k]? = some (.mk name position params block) := by
        rw [← List.head?_drop, hdrop, List.head?_cons]
      have hsite := Program.site?_cons h hp
      rw [Procedure.pathsAll, Procedure.paths] at hpaths
      have hnext : program.paths[before.length]? = some (k :: path) := by
        rw [hpaths]
        simp
      -- The procedure itself has the number `before.length`, and those inside come
      -- right behind it.
      have hinside := Block.scopes_forall₂ block (before ++ [k :: path])
        (Procedure.pathsAll path (k + 1) procedures ++ after) hsite rfl hnext
        (by rw [hpaths]; simp)
      rw [List.length_append, List.length_singleton] at hinside
      have hfirst : List.Forall₂ program.ScopeOf ((k :: path) :: block.paths (k :: path))
          ((Procedure.mk name position params block).scopes id
            (path.length + 1) before.length) :=
        .cons (.procedure h hp hid) hinside
      have hdrop' : s.block.procedures.drop (k + 1) = procedures := by
        rw [← List.tail_drop, hdrop, List.tail_cons]
      have hrest := Procedure.scopesAll_forall₂ procedures (k + 1)
        (before ++ (k :: path) :: block.paths (k :: path)) after h hdrop' hid
        (by rw [hpaths]; simp)
      rw [List.length_append, hfirst.length_eq] at hrest
      exact List.rel_append hfirst hrest

end

/-- The scopes behind that of the program, each at the place of its path. -/
theorem Program.scopes_forall₂ (program : Program) :
    List.Forall₂ program.ScopeOf (program.block.paths []) (program.block.scopes 0 1 1) :=
  Block.scopes_forall₂ program.block [[]] [] (s := program.root) rfl rfl rfl
    (by simp [Program.paths])

@[simp]
theorem Program.length_scopes (program : Program) :
    program.scopes.length = program.paths.length := by
  rw [scopes, paths, List.length_cons, List.length_cons, program.scopes_forall₂.length_eq]

theorem Program.scopeOf_getElem? {id : ScopeId} {k : Nat} {path : List Nat}
    (h : program.paths[id]? = some (k :: path)) :
    ∃ s, program.scopes[id]? = some s ∧ program.ScopeOf (k :: path) s := by
  cases id with
  | zero => cases h
  | succ id =>
      rw [paths, List.getElem?_cons_succ] at h
      obtain ⟨hlt, hpath⟩ := List.getElem?_eq_some_iff.mp h
      have hlt' : id < (program.block.scopes 0 1 1).length :=
        program.scopes_forall₂.length_eq ▸ hlt
      refine ⟨(program.block.scopes 0 1 1)[id],
        by rw [scopes, List.getElem?_cons_succ]; simp, ?_⟩
      rw [← hpath]
      exact program.scopes_forall₂.get hlt hlt'

theorem Program.level_getElem? {id : ScopeId} {path : List Nat}
    (h : program.paths[id]? = some path) :
    ∃ s, program.scopes[id]? = some s ∧ s.level = path.length + 1 := by
  cases path with
  | nil =>
      -- No other path is empty.
      cases id with
      | zero => exact ⟨_, rfl, Scope.level_add _ _⟩
      | succ id =>
          obtain ⟨front, k, hnil⟩ :=
            Block.exists_of_mem_paths program.block (List.mem_of_getElem? h)
          simp at hnil
  | cons k path =>
      obtain ⟨s, hs, hscope⟩ := scopeOf_getElem? h
      cases hscope
      exact ⟨_, hs, Scope.level_add _ _⟩

end

@[simp]
theorem Scope.toList_symbols_add (s : Scope) (ds : List Declaration) :
    (s.add ds).symbols.toList = s.symbols.toList ++ ds.map (Declaration.symbol s.level) := by
  induction ds generalizing s with
  | nil => simp
  | cons d ds ih => simp [ih]

theorem Scope.toList_symbols_add_empty {name : String} {level : Nat}
    {enclosing : Option ScopeId} (ds : List Declaration) :
    (({ name, level, enclosing } : Scope).add ds).symbols.toList =
      ds.map (Declaration.symbol level) :=
  toList_symbols_add _ ds

theorem Site.declared_length (s : Site) :
    s.declared s.block.procedures.length = s.opening ++ s.block.declarations := by
  rw [declared, List.take_length, List.append_assoc, Block.declarations]

/-- A scope with distinct declarations has distinct names. -/
theorem Distinct.nodup_symbols {ds : List Declaration} (h : Distinct ds) (level : Nat) :
    ((ds.map (Declaration.symbol level)).map Symbol.name).Nodup := by
  have hnames : (ds.map (Declaration.symbol level)).map Symbol.name =
      ds.map Declaration.name := by
    rw [List.map_map]
    exact List.map_congr_left fun d _ => Declaration.name_symbol d level
  rw [hnames]
  exact h

/-- **The scopes are nested as the procedures are.** The paths of a program lead to the program
itself and to each procedure that it declares, and they are listed in the order of the
declarations, each procedure before those inside of it. The analysis has one scope for each
path, at the same place. The first one is that of the program: it is called `global`, is at
level one and inside no other, and has the types and what the block of the program declares.
The scope of a procedure has its name, is inside the scope of the block that declares it and
one level deeper, and has its parameters and what its block declares. No name comes twice in a
scope. -/
theorem scopes_are_nested_as_procedures (settings : Settings) (text : String) (j j' : Journal)
    (program : Program) (a : Analysis) (hparse : (parse settings text j).1 = .ok program)
    (hanalyze : (analyze program j').1 = .ok a) :
    (∀ path, path ∈ program.paths ↔ ∃ s, program.site? path = some s) ∧
    program.paths.Pairwise (fun path path' => path.reverse < path'.reverse) ∧
    a.scopes.size = program.paths.length ∧
    (∃ s, a.scopes.get? 0 = some s ∧ s.name = "global" ∧ s.level = 1 ∧ s.enclosing = none ∧
      s.symbols.toList = [.type .integer, .type .real, .type .string] ++
        program.block.declarations.map (Declaration.symbol 1) ∧
      (s.symbols.toList.map Symbol.name).Nodup) ∧
    ∀ id k path, program.paths[id]? = some (k :: path) →
      ∃ declaring p outerId outer s, program.site? path = some declaring ∧
        declaring.block.procedures[k]? = some p ∧ program.paths[outerId]? = some path ∧
        a.scopes.get? outerId = some outer ∧ a.scopes.get? id = some s ∧ s.name = p.name ∧
        s.enclosing = some outerId ∧ s.level = outer.level + 1 ∧
        s.symbols.toList = (p.params.map fun d => Symbol.var d.symbol) ++
          p.block.declarations.map (Declaration.symbol s.level) ∧
        (s.symbols.toList.map Symbol.name).Nodup := by
  have hregular := Program.regular_of_parse hparse
  have hscopes := hregular.scopes_eq hanalyze
  have hresolves := hregular.resolves hanalyze
  have hget : ∀ id, a.scopes.get? id = program.scopes[id]? := fun id => by
    rw [ScopeTree.get?, ← hscopes, Array.getElem?_toList]
  refine ⟨fun _ => Program.mem_paths_iff, program.pairwise_paths, ?_, ?_, ?_⟩
  · rw [ScopeTree.size, ← Array.length_toList, hscopes, program.length_scopes]
  · have hroot : program.site? [] = some program.root := rfl
    have hnames := (hresolves.distinct hroot).nodup_symbols 1
    rw [Site.declared_length, List.map_append] at hnames
    refine ⟨_, hget 0, Scope.name_add _ _, Scope.level_add _ _, Scope.enclosing_add _ _,
      Scope.toList_symbols_add _ _, ?_⟩
    rw [Scope.toList_symbols_add]
    exact hnames
  · intro id k path hpath
    obtain ⟨s, hs, hscope⟩ := Program.scopeOf_getElem? hpath
    cases hscope with
    | @procedure _ _ outerId declaring p hdeclaring hp houter =>
        obtain ⟨outer, houterScope, hlevel⟩ := Program.level_getElem? houter
        have hdistinct := hresolves.distinct (Program.site?_cons hdeclaring hp)
        have hnames := hdistinct.nodup_symbols (path.length + 2)
        refine ⟨declaring, p, outerId, outer, _, hdeclaring, hp, houter,
          (hget _).trans houterScope, (hget id).trans hs, Scope.name_add _ _,
          Scope.enclosing_add _ _, ?_, ?_, ?_⟩
        · rw [Scope.level_add, hlevel]
        · rw [Scope.toList_symbols_add_empty, Scope.level_add, List.map_append, List.map_map]
          rfl
        · rw [Scope.toList_symbols_add_empty]
          rw [Site.declared_length] at hnames
          exact hnames

/-- A procedure with another one inside, and one behind both. -/
def siblingsText : String :=
  "program P; var n : integer; procedure A; procedure B(x, y : real); var s : string; " ++
    "begin end; begin end; procedure C; begin end; begin end."

/-- `B` has the third scope, inside the second one. -/
theorem siblingsText_scopes :
    ∃ program a, (parse {} siblingsText { traces := [], dumps := [] }).1 = .ok program ∧
      (analyze program { traces := [], dumps := [] }).1 = .ok a ∧
      program.paths = [[], [0], [0, 0], [1]] ∧ a.scopes.size = 4 ∧
      ∃ declaring p outerId outer s, program.site? [0] = some declaring ∧
        declaring.block.procedures[0]? = some p ∧ program.paths[outerId]? = some [0] ∧
        a.scopes.get? outerId = some outer ∧ a.scopes.get? 2 = some s ∧ s.name = p.name ∧
        s.enclosing = some outerId ∧ s.level = outer.level + 1 ∧
        s.symbols.toList = (p.params.map fun d => Symbol.var d.symbol) ++
          p.block.declarations.map (Declaration.symbol s.level) ∧
        (s.symbols.toList.map Symbol.name).Nodup := by
  obtain ⟨program, a, hparse, hanalyze, hpaths⟩ :=
    exists_analysis_any {} siblingsText { traces := [], dumps := [] }
      { traces := [], dumps := [] }
      (fun p _ => p.paths = [[], [0], [0, 0], [1]]) (by decide +kernel)
  have hpaths : program.paths = [[], [0], [0, 0], [1]] := of_decide_eq_true hpaths
  obtain ⟨-, -, hsize, -, hscopes⟩ :=
    scopes_are_nested_as_procedures {} siblingsText _ _ program a hparse hanalyze
  rw [hpaths] at hsize
  exact ⟨program, a, hparse, hanalyze, hpaths, hsize, hscopes 2 0 [0] (by rw [hpaths]; rfl)⟩

end MiniPascal
