import MiniPascal.Analysis.Walk
import MiniPascal.Proofs.Syntax.Uses

/-!
What the places of a program can see. A view lists the scopes around a place, the nearest
first, each with the declarations that come before the place; a name means the first
declaration of that name in the nearest scope that has one.

The scopes of a program are found by paths. The empty path leads to the program itself, and `k
:: path` to the procedure `k` of the block that `path` leads to. So the way outwards from a
scope drops numbers from the front of its path, and the level of a scope is one more than the
length of its path.
-/

namespace MiniPascal

inductive Declaration where
  | type (t : DataType)
  | var (d : VarDecl)
  | procedure (p : Procedure)

def VarDecl.symbol (d : VarDecl) : VarSymbol := ⟨d.name, d.type⟩

/-- The symbol of a procedure that is declared in a scope of the given level. -/
def Procedure.symbol (p : Procedure) (level : Nat) : ProcedureSymbol :=
  ⟨p.name, p.params.map VarDecl.symbol, p.block, level⟩

@[simp]
theorem Procedure.block_symbol (p : Procedure) (level : Nat) :
    (p.symbol level).block = p.block :=
  rfl

@[simp]
theorem Procedure.length_params_symbol (p : Procedure) (level : Nat) :
    (p.symbol level).params.length = p.params.length := List.length_map _

namespace Declaration

def name : Declaration → String
  | .type t => t.name
  | .var d => d.name
  | .procedure p => p.name

def kind : Declaration → SymbolKind
  | .type _ => .type
  | .var _ => .var
  | .procedure _ => .procedure

def symbol (level : Nat) : Declaration → Symbol
  | .type t => .type t
  | .var d => .var d.symbol
  | .procedure p => .procedure (p.symbol level)

@[simp]
theorem name_symbol (d : Declaration) (level : Nat) : (d.symbol level).name = d.name := by
  cases d <;> rfl

/-- What is declared before any program. -/
def predeclared : List Declaration := [.type .integer, .type .real, .type .string]

end Declaration

/-- The scopes around a place, the nearest first, each with what it declares before that
place. -/
abbrev View := List (List Declaration)

namespace View

/-- The declaration that a name means, and the level of the scope that declares it. -/
def resolve? (name : String) : View → Option (Declaration × Nat)
  | [] => none
  | ds :: outer =>
      match ds.find? (·.name = name) with
      | some d => some (d, outer.length + 1)
      | none => resolve? name outer

def binding? (view : View) (v : Variable) : Option VarBinding :=
  match resolve? v.name view with
  | some (.var d, level) => some ⟨level, d.type⟩
  | _ => none

def callee? (view : View) (c : Call) : Option ProcedureSymbol :=
  match resolve? c.name view with
  | some (.procedure p, level) => some (p.symbol level)
  | _ => none

theorem resolve?_cons_of_some {name : String} {ds : List Declaration} {outer : View}
    {d : Declaration} (h : ds.find? (·.name = name) = some d) :
    resolve? name (ds :: outer) = some (d, outer.length + 1) := by
  rw [resolve?, h]

theorem resolve?_cons_of_none {name : String} {ds : List Declaration} {outer : View}
    (h : ds.find? (·.name = name) = none) :
    resolve? name (ds :: outer) = resolve? name outer := by
  rw [resolve?, h]

/-- The declaration is in the scope of its level, and no nearer scope has one of that name. -/
theorem exists_of_resolve? {name : String} {view : View} {d : Declaration} {level : Nat}
    (h : resolve? name view = some (d, level)) :
    ∃ ds outer, level = outer.length + 1 ∧ ds :: outer <:+ view ∧
      ds.find? (·.name = name) = some d := by
  induction view with
  | nil => cases h
  | cons ds outer ih =>
      cases hds : ds.find? (·.name = name) with
      | some d' =>
          rw [resolve?_cons_of_some hds] at h
          cases h
          exact ⟨ds, outer, rfl, List.suffix_refl _, hds⟩
      | none =>
          rw [resolve?_cons_of_none hds] at h
          obtain ⟨ds', outer', hlevel, hsuffix, hd⟩ := ih h
          exact ⟨ds', outer', hlevel, hsuffix.trans (List.suffix_cons ds outer), hd⟩

theorem name_of_resolve? {name : String} {view : View} {d : Declaration} {level : Nat}
    (h : resolve? name view = some (d, level)) : d.name = name := by
  obtain ⟨ds, outer, -, -, hd⟩ := exists_of_resolve? h
  simpa using List.find?_some hd

end View

/-- A scope of a program: its block, what it declares before the block, and what can be seen
around it. -/
structure Site where
  block : Block
  opening : List Declaration
  outer : View

namespace Site

/-- What is declared in the scope when `k` procedures of its block have been declared. -/
def declared (s : Site) (k : Nat) : List Declaration :=
  s.opening ++ s.block.vars.map .var ++ (s.block.procedures.take k).map .procedure

theorem declared_sublist (s : Site) (k : Nat) :
    (s.declared k).Sublist (s.declared s.block.procedures.length) := by
  rw [declared, declared, List.take_length]
  exact (List.Sublist.refl _).append ((List.take_sublist k _).map _)

/-- What the body of the block can see. -/
def view (s : Site) : View := s.declared s.block.procedures.length :: s.outer

/-- The scope of a procedure, which sees its own name and the procedures before it. -/
def inside (s : Site) (k : Nat) (p : Procedure) : Site :=
  ⟨p.block, p.params.map .var, s.declared (k + 1) :: s.outer⟩

def enter? (s : Site) (k : Nat) : Option Site := (s.block.procedures[k]?).map (s.inside k)

theorem enter?_eq_some {s s' : Site} {k : Nat} (h : s.enter? k = some s') :
    ∃ p, s.block.procedures[k]? = some p ∧ s' = s.inside k p := by
  obtain ⟨p, hp, rfl⟩ := Option.map_eq_some_iff.mp h
  exact ⟨p, hp, rfl⟩

end Site

namespace Program

def root (program : Program) : Site := ⟨program.block, Declaration.predeclared, []⟩

/-- The scope that a path leads to. -/
def site? (program : Program) : List Nat → Option Site
  | [] => some program.root
  | k :: path => (program.site? path).bind (·.enter? k)

variable {program : Program} {path : List Nat} {s s' : Site} {k : Nat}

theorem site?_cons_eq_some (h : program.site? (k :: path) = some s') :
    ∃ s p, program.site? path = some s ∧ s.block.procedures[k]? = some p ∧
    s' = s.inside k p := by
  obtain ⟨s, hs, hs'⟩ := Option.bind_eq_some_iff.mp h
  obtain ⟨p, hp, rfl⟩ := Site.enter?_eq_some hs'
  exact ⟨s, p, hs, hp, rfl⟩

theorem site?_cons {p : Procedure} (hs : program.site? path = some s)
    (hp : s.block.procedures[k]? = some p) :
    program.site? (k :: path) = some (s.inside k p) := by
  rw [site?, hs, Option.bind_some, Site.enter?, hp, Option.map_some]

/-- What every procedure takes over from the block that declares it holds in all scopes. -/
theorem site_block {P : Block → Prop}
    (hP : ∀ (b : Block) (p : Procedure), p ∈ b.procedures → P b → P p.block)
    (h : P program.block) (hs : program.site? path = some s) : P s.block := by
  induction path generalizing s with
  | nil =>
      cases hs
      exact h
  | cons k path ih =>
      obtain ⟨s₀, p, hs₀, hp, rfl⟩ := site?_cons_eq_some hs
      exact hP s₀.block p (List.mem_of_getElem? hp) (ih hs₀)

theorem length_outer (h : program.site? path = some s) : s.outer.length = path.length := by
  induction path generalizing s with
  | nil =>
      cases h
      rfl
  | cons k path ih =>
      obtain ⟨s₀, p, hs₀, -, rfl⟩ := site?_cons_eq_some h
      rw [Site.inside, List.length_cons, ih hs₀, List.length_cons]

/-- Each scope that can be seen is one on the way outwards, cut off behind some procedure. -/
theorem exists_site_of_suffix {ds : List Declaration} {outer : View} {n : Nat}
    (h : program.site? path = some s) (hsuffix : ds :: outer <:+ s.declared n :: s.outer) :
    ∃ declaring s' k, declaring <:+ path ∧ program.site? declaring = some s' ∧
      ds = s'.declared k ∧ outer = s'.outer := by
  induction path generalizing s n with
  | nil =>
      rcases List.suffix_cons_iff.mp hsuffix with heq | hsuffix
      · cases heq
        exact ⟨[], s, n, List.suffix_refl _, h, rfl, rfl⟩
      · cases h
        exact absurd hsuffix.length_le (by simp [Program.root])
  | cons k path ih =>
      rcases List.suffix_cons_iff.mp hsuffix with heq | hsuffix
      · cases heq
        exact ⟨k :: path, s, n, List.suffix_refl _, h, rfl, rfl⟩
      · obtain ⟨s₀, p, hs₀, -, rfl⟩ := site?_cons_eq_some h
        obtain ⟨declaring, s', k', hdeclaring, hs', hds, houter⟩ := ih hs₀ hsuffix
        exact ⟨declaring, s', k', hdeclaring.trans (List.suffix_cons k path), hs', hds, houter⟩

/-- The scope that the path leads to declares `d`. -/
def Declares (program : Program) (path : List Nat) (d : Declaration) : Prop :=
  ∃ s, program.site? path = some s ∧ d ∈ s.declared s.block.procedures.length

theorem mem_declared_of_mem {d : Declaration} (h : d ∈ s.declared k) :
    d ∈ s.declared s.block.procedures.length := (s.declared_sublist k).subset h

/-- A name means a declaration of a scope on the way outwards, and the level is the level of
that scope. -/
theorem declares_of_resolve? {name : String} {d : Declaration} {level : Nat}
    (h : program.site? path = some s) (hname : View.resolve? name s.view = some (d, level)) :
    ∃ declaring, declaring <:+ path ∧ level = declaring.length + 1 ∧
    program.Declares declaring d := by
  obtain ⟨ds, outer, rfl, hsuffix, hd⟩ := View.exists_of_resolve? hname
  obtain ⟨declaring, s', k, hdeclaring, hs', rfl, rfl⟩ := exists_site_of_suffix h hsuffix
  refine ⟨declaring, hdeclaring, by rw [length_outer hs'], s', hs', ?_⟩
  exact mem_declared_of_mem (List.mem_of_find?_eq_some hd)

theorem exists_getElem?_of_mem_declared {p : Procedure} (h : program.site? path = some s)
    (hp : .procedure p ∈ s.declared k) : ∃ i < k, s.block.procedures[i]? = some p := by
  have hopening : .procedure p ∉ s.opening := by
    cases path with
    | nil =>
        cases h
        simp [Program.root, Declaration.predeclared]
    | cons i path =>
        obtain ⟨s₀, p₀, -, -, rfl⟩ := site?_cons_eq_some h
        simp [Site.inside]
  have htake : p ∈ s.block.procedures.take k := by
    simpa [Site.declared, hopening, -List.map_take] using hp
  obtain ⟨i, hi⟩ := List.mem_iff_getElem?.mp htake
  have hik : i < k := by
    have hlt := (List.getElem?_eq_some_iff.mp hi).1
    rw [List.length_take] at hlt
    omega
  rw [List.getElem?_take_of_lt hik] at hi
  exact ⟨i, hik, hi⟩

theorem Declares.exists_procedure {p : Procedure} (h : program.Declares path (.procedure p)) :
    ∃ (s : Site) (k : Nat), program.site? path = some s ∧ s.block.procedures[k]? = some p := by
  obtain ⟨s, hs, hp⟩ := h
  obtain ⟨k, -, hk⟩ := exists_getElem?_of_mem_declared hs hp
  exact ⟨s, k, hs, hk⟩

end Program

/-! ### Every use stands in the body of some scope -/

mutual

theorem Block.exists_site_of_mem_uses {program : Program} {u : Use} :
    ∀ (b : Block) {path : List Nat} {opening : List Declaration} {outer : View},
      program.site? path = some ⟨b, opening, outer⟩ → u ∈ b.uses →
      ∃ path s, program.site? path = some s ∧ u ∈ Statement.usesAll s.block.body
  | .mk vars procedures body, path, opening, outer, h, hu => by
      rcases List.mem_append.mp hu with hu | hu
      · exact Procedure.exists_site_of_mem_usesAll procedures 0 h rfl hu
      · exact ⟨path, _, h, hu⟩

theorem Procedure.exists_site_of_mem_usesAll {program : Program} {u : Use} :
    ∀ (procedures : List Procedure) (k : Nat) {path : List Nat} {s : Site},
      program.site? path = some s → s.block.procedures.drop k = procedures →
      u ∈ Procedure.usesAll procedures →
      ∃ path s, program.site? path = some s ∧ u ∈ Statement.usesAll s.block.body
  | [], _, _, _, _, _, hu => by cases hu
  | .mk name position params block :: procedures, k, path, s, h, hdrop, hu => by
      rcases List.mem_append.mp hu with hu | hu
      · have hp : s.block.procedures[k]? = some (.mk name position params block) := by
          rw [← List.head?_drop, hdrop, List.head?_cons]
        exact Block.exists_site_of_mem_uses block (Program.site?_cons h hp) hu
      · have hdrop' : s.block.procedures.drop (k + 1) = procedures := by
          rw [← List.tail_drop, hdrop, List.tail_cons]
        exact Procedure.exists_site_of_mem_usesAll procedures (k + 1) h hdrop' hu

end

theorem Program.exists_site_of_mem_uses {program : Program} {u : Use}
    (hu : u ∈ program.block.uses) :
    ∃ path s, program.site? path = some s ∧ u ∈ Statement.usesAll s.block.body := by
  have hroot : program.site? [] = some program.root := rfl
  exact Block.exists_site_of_mem_uses program.block hroot hu

end MiniPascal
