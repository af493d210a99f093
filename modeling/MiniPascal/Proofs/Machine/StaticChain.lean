import MiniPascal.Machine.Exec
import MiniPascal.Proofs.Scope.View

/-!
The static chain. Each frame of a call stack runs the body of one scope, found by a path of the
program; and the link of a frame leads to a frame, further down, of the scope around it. So the
search for a level ends in a frame of the scope on the way outwards that has that level.
-/

namespace MiniPascal

/-- The frame at the place `i` runs the scope of a path, where `paths` are the paths of all
frames. -/
inductive Frame.Runs (program : Program) (paths : List (List Nat)) (i : Nat) (f : Frame) :
    List Nat → Prop
  | program : i = 0 → f.kind = .program → f.name = program.name → f.level = 1 → f.link = none →
      Runs program paths i f []
  | procedure {k j : Nat} {outer : List Nat} {s : Site} {p : Procedure} :
      0 < i → program.site? outer = some s → s.block.procedures[k]? = some p →
      f.kind = .procedure → f.name = p.name → f.level = outer.length + 2 →
      f.link = some j → j < i → paths[j]? = some outer → Runs program paths i f (k :: outer)

/-- Every frame runs the scope of its path. -/
structure StaticChain (program : Program) (paths : List (List Nat)) (stack : CallStack) :
    Prop where
  size : stack.size = paths.length
  runs {i : Nat} {f : Frame} {path : List Nat} :
    stack.get? i = some f → paths[i]? = some path → f.Runs program paths i path

namespace Frame.Runs

variable {program : Program} {paths paths' : List (List Nat)} {i : Nat} {f f' : Frame}
  {path : List Nat}

theorem level_eq (h : f.Runs program paths i path) : f.level = path.length + 1 := by
  cases h with
  | program _ _ _ hlevel _ => exact hlevel
  | procedure _ _ _ _ _ hlevel _ _ _ => exact hlevel

theorem link_lt {j : Nat} (h : f.Runs program paths i path) (hlink : f.link = some j) :
    j < i := by
  cases h with
  | program _ _ _ _ hnone => exact absurd (hlink.symm.trans hnone) (Option.some_ne_none j)
  | procedure _ _ _ _ _ _ hsome hlt _ =>
      obtain rfl := Option.some.inj (hlink.symm.trans hsome)
      exact hlt

/-- Members do not matter, and neither do frames further up. -/
theorem congr (h : f.Runs program paths i path) (hname : f'.name = f.name)
    (hkind : f'.kind = f.kind) (hlevel : f'.level = f.level) (hlink : f'.link = f.link)
    (hpaths : ∀ j < i, paths'[j]? = paths[j]?) : f'.Runs program paths' i path := by
  cases h with
  | program hi hk hn hl hlk =>
      exact .program hi (hkind.trans hk) (hname.trans hn) (hlevel.trans hl) (hlink.trans hlk)
  | procedure hi hs hp hk hn hl hlk hj hpath =>
      exact .procedure hi hs hp (hkind.trans hk) (hname.trans hn) (hlevel.trans hl)
        (hlink.trans hlk) hj ((hpaths _ hj).trans hpath)

end Frame.Runs

namespace StaticChain

variable {program : Program} {paths : List (List Nat)} {stack : CallStack} {path : List Nat}

theorem lt_of_getElem? {i : Nat} (h : StaticChain program paths stack)
    (hpath : paths[i]? = some path) :
    i < stack.size := by
  rw [h.size]
  exact (List.getElem?_eq_some_iff.mp hpath).1

theorem exists_frame {i : Nat} (h : StaticChain program paths stack)
    (hpath : paths[i]? = some path) :
    ∃ f, stack.get? i = some f ∧ f.Runs program paths i path := by
  obtain ⟨f, hget⟩ := CallStack.exists_get?_of_lt (h.lt_of_getElem? hpath)
  exact ⟨f, hget, h.runs hget hpath⟩

/-- From a frame, the search finds the scope on the way outwards that has the level. -/
theorem searchUpTo {declaring : List Nat} {i n : Nat} (h : StaticChain program paths stack)
    (hpath : paths[i]? = some path) (hsuffix : declaring <:+ path) (hn : i < n) :
    ∃ j, stack.searchUpTo (declaring.length + 1) n i = .found j ∧
    paths[j]? = some declaring := by
  -- Links lead downwards, so the place of a frame bounds how many can be followed from it.
  induction n generalizing i path with
  | zero => exact absurd hn (Nat.not_lt_zero i)
  | succ n ih =>
      obtain ⟨f, hget, hruns⟩ := h.exists_frame hpath
      have hlevel := hruns.level_eq
      rcases Nat.eq_or_lt_of_le hsuffix.length_le with hlength | hlength
      · obtain rfl := hsuffix.eq_of_length hlength
        refine ⟨i, ?_, hpath⟩
        rw [CallStack.searchUpTo, hget]
        simp [hlevel]
      · cases hruns with
        | program _ _ _ _ _ => exact absurd hlength (Nat.not_lt_zero _)
        | procedure _ _ _ _ _ _ hlink hj houter =>
            have hsuffix' := (List.suffix_cons_iff.mp hsuffix).resolve_left
              fun heq => Nat.ne_of_lt hlength (congrArg List.length heq)
            obtain ⟨m, hm, hdeclaring⟩ := ih houter hsuffix' (by omega)
            refine ⟨m, ?_, hdeclaring⟩
            rw [CallStack.searchUpTo, hget]
            have hne : f.level ≠ declaring.length + 1 := by omega
            have hnlt : ¬ f.level < declaring.length + 1 := by omega
            simp only [if_neg hne, if_neg hnlt, hlink]
            exact hm

/-- From the top frame too. -/
theorem findLevel {declaring : List Nat} (h : StaticChain program paths stack)
    (hpath : paths.getLast? = some path) (hsuffix : declaring <:+ path) :
    ∃ j, stack.findLevel (declaring.length + 1) = .found j ∧ paths[j]? = some declaring := by
  rw [List.getLast?_eq_getElem?] at hpath
  have hlt := (List.getElem?_eq_some_iff.mp hpath).1
  rw [← h.size] at hpath hlt
  obtain ⟨j, hj, hdeclaring⟩ := h.searchUpTo hpath hsuffix hlt
  refine ⟨j, ?_, hdeclaring⟩
  rw [CallStack.findLevel, if_neg (Nat.ne_zero_of_lt hlt), hj]

/-! ### What changes a stack -/

theorem assign (h : StaticChain program paths stack) (index : Nat) (name : String)
    (v : Value) :
    StaticChain program paths (stack.assign index name v) := by
  refine ⟨?_, ?_⟩
  · rw [← h.size]
    exact Array.size_modify
  · intro i f path hget hpath
    obtain ⟨f₀, hget₀, rfl⟩ := CallStack.exists_of_get?_assign hget
    split
    · exact (h.runs hget₀ hpath).congr rfl rfl rfl rfl fun _ _ => rfl
    · exact h.runs hget₀ hpath

theorem push {f : Frame} (h : StaticChain program paths stack)
    (hf : f.Runs program paths paths.length path) :
    StaticChain program (paths ++ [path]) (stack.push f) := by
  have hold : ∀ j < paths.length, (paths ++ [path])[j]? = paths[j]? :=
    fun j hj => List.getElem?_append_left hj
  refine ⟨?_, ?_⟩
  · rw [CallStack.size_push, List.length_append, List.length_singleton, h.size]
  · intro i g path' hget hpath
    rcases Nat.lt_or_ge i stack.size with hi | hi
    · rw [CallStack.get?_push_of_lt hi] at hget
      rw [h.size] at hi
      rw [hold i hi] at hpath
      exact (h.runs hget hpath).congr rfl rfl rfl rfl fun j hj => hold j (Nat.lt_trans hj hi)
    · obtain rfl : i = stack.size := by
        have hlt := (List.getElem?_eq_some_iff.mp hpath).1
        rw [List.length_append, List.length_singleton, ← h.size] at hlt
        omega
      rw [CallStack.get?_push_size] at hget
      rw [h.size, List.getElem?_concat_length] at hpath
      cases hget
      cases hpath
      rw [h.size]
      exact hf.congr rfl rfl rfl rfl hold

theorem pop (h : StaticChain program (paths ++ [path]) stack) :
    StaticChain program paths stack.pop := by
  have hold : ∀ j < paths.length, (paths ++ [path])[j]? = paths[j]? :=
    fun j hj => List.getElem?_append_left hj
  have hsize : stack.size = paths.length + 1 := by
    have hs := h.size
    rwa [List.length_append] at hs
  refine ⟨?_, ?_⟩
  · rw [CallStack.size_pop, hsize, Nat.add_sub_cancel]
  · intro i f path' hget hpath
    have hlt := (List.getElem?_eq_some_iff.mp hpath).1
    exact (h.runs (CallStack.get?_of_get?_pop hget) ((hold i hlt).trans hpath)).congr
      rfl rfl rfl rfl
      fun j hj => (hold j (Nat.lt_trans hj hlt)).symm

end StaticChain

end MiniPascal
