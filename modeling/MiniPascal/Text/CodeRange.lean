/-!
Sets of characters given by ranges of code points. Both ends of a range belong to it, and the
ranges of a set stand in ascending order, so that a search stops at the first range above the
character.
-/

namespace MiniPascal.Text

abbrev CodeRange := Nat × Nat

def inRanges : List CodeRange → Nat → Bool
  | [], _ => false
  | (first, last) :: ranges, n =>
      if n < first then false else if n ≤ last then true else inRanges ranges n

theorem exists_mem_of_inRanges {ranges : List CodeRange} {n : Nat}
    (h : inRanges ranges n = true) :
    ∃ r ∈ ranges, r.1 ≤ n ∧ n ≤ r.2 := by
  induction ranges with
  | nil => simp [inRanges] at h
  | cons r ranges ih =>
      obtain ⟨first, last⟩ := r
      simp only [inRanges] at h
      split at h
      · simp at h
      · split at h
        · exact ⟨(first, last), by simp, by simp; omega⟩
        · obtain ⟨r, hr, hle⟩ := ih h
          exact ⟨r, List.mem_cons_of_mem _ hr, hle⟩

end MiniPascal.Text
