import Mathlib.Data.List.TakeWhile
import MiniPascal.Proofs.Text.Position
import MiniPascal.Proofs.Token.Piece
import MiniPascal.Text.Line

/-!
Lines by counting. The number of newlines before a place in a text tells which of the text's
lines the place is on, and the characters since the last of them are those before it on that
line. A return may be cut off from the end of the line, but nothing before a character that is
no return.
-/

namespace MiniPascal.Text

/-! ### The line of a place -/

section

variable {α : Type} [DecidableEq α] {newline cr : α} {line : List α}

/-- What has been begun is not cut off as long as its last character is no return. -/
theorem exists_head?_linesFrom {c : α} (hc : c ≠ cr) (newline : α) (line more rest : List α) :
    ∃ others, (linesFrom newline cr (more ++ c :: line) rest).head? =
      some (line.reverse ++ c :: others) := by
  induction rest generalizing more with
  | nil => exact ⟨more.reverse, by simp [linesFrom]⟩
  | cons d rest ih =>
      rw [linesFrom]
      split
      · -- The line ends here, and what comes after `c` may lose a return.
        cases more with
        | nil => exact ⟨[], by simp [dropReturn, hc]⟩
        | cons m more =>
            by_cases hm : m = cr
            · exact ⟨more.reverse, by simp [dropReturn, hm]⟩
            · exact ⟨(m :: more).reverse, by simp [dropReturn, hm]⟩
      · exact ih (d :: more)

/-- Only what comes before the first `c` counts. -/
theorem takeWhile_append_cons (c : α) (xs ys : List α) :
    (xs ++ c :: ys).takeWhile (· ≠ c) = xs.takeWhile (· ≠ c) := by
  induction xs with
  | nil => simp
  | cons x xs ih => rw [List.cons_append, List.takeWhile_cons, List.takeWhile_cons, ih]

/-- The line that stands at the number of newlines before a place. -/
theorem getElem?_linesFrom (hline : newline ∉ line) (before rest : List α) :
    (linesFrom newline cr line (before ++ rest))[before.count newline]? =
      (linesFrom newline cr ((before.reverse ++ line).takeWhile (· ≠ newline))
        rest).head? := by
  induction before generalizing line with
  | nil =>
      have hall : line.takeWhile (· ≠ newline) = line :=
        List.takeWhile_eq_self_iff.mpr fun c hc => by
          have hne : c ≠ newline := fun heq => hline (heq ▸ hc)
          simpa using hne
      rw [List.nil_append, List.reverse_nil, List.nil_append, hall, List.count_nil,
        List.head?_eq_getElem?]
  | cons c before ih =>
      rw [List.cons_append, linesFrom, List.reverse_cons, List.append_assoc,
        List.singleton_append]
      by_cases hc : c = newline
      · -- All that was begun is on an earlier line.
        subst hc
        rw [if_pos rfl, List.count_cons_self, List.getElem?_cons_succ, ih List.not_mem_nil,
          takeWhile_append_cons, List.append_nil]
      · have hline' : newline ∉ c :: line := by simp [Ne.symm hc, hline]
        rw [if_neg hc, List.count_cons_of_ne hc, ih hline']

theorem newline_notMem_linesFrom (hline : newline ∉ line) {cs l : List α}
    (h : l ∈ linesFrom newline cr line cs) : newline ∉ l := by
  induction cs generalizing line with
  | nil =>
      rw [linesFrom] at h
      split at h
      · cases h
      · rw [List.mem_singleton.mp h, List.mem_reverse]
        exact hline
  | cons c cs ih =>
      rw [linesFrom] at h
      split at h
      · rcases List.mem_cons.mp h with rfl | h
        · rw [List.mem_reverse]
          cases line with
          | nil => exact List.not_mem_nil
          | cons d line =>
              rw [dropReturn]
              split
              · exact fun hmem => hline (List.mem_cons_of_mem d hmem)
              · exact hline
        · exact ih List.not_mem_nil h
      next hc =>
        have hline' : newline ∉ c :: line := by simp [Ne.symm hc, hline]
        exact ih hline' h

end

/-! ### The last lines of a text -/

/-- The last two lines of a text that ends with a newline and has more lines before them. -/
def LastRows (text row last : List Char) : Prop :=
  (∃ above, text = above ++ '\n' :: (row ++ '\n' :: (last ++ ['\n']))) ∧
  '\n' ∉ row ∧ '\n' ∉ last

/-- A text has its last two lines in one way only. -/
theorem LastRows.unique {text row row' last last' : List Char} (h : LastRows text row last)
    (h' : LastRows text row' last') : row = row' ∧ last = last' := by
  obtain ⟨⟨above, rfl⟩, hrow, hlast⟩ := h
  obtain ⟨⟨above', heq⟩, hrow', hlast'⟩ := h'
  -- Read backwards, each of the two lines is what stands before the next newline.
  have hback : last.reverse ++ '\n' :: (row.reverse ++ '\n' :: above.reverse) =
      last'.reverse ++ '\n' :: (row'.reverse ++ '\n' :: above'.reverse) := by
    simpa using congrArg List.reverse heq
  have hlasts := eq_of_append_cons_eq (by simpa using hlast) (by simpa using hlast') hback
  rw [hlasts] at hback
  have hrows := eq_of_append_cons_eq (by simpa using hrow) (by simpa using hrow')
    (List.cons.inj (List.append_cancel_left hback)).2
  exact ⟨List.reverse_inj.mp hrows, List.reverse_inj.mp hlasts⟩

end MiniPascal.Text
