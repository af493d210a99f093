import MiniPascal.Position

/-!
Positions by counting. The position behind a piece of text is told by its newlines and by the
characters since the last of them; keeping line and column character by character comes to the
same. Going on in a text leads to later positions.
-/

namespace MiniPascal.Position

/-- The position of what follows `before` from the start of a text. -/
def behind (before : List Char) : Position :=
  ⟨1 + before.count '\n', 1 + (before.reverse.takeWhile (· ≠ '\n')).length⟩

@[simp]
theorem behind_concat (before : List Char) (c : Char) :
    behind (before ++ [c]) = (behind before).next c := by
  by_cases hc : c = '\n'
  · simp [behind, next, hc]
    omega
  · simp [behind, next, hc]
    omega

@[simp]
theorem behind_append (before cs : List Char) :
    behind (before ++ cs) = (behind before).after cs := by
  induction cs generalizing before with
  | nil => simp
  | cons c cs ih => rw [List.append_cons, ih, behind_concat, after_cons]

/-- Lines first, then columns. -/
def Before (p q : Position) : Prop := p.line < q.line ∨ p.line = q.line ∧ p.column < q.column

theorem Before.trans {p q r : Position} (h : p.Before q) (h' : q.Before r) : p.Before r := by
  unfold Before at *
  omega

theorem before_next (p : Position) (c : Char) : p.Before (p.next c) := by
  unfold Before next
  split
  · exact .inl (Nat.lt_succ_self _)
  · exact .inr ⟨rfl, Nat.lt_succ_self _⟩

theorem before_after {p : Position} {cs : List Char} (h : cs ≠ []) :
    p.Before (p.after cs) := by
  induction cs generalizing p with
  | nil => exact absurd rfl h
  | cons c cs ih =>
      rw [after_cons]
      cases cs with
      | nil => exact before_next p c
      | cons d cs => exact (before_next p c).trans (ih (List.cons_ne_nil d cs))

end MiniPascal.Position
