/-!
What comes of a computation that has two parts, one after the other. The second part starts if
the first one ends well, and an error is that of the part that fails.
-/

namespace MiniPascal

section Result

variable {ε α β : Type} {x : Except ε α} {f : α → Except ε β}

@[simp]
theorem ok_bind (r : α) (f : α → Except ε β) : (Except.ok r >>= f) = f r := rfl

@[simp]
theorem error_bind (e : ε) (f : α → Except ε β) : (Except.error e >>= f) = .error e := rfl

theorem exists_of_bind_eq_ok {b : β} (h : x >>= f = .ok b) : ∃ r, x = .ok r ∧ f r = .ok b := by
  cases x with
  | error e => cases h
  | ok r => exact ⟨r, rfl, h⟩

/-- An error comes from the first of two parts or from the second. -/
theorem error_of_bind_eq_error {e : ε} (h : x >>= f = .error e) :
    x = .error e ∨ ∃ r, x = .ok r ∧ f r = .error e := by
  cases x with
  | error e' => exact .inl (congrArg Except.error (Except.error.inj h))
  | ok r => exact .inr ⟨r, rfl, h⟩

end Result

section State

variable {ε σ α β : Type} {x : EStateM ε σ α} {f : α → EStateM ε σ β} {s s' : σ}
    {r : α} {e : ε}

theorem bind_of_ok (h : x s = .ok r s') : (x >>= f) s = f r s' := by
  change EStateM.bind x f s = f r s'
  rw [EStateM.bind, h]

theorem bind_of_error (h : x s = .error e s') : (x >>= f) s = .error e s' := by
  change EStateM.bind x f s = .error e s'
  rw [EStateM.bind, h]

end State

end MiniPascal
