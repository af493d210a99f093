import MiniPascal.Proofs.Token.Exactness

/-!
The places of a text that positions point at. A text is cut into pieces from its start; a
position points at the first character of a token, at something that cannot be read, or at the
end of the text.
-/

namespace MiniPascal

/-- What starts at a position: a token, something that cannot be read (a character that starts
no piece, a quote or a brace that is not closed, a literal that is out of range), or nothing
more. -/
inductive Landmark (p : Position) : List Char → Prop
  | token {q : Piece} {rest : List Char} {t : Token} :
      q.LongestIn (q.chars ++ rest) → q.InRange → q.token? p = some t →
      Landmark p (q.chars ++ rest)
  | unreadable {rest : List Char} {e : LexicalError} : Unreadable p rest e → Landmark p rest
  | ending : Landmark p []

/-- The text is read in pieces up to the position, and `rest` starts there with a landmark. -/
def Position.PointsAt (p : Position) (text : String) (rest : List Char) : Prop :=
  ∃ pieces, Segmented pieces text.toList rest ∧ p = .behind (pieces.flatMap Piece.chars) ∧
    Landmark p rest

/-! ### First characters -/

theorem Piece.stops_isBlank {q : Piece} (h : q.lead ≠ .blank) (rest : List Char) :
    Stops Text.isBlank (q.chars ++ rest) := by
  obtain ⟨c, cs, hcs, hlead⟩ := q.exists_cons
  rw [hcs]
  apply stops_cons
  apply Bool.eq_false_iff.mpr
  intro hblank
  rw [Lead.ofChar?_of_isBlank hblank] at hlead
  exact h (Option.some.inj hlead).symm

theorem Piece.lead_ne_blank {q : Piece} {p : Position} {t : Token} (h : q.token? p = some t) :
    q.lead ≠ .blank := by
  cases q with
  | blank c hc => cases h
  | _ => simp [lead]

theorem Unreadable.stops_isBlank {p : Position} {rest : List Char} {e : LexicalError}
    (h : Unreadable p rest e) : Stops Text.isBlank rest := by
  cases h with
  | character hnone =>
      exact stops_cons (Bool.eq_false_iff.mpr fun hc => hnone (.blank _ hc) rfl)
  | string _ => exact stops_cons (by decide)
  | comment _ => exact stops_cons (by decide)
  | @integer digits rest _ _ =>
      exact Piece.stops_isBlank (q := .integer digits) (by simp [Piece.lead]) rest
  | @real whole fraction rest _ _ =>
      exact Piece.stops_isBlank (q := .real whole fraction) (by simp [Piece.lead]) rest

/-- No landmark is blank; so none of them ends a line. -/
theorem Landmark.stops_isBlank {p : Position} {rest : List Char} (h : Landmark p rest) :
    Stops Text.isBlank rest := by
  cases h with
  | token _ _ ht => exact Piece.stops_isBlank (Piece.lead_ne_blank ht) _
  | unreadable he => exact he.stops_isBlank
  | ending => exact fun c hc => by cases hc

/-! ### What is read, and what is not -/

/-- Every token starts where a piece does. -/
theorem Segmented.exists_landmark {pieces : List Piece}
    {text rest before : List Char} {t : Token} (h : Segmented pieces text rest)
    (ht : t ∈ lexemes before pieces) :
    ∃ ps rest', Segmented ps text rest' ∧
      t.position = .behind (before ++ ps.flatMap Piece.chars) ∧ Landmark t.position rest' := by
  induction h generalizing before with
  | nil text => cases ht
  | @cons q pieces text rest hlongest hrange hpieces ih =>
      rcases List.mem_append.mp ht with hq | hothers
      · have hq := Option.mem_toList.mp hq
        have hposition := Piece.position_of_token? hq
        refine ⟨[], _, .nil _, ?_, .token hlongest hrange (hposition ▸ hq)⟩
        rw [hposition, List.flatMap_nil, List.append_nil]
      · obtain ⟨ps, rest', hps, hposition, hmark⟩ := ih hothers
        refine ⟨q :: ps, rest', .cons hlongest hrange hps, ?_, hmark⟩
        rw [hposition, List.flatMap_cons, List.append_assoc]

theorem exists_pointsAt_of_mem {text : String} {ts : List Token} {t : Token}
    (h : tokens text = .ok ts) (ht : t ∈ ts) : ∃ rest, t.position.PointsAt text rest := by
  obtain ⟨pieces, hpieces, rfl⟩ := tokens_eq_ok_iff.mp h
  rcases List.mem_append.mp ht with ht | hend
  · obtain ⟨ps, rest, hps, hposition, hmark⟩ := hpieces.exists_landmark ht
    exact ⟨rest, ps, hps, hposition, hmark⟩
  · obtain rfl := List.mem_singleton.mp hend
    have htext := hpieces.eq_append
    rw [List.append_nil] at htext
    exact ⟨[], pieces, hpieces, congrArg Position.behind htext, .ending⟩

theorem exists_pointsAt_of_error {text : String} {e : LexicalError}
    (h : tokens text = .error e) :
    ∃ rest, e.position.PointsAt text rest := by
  obtain ⟨pieces, rest, hpieces, he⟩ := tokens_eq_error_iff.mp h
  have hposition : e.position = .behind (pieces.flatMap Piece.chars) := by cases he <;> rfl
  exact ⟨rest, pieces, hpieces, hposition, .unreadable (hposition ▸ he)⟩

end MiniPascal
