import MiniPascal.Proofs.Token.Exactness

/-!
Texts one below the other. Comments and strings are closed in a text that can be read to its
end, and no other piece goes on over the end of a line. So more lines below do not change how
such a text is read; and the lines below are read as they are by themselves, only further down.
-/

namespace MiniPascal

/-! ### Further down -/

namespace Position

/-- The same column, `n` lines further down. -/
def down (n : Nat) (p : Position) : Position := ⟨p.line + n, p.column⟩

/-- Only the lines above count, not what stands on them. -/
theorem behind_below (above cs : List Char) :
    behind (above ++ '\n' :: cs) = (behind cs).down (1 + above.count '\n') := by
  have hbefore : behind (above ++ ['\n']) = start.down (1 + above.count '\n') := by
    rw [behind_concat, next, if_pos rfl]
    simp only [behind, start, down, Nat.add_comm]
  have hafter (p : Position) (n : Nat) : (p.down n).after cs = (p.after cs).down n := by
    induction cs generalizing p with
    | nil => rfl
    | cons c cs ih =>
        have hnext : (p.down n).next c = (p.next c).down n := by
          unfold next
          split
          · simp only [down, Nat.add_right_comm]
          · rfl
        rw [after_cons, hnext, ih, after_cons]
  have hstart : behind cs = start.after cs := behind_append [] cs
  rw [List.append_cons, behind_append, hbefore, hafter, hstart]

end Position

def Token.down (n : Nat) (t : Token) : Token := { t with position := t.position.down n }

def LexicalError.down (n : Nat) : LexicalError → LexicalError
  | .unrecognizedCharacter c p => .unrecognizedCharacter c (p.down n)
  | .unterminatedString p => .unterminatedString (p.down n)
  | .unterminatedComment p => .unterminatedComment (p.down n)
  | .integerOutOfRange lexeme p => .integerOutOfRange lexeme (p.down n)
  | .realOutOfRange lexeme p => .realOutOfRange lexeme (p.down n)

theorem Piece.token?_down (q : Piece) (p : Position) (n : Nat) :
    q.token? (p.down n) = (q.token? p).map (Token.down n) := by
  cases q <;> rfl

theorem Unreadable.down {p : Position} {text : List Char} {e : LexicalError}
    (h : Unreadable p text e) (n : Nat) : Unreadable (p.down n) text (e.down n) := by
  cases h with
  | character hnone => exact .character hnone
  | string hrest => exact .string hrest
  | comment hrest => exact .comment hrest
  | integer hlongest hrange => exact .integer hlongest hrange
  | real hlongest hrange => exact .real hlongest hrange

theorem lexemes_append (before : List Char) (ps qs : List Piece) :
    lexemes before (ps ++ qs) =
      lexemes before ps ++ lexemes (before ++ ps.flatMap Piece.chars) qs := by
  induction ps generalizing before with
  | nil => simp [lexemes]
  | cons p ps ih =>
      rw [List.cons_append, lexemes, ih, lexemes, List.append_assoc, List.append_assoc,
        List.flatMap_cons]

theorem lexemes_below (above before : List Char) (pieces : List Piece) :
    lexemes (above ++ '\n' :: before) pieces =
      (lexemes before pieces).map (Token.down (1 + above.count '\n')) := by
  induction pieces generalizing before with
  | nil => rfl
  | cons q pieces ih =>
      rw [lexemes, lexemes, List.append_assoc, List.cons_append, ih, Position.behind_below,
        Piece.token?_down, List.map_append]
      cases q.token? (.behind before) <;> rfl

/-! ### The end of a line -/

/-- What stops at the end of a text stops at the end of a line. -/
theorem Stops.above {f : Char → Bool} {rest : List Char} (h : Stops f rest)
    (hline : f '\n' = false) (below : List Char) : Stops f (rest ++ '\n' :: below) := by
  cases rest with
  | nil => exact stops_cons hline
  | cons c rest => exact stops_cons (h c rfl)

/-- A piece that ends somewhere ends there with more lines below. -/
theorem Piece.Ends.above {p : Piece} {rest : List Char} (h : p.Ends rest) (below : List Char) :
    p.Ends (rest ++ '\n' :: below) := by
  cases p with
  | word first others hfirst hothers =>
      have hstops : Stops Cursor.isWordChar rest := h
      exact hstops.above (by decide +kernel) below
  | integer digits =>
      obtain ⟨hstops, hfraction⟩ := h
      refine ⟨hstops.above (by decide) below, ?_⟩
      -- The point and the digit after it would both stand before the newline.
      rintro ⟨d, rest', heq, hd⟩
      match rest with
      | [] => cases heq
      | [c] =>
          cases heq
          cases hd
      | c :: c' :: rest =>
          cases heq
          exact hfraction ⟨d, rest, rfl, hd⟩
  | real whole fraction =>
      have hstops : Stops Char.isDigit rest := h
      exact hstops.above (by decide) below
  | mark c kind hkind =>
      rintro ⟨hc, hhead⟩
      cases rest with
      | nil => cases hhead
      | cons d rest => exact h ⟨hc, hhead⟩
  | _ => trivial

theorem Segmented.above {pieces : List Piece} {text rest : List Char}
    (h : Segmented pieces text rest) (below : List Char) :
    Segmented pieces (text ++ '\n' :: below) (rest ++ '\n' :: below) := by
  induction h with
  | nil text => exact .nil _
  | cons hlongest hrange _ ih =>
      rw [List.append_assoc]
      exact .cons
        (Piece.longestIn_of_ends ((Piece.ends_of_longestIn hlongest).above below)) hrange ih

theorem Segmented.append {ps qs : List Piece} {text middle rest : List Char}
    (h : Segmented ps text middle) (h' : Segmented qs middle rest) :
    Segmented (ps ++ qs) text rest := by
  induction h with
  | nil text => exact h'
  | cons hlongest hrange _ ih => exact .cons hlongest hrange (ih h')

/-! ### Lines below a text -/

/-- The newline between two texts. -/
def Piece.newline : Piece := .blank '\n' (by decide)

section

variable {above below rest : List Char} {ps qs : List Piece}

/-- The pieces of a text, the newline, and pieces below. -/
theorem Segmented.onLines (h : Segmented ps above []) (h' : Segmented qs below rest) :
    Segmented (ps ++ .newline :: qs) (above ++ '\n' :: below) rest := by
  have hnewline : Segmented (.newline :: qs) ('\n' :: below) rest :=
    .cons (Piece.longestIn_of_ends (p := .newline) trivial) trivial h'
  exact (h.above below).append hnewline

theorem Segmented.chars_onLines (h : Segmented ps above []) :
    (ps ++ .newline :: qs).flatMap Piece.chars = above ++ '\n' :: qs.flatMap Piece.chars := by
  have habove := h.eq_append
  rw [List.append_nil] at habove
  rw [List.flatMap_append, ← habove]
  rfl

/-- The tokens below are those of the text below. -/
theorem Segmented.lexemes_onLines (h : Segmented ps above []) :
    lexemes [] (ps ++ .newline :: qs) =
      lexemes [] ps ++ (lexemes [] qs).map (Token.down (1 + above.count '\n')) := by
  have habove := h.eq_append
  rw [List.append_nil] at habove
  rw [lexemes_append, List.nil_append, ← habove, ← lexemes_below]
  rfl

end

/-- Reading below a text that is read to its end. -/
theorem tokens_onLines {above : String} {ps : List Piece} (hps : Segmented ps above.toList [])
    (below : String) :
    tokens (above ++ "\n" ++ below) =
      ((tokens below).mapError (LexicalError.down (1 + above.toList.count '\n'))).map fun vs =>
        lexemes [] ps ++ vs.map (Token.down (1 + above.toList.count '\n')) := by
  have htext : (above ++ "\n" ++ below).toList = above.toList ++ '\n' :: below.toList := by
    simp
  cases hbelow : tokens below with
  | ok vs =>
      obtain ⟨qs, hqs, rfl⟩ := tokens_eq_ok_iff.mp hbelow
      have hboth := hps.onLines hqs
      rw [← htext] at hboth
      rw [tokens_of_segmented hboth, hps.lexemes_onLines, htext, Position.behind_below,
        List.append_assoc]
      simp only [Except.mapError, Except.map, List.map_append]
      rfl
  | error e =>
      obtain ⟨qs, rest, hqs, he⟩ := tokens_eq_error_iff.mp hbelow
      have hboth := hps.onLines hqs
      have hdown := he.down (1 + above.toList.count '\n')
      rw [← htext] at hboth
      rw [← Position.behind_below, ← hps.chars_onLines] at hdown
      exact tokens_of_unreadable hboth hdown

/-- **Lines are read one after the other.** Let `above` be a text that is read to its end. With
a newline and any text `below` after it, the tokens are those of `above` up to its end, and
then those of `below`, each as many lines further down as there are lines above it; and an
error in `below` is the same error so many lines further down. -/
theorem reading_continues_on_the_next_line (above below : String) (j₁ j₂ j₃ : Journal)
    (ts : List Token) (h : (tokenize above j₁).1 = .ok ts) :
    ∃ us e, ts = us ++ [e] ∧ e.kind = .endOfText ∧
      (∀ vs, (tokenize below j₂).1 = .ok vs →
        (tokenize (above ++ "\n" ++ below) j₃).1 =
          .ok (us ++ vs.map (Token.down (1 + above.toList.count '\n')))) ∧
      ∀ err, (tokenize below j₂).1 = .error err → ∃ e', err = .lexical e' ∧
        (tokenize (above ++ "\n" ++ below) j₃).1 =
          .error (.lexical (e'.down (1 + above.toList.count '\n'))) := by
  rw [tokenize_eq] at h
  cases habove : tokens above with
  | error e =>
      rw [habove] at h
      cases h
  | ok ts' =>
      rw [habove] at h
      cases h
      obtain ⟨ps, hps, rfl⟩ := tokens_eq_ok_iff.mp habove
      refine ⟨lexemes [] ps, _, rfl, rfl, ?_⟩
      rw [tokenize_eq, tokenize_eq, tokens_onLines hps]
      cases tokens below with
      | ok vs =>
          refine ⟨fun vs' hvs => ?_, fun err herr => by cases herr⟩
          cases hvs
          rfl
      | error e =>
          refine ⟨fun vs' hvs => (by cases hvs), fun err herr => ?_⟩
          cases herr
          exact ⟨e, rfl, rfl⟩

/-- A point and a digit below a number do not belong to it, and a quote below it is its own. -/
theorem one_above_point_five :
    (tokenize "1" { traces := [], dumps := [] }).1 =
        .ok [⟨.integerLiteral, some (.integer 1), ⟨1, 1⟩⟩, ⟨.endOfText, none, ⟨1, 2⟩⟩] ∧
      (tokenize ("1" ++ "\n" ++ ".5") { traces := [], dumps := [] }).1 =
        .ok [⟨.integerLiteral, some (.integer 1), ⟨1, 1⟩⟩, ⟨.dot, some (.string "."), ⟨2, 1⟩⟩,
          ⟨.integerLiteral, some (.integer 5), ⟨2, 2⟩⟩, ⟨.endOfText, none, ⟨2, 3⟩⟩] ∧
      (tokenize ("1" ++ "\n" ++ " '") { traces := [], dumps := [] }).1 =
        .error (.lexical (.unterminatedString ⟨2, 2⟩)) := by
  have habove : (tokenize "1" { traces := [], dumps := [] }).1 =
      .ok [⟨.integerLiteral, some (.integer 1), ⟨1, 1⟩⟩, ⟨.endOfText, none, ⟨1, 2⟩⟩] := by
    decide +kernel
  obtain ⟨us, e, hts, -, hok, -⟩ := reading_continues_on_the_next_line "1" ".5"
    { traces := [], dumps := [] } { traces := [], dumps := [] }
      { traces := [], dumps := [] } _ habove
  have hpoint := hok [⟨.dot, some (.string "."), ⟨1, 1⟩⟩,
    ⟨.integerLiteral, some (.integer 5), ⟨1, 2⟩⟩, ⟨.endOfText, none, ⟨1, 3⟩⟩]
      (by decide +kernel)
  have hus := congrArg List.dropLast hts
  rw [List.dropLast_concat] at hus
  subst hus
  obtain ⟨-, -, -, -, -, herror⟩ := reading_continues_on_the_next_line "1" " '"
    { traces := [], dumps := [] } { traces := [], dumps := [] }
      { traces := [], dumps := [] } _ habove
  obtain ⟨e', he', hquote⟩ :=
    herror (.lexical (.unterminatedString ⟨1, 2⟩)) (by decide +kernel)
  cases he'
  exact ⟨habove, hpoint, hquote⟩

end MiniPascal
