import Mathlib.Data.List.TakeWhile
import Mathlib.Data.Nat.Digits.Defs
import MiniPascal.Proofs.Token.Piece

/-!
Cutting a text into pieces, the longest one first, and what cannot be cut. The scanner reads
one piece at a time: it goes over those that are skipped, takes the token of any other, and
stops at the first thing that is no piece.
-/

namespace MiniPascal

/-! ### What pieces mean -/

/-- The number that a row of decimal digits writes, where the last digit counts once. -/
def decimal (digits : List Char) : Nat :=
  Nat.ofDigits 10 (digits.reverse.map fun c => c.toNat - '0'.toNat)

theorem natOfDigits_eq_decimal (digits : List Char) :
    Decimal.natOfDigits digits = decimal digits := by
  rw [decimal, Nat.ofDigits_eq_foldr, List.foldr_map, List.foldr_reverse, Decimal.natOfDigits]
  congr 1
  funext n c
  rw [Nat.cast_id, Nat.add_comm]

namespace Piece

/-- Integers have 64 bits and reals are finite. -/
def InRange : Piece → Prop
  | .integer digits => decimal digits.chars ≤ 2 ^ 63 - 1
  | .real whole fraction =>
      (Float.ofScientific (decimal (whole.chars ++ fraction.chars)) true
        fraction.chars.length).isFinite = true
  | _ => True

/-- The token of a piece at its position. Blanks and comments have none. -/
def token? (position : Position) : Piece → Option Token
  | .blank _ _ => none
  | .comment _ _ => none
  | .word first others _ _ =>
      let spelling := String.ofList (Text.upper (first :: others))
      some ⟨(Token.Kind.ofWord? spelling).getD .identifier, some (.string spelling), position⟩
  | .integer digits =>
      some ⟨.integerLiteral, some (.integer (Int64.ofInt (decimal digits.chars))), position⟩
  | .real whole fraction =>
      some ⟨.realLiteral,
        some (.real (Float.ofScientific (decimal (whole.chars ++ fraction.chars))
        true fraction.chars.length)), position⟩
  | .quoted contents _ =>
      some ⟨.stringLiteral, some (.string (String.ofList contents)), position⟩
  | .assign => some ⟨.assign, some (.string ":="), position⟩
  | .mark c kind _ => some ⟨kind, some (.string c.toString), position⟩

end Piece

/-- The text starts with the pieces, each of them the longest one at its place, and `rest` is
left. -/
inductive Segmented : List Piece → List Char → List Char → Prop
  | nil (text : List Char) : Segmented [] text text
  | cons {p : Piece} {pieces : List Piece} {text rest : List Char} :
      p.LongestIn (p.chars ++ text) → p.InRange → Segmented pieces text rest →
      Segmented (p :: pieces) (p.chars ++ text) rest

/-- The tokens of pieces that come after `before`. -/
def lexemes (before : List Char) : List Piece → List Token
  | [] => []
  | p :: pieces => (p.token? (.behind before)).toList ++ lexemes (before ++ p.chars) pieces

/-- What stands at the start of the text cannot be read. -/
inductive Unreadable (position : Position) : List Char → LexicalError → Prop
  | character {c : Char} {rest : List Char} :
      (∀ p : Piece, p.chars.head? ≠ some c) →
      Unreadable position (c :: rest) (.unrecognizedCharacter c position)
  | string {rest : List Char} :
      '\'' ∉ rest → Unreadable position ('\'' :: rest) (.unterminatedString position)
  | comment {rest : List Char} :
      '\x7d' ∉ rest → Unreadable position ('\x7b' :: rest) (.unterminatedComment position)
  | integer {digits : Digits} {rest : List Char} :
      (Piece.integer digits).LongestIn (digits.chars ++ rest) →
      ¬ (Piece.integer digits).InRange →
      Unreadable position (digits.chars ++ rest)
        (.integerOutOfRange (String.ofList digits.chars) position)
  | real {whole fraction : Digits} {rest : List Char} :
      (Piece.real whole fraction).LongestIn ((Piece.real whole fraction).chars ++ rest) →
      ¬ (Piece.real whole fraction).InRange →
      Unreadable position ((Piece.real whole fraction).chars ++ rest)
        (.realOutOfRange (String.ofList (Piece.real whole fraction).chars) position)

theorem Segmented.eq_append {pieces : List Piece} {text rest : List Char}
    (h : Segmented pieces text rest) : text = pieces.flatMap Piece.chars ++ rest := by
  induction h with
  | nil text => rfl
  | cons _ _ _ ih => rw [List.flatMap_cons, List.append_assoc, ← ih]

/-! ### Reading one piece -/

namespace Cursor

open Piece (Lead)

theorem scan_blank {c : Char} (h : Text.isBlank c = true) (cs : List Char) (p : Position) :
    scan ⟨c :: cs, p⟩ = scan ⟨cs, p.next c⟩ := by
  simp only [scan, skipBlanks, if_pos h]

/-- Where neither a blank nor a comment starts, a lexeme must. -/
theorem scan_eq_lexeme {c : Char} (hblank : Lead.ofChar? c ≠ some .blank)
    (hcomment : Lead.ofChar? c ≠ some .comment) (cs : List Char) (p : Position) :
    scan ⟨c :: cs, p⟩ = lexeme ⟨c :: cs, p⟩ := by
  have hc : ¬ Text.isBlank c = true := fun h => hblank (Lead.ofChar?_of_isBlank h)
  have hbrace : c ≠ '\x7b' := by
    rintro rfl
    exact hcomment (by decide +kernel)
  simp only [scan, skipBlanks, if_neg hc, if_neg hbrace]

/-- A comment goes on to its first closing brace. -/
theorem skipBlanks_inside {inside : List Char} (h : '\x7d' ∉ inside) (start p : Position)
    (rest : List Char) :
    skipBlanks (some start) (inside ++ '\x7d' :: rest) p =
      skipBlanks none rest (p.after (inside ++ ['\x7d'])) := by
  induction inside generalizing p with
  | nil => simp [skipBlanks]
  | cons c inside ih =>
      obtain ⟨hc, hinside⟩ := not_or.mp fun hmem => h (List.mem_cons.mpr hmem)
      simp only [List.cons_append, skipBlanks, if_neg (Ne.symm hc), ih hinside,
        Position.after_cons]

theorem skipBlanks_unclosed {rest : List Char} (h : '\x7d' ∉ rest) (start p : Position) :
    skipBlanks (some start) rest p = (⟨[], p.after rest⟩, some start) := by
  induction rest generalizing p with
  | nil => rfl
  | cons c rest ih =>
      obtain ⟨hc, hrest⟩ := not_or.mp fun hmem => h (List.mem_cons.mpr hmem)
      simp only [skipBlanks, if_neg (Ne.symm hc), ih hrest, Position.after_cons]

theorem skipBlanks_brace (cs : List Char) (p : Position) :
    skipBlanks none ('\x7b' :: cs) p = skipBlanks (some p) cs (p.next '\x7b') := by
  have hblank : ¬ Text.isBlank '\x7b' = true := by decide
  simp only [skipBlanks, if_neg hblank, if_pos]

theorem scan_comment {inside : List Char} (h : '\x7d' ∉ inside) (rest : List Char)
    (p : Position) :
    scan ⟨(Piece.comment inside h).chars ++ rest, p⟩ =
      scan ⟨rest, p.after (Piece.comment inside h).chars⟩ := by
  have hskip : skipBlanks none ((Piece.comment inside h).chars ++ rest) p =
      skipBlanks none rest (p.after (Piece.comment inside h).chars) := by
    simp only [Piece.chars, List.cons_append, List.append_assoc, List.nil_append]
    rw [skipBlanks_brace, skipBlanks_inside h, Position.after_cons]
  simp only [scan, hskip]

/-! ### Lexemes -/

theorem not_isLetter_of_lead {c : Char} {l : Lead} (h : Lead.ofChar? c = some l)
    (hl : l ≠ .word) :
    ¬ Text.isLetter c = true := by
  intro hletter
  rw [Lead.ofChar?_of_isLetter hletter] at h
  exact hl (Option.some.inj h).symm

theorem not_isDigit_of_lead {c : Char} {l : Lead} (h : Lead.ofChar? c = some l)
    (hl : l ≠ .number) :
    ¬ c.isDigit = true := by
  intro hdigit
  rw [Lead.ofChar?_of_isDigit hdigit] at h
  exact hl (Option.some.inj h).symm

theorem lexeme_word {first : Char} {others rest : List Char}
    (hfirst : Text.isLetter first = true) (hothers : ∀ c ∈ others, isWordChar c = true)
    (hrest : Stops isWordChar rest) (p : Position) :
    lexeme ⟨first :: (others ++ rest), p⟩ =
      (.ok ⟨(Token.Kind.ofWord? (String.ofList (Text.upper (first :: others)))).getD
        .identifier, some (.string (String.ofList (Text.upper (first :: others)))), p⟩,
        ⟨rest, p.after (first :: others)⟩) := by
  have hall : ∀ c ∈ first :: others, isWordChar c = true := by
    intro c hc
    rcases List.mem_cons.mp hc with rfl | hc
    · simp [isWordChar, hfirst]
    · exact hothers c hc
  simp only [lexeme, if_pos hfirst, word, ← List.cons_append, takeWhile_run hall hrest,
    dropWhile_run hall hrest]

/-- Where a number starts, `number` reads it. -/
theorem lexeme_digits (digits : Digits) (rest : List Char) (p : Position) :
    lexeme ⟨digits.chars ++ rest, p⟩ = number p (digits.chars ++ rest) := by
  obtain ⟨c, cs, hcs⟩ := List.exists_cons_of_ne_nil digits.ne_nil
  have hdigit : c.isDigit = true := digits.isDigit c (by simp [hcs])
  have hletter := not_isLetter_of_lead (Lead.ofChar?_of_isDigit hdigit) (by decide)
  rw [hcs, List.cons_append]
  simp only [lexeme, if_neg hletter, if_pos hdigit]

theorem number_integer {digits : Digits} {rest : List Char} (hrest : Stops Char.isDigit rest)
    (hfraction : ¬ Piece.StartsFraction rest) (p : Position) :
    number p (digits.chars ++ rest) =
      (integerToken p digits.chars, ⟨rest, p.after digits.chars⟩) := by
  have hpoint : ¬ (rest.head? = some '.' ∧ (rest.drop 1).takeWhile Char.isDigit ≠ []) := by
    rintro ⟨hhead, htake⟩
    obtain ⟨rest', rfl⟩ := List.head?_eq_some_iff.mp hhead
    cases rest' with
    | nil => exact htake rfl
    | cons d rest' =>
        refine hfraction ⟨d, rest', rfl, ?_⟩
        by_contra hd
        exact htake (List.takeWhile_cons_of_neg hd)
  simp only [number, takeWhile_run digits.isDigit hrest, dropWhile_run digits.isDigit hrest,
    if_neg hpoint]

theorem number_real {whole fraction : Digits} {rest : List Char}
    (hrest : Stops Char.isDigit rest) (p : Position) :
    number p (whole.chars ++ '.' :: (fraction.chars ++ rest)) =
      (realToken p whole.chars fraction.chars,
        ⟨rest, p.after (Piece.real whole fraction).chars⟩) := by
  have hpoint : Stops Char.isDigit ('.' :: (fraction.chars ++ rest)) := stops_cons (by decide)
  simp only [number, takeWhile_run whole.isDigit hpoint, dropWhile_run whole.isDigit hpoint,
    List.drop_succ_cons, List.drop_zero, takeWhile_run fraction.isDigit hrest,
    dropWhile_run fraction.isDigit hrest]
  rw [if_pos ⟨rfl, fraction.ne_nil⟩]
  rfl

theorem integerToken_eq (p : Position) (digits : Digits) :
    integerToken p digits.chars =
      if decimal digits.chars ≤ 2 ^ 63 - 1 then
        .ok ⟨.integerLiteral, some (.integer (Int64.ofInt (decimal digits.chars))), p⟩
      else .error (.integerOutOfRange (String.ofList digits.chars) p) := by
  have hmax : ((decimal digits.chars : Int) ≤ maxInteger) ↔
      decimal digits.chars ≤ 2 ^ 63 - 1 := by
    rw [maxInteger]
    omega
  simp only [integerToken, natOfDigits_eq_decimal, hmax]

theorem realToken_eq (p : Position) (whole fraction : Digits) :
    realToken p whole.chars fraction.chars =
      if (Float.ofScientific (decimal (whole.chars ++ fraction.chars)) true
          fraction.chars.length).isFinite = true then
        .ok ⟨.realLiteral, some (.real (Float.ofScientific
          (decimal (whole.chars ++ fraction.chars)) true fraction.chars.length)), p⟩
      else .error (.realOutOfRange (String.ofList (Piece.real whole fraction).chars) p) := by
  simp only [realToken, Decimal.floatOfDigits, natOfDigits_eq_decimal, Piece.chars]

theorem lexeme_quoted {contents : List Char} (h : '\'' ∉ contents) (rest : List Char)
    (p : Position) :
    lexeme ⟨'\'' :: (contents ++ '\'' :: rest), p⟩ =
      (.ok ⟨.stringLiteral, some (.string (String.ofList contents)), p⟩,
        ⟨rest, p.after ('\'' :: (contents ++ ['\'']))⟩) := by
  have hletter : ¬ Text.isLetter '\'' = true := by decide
  have hdigit : ¬ '\''.isDigit = true := by decide
  have hall := forall_ne_of_notMem h
  have hstops : Stops (fun c => decide (c ≠ '\'')) ('\'' :: rest) := stops_cons (by decide)
  simp only [lexeme, if_neg hletter, if_neg hdigit, if_pos, quoted, takeWhile_run hall hstops,
    dropWhile_run hall hstops, Position.after_cons, Position.after_append, Position.after_nil]

theorem lexeme_unclosed {rest : List Char} (h : '\'' ∉ rest) (p : Position) :
    (lexeme ⟨'\'' :: rest, p⟩).1 = .error (.unterminatedString p) := by
  have hletter : ¬ Text.isLetter '\'' = true := by decide
  have hdigit : ¬ '\''.isDigit = true := by decide
  have hdrop : rest.dropWhile (fun c => decide (c ≠ '\'')) = [] :=
    List.dropWhile_eq_nil_iff.mpr (forall_ne_of_notMem h)
  simp only [lexeme, if_neg hletter, if_neg hdigit, if_pos, quoted, hdrop]

theorem lexeme_assign (rest : List Char) (p : Position) :
    lexeme ⟨':' :: '=' :: rest, p⟩ =
      (.ok ⟨.assign, some (.string ":="), p⟩, ⟨rest, p.after [':', '=']⟩) := by
  have hletter : ¬ Text.isLetter ':' = true := by decide
  have hdigit : ¬ ':'.isDigit = true := by decide
  have hquote : ':' ≠ '\'' := by decide
  have hnext : (':' : Char) = ':' ∧ ('=' :: rest).head? = some '=' := ⟨rfl, rfl⟩
  rw [lexeme, if_neg hletter, if_neg hdigit, if_neg hquote, if_pos hnext]
  rfl

theorem lexeme_mark {c : Char} {kind : Token.Kind} {rest : List Char}
    (h : Token.Kind.ofChar? c = some kind) (hnext : ¬ (c = ':' ∧ rest.head? = some '='))
    (p : Position) :
    lexeme ⟨c :: rest, p⟩ = (.ok ⟨kind, some (.string c.toString), p⟩, ⟨rest, p.next c⟩) := by
  have hlead := Lead.ofChar?_of_mark h
  have hletter := not_isLetter_of_lead hlead (by decide)
  have hdigit := not_isDigit_of_lead hlead (by decide)
  have hquote : c ≠ '\'' := by
    rintro rfl
    cases h
  simp only [lexeme, if_neg hletter, if_neg hdigit, if_neg hquote, if_neg hnext, h]

/-- A character that tells nothing is an error. -/
theorem lexeme_unrecognized {c : Char} (h : Lead.ofChar? c = none) (cs : List Char)
    (p : Position) :
    (lexeme ⟨c :: cs, p⟩).1 = .error (.unrecognizedCharacter c p) := by
  have hletter : ¬ Text.isLetter c = true := by
    intro hletter
    rw [Lead.ofChar?_of_isLetter hletter] at h
    cases h
  have hdigit : ¬ c.isDigit = true := by
    intro hdigit
    rw [Lead.ofChar?_of_isDigit hdigit] at h
    cases h
  have hquote : c ≠ '\'' := by
    rintro rfl
    revert h
    decide +kernel
  have hmark : Token.Kind.ofChar? c = none := by
    cases hkind : Token.Kind.ofChar? c with
    | none => rfl
    | some kind =>
        rw [Lead.ofChar?_of_mark hkind] at h
        cases h
  have hcolon : ¬ (c = ':' ∧ cs.head? = some '=') := by
    rintro ⟨rfl, -⟩
    cases hmark
  simp only [lexeme, if_neg hletter, if_neg hdigit, if_neg hquote, if_neg hcolon, hmark]

/-- Where a piece with a token starts, a lexeme is read. -/
theorem scan_eq_of_token? {q : Piece} {p : Position} {t : Token} (h : q.token? p = some t)
    (rest : List Char) : scan ⟨q.chars ++ rest, p⟩ = lexeme ⟨q.chars ++ rest, p⟩ := by
  have hlead : q.lead ≠ .blank ∧ q.lead ≠ .comment := by
    cases q with
    | blank c hc => cases h
    | comment inside hinside => cases h
    | _ => simp [Piece.lead]
  obtain ⟨c, cs, hcs, hc⟩ := q.exists_cons
  rw [hcs, List.cons_append]
  apply scan_eq_lexeme
  · rw [hc]
    simpa using hlead.1
  · rw [hc]
    simpa using hlead.2

/-- A piece that is skipped. -/
theorem scan_skipped {q : Piece} {p : Position} (h : q.token? p = none) (rest : List Char) :
    scan ⟨q.chars ++ rest, p⟩ = scan ⟨rest, p.after q.chars⟩ := by
  cases q with
  | blank c hc => exact scan_blank hc rest p
  | comment inside hinside => exact scan_comment hinside rest p
  | _ => cases h

/-- A piece that is a lexeme. -/
theorem scan_lexeme {q : Piece} {rest : List Char} {p : Position} {t : Token}
    (hends : q.Ends rest) (hrange : q.InRange) (h : q.token? p = some t) :
    scan ⟨q.chars ++ rest, p⟩ = (.ok t, ⟨rest, p.after q.chars⟩) := by
  rw [scan_eq_of_token? h]
  cases q with
  | blank c hc => cases h
  | comment inside hinside => cases h
  | word first others hfirst hothers =>
      cases h
      exact lexeme_word hfirst hothers hends p
  | integer digits =>
      cases h
      simp only [Piece.InRange] at hrange
      rw [Piece.chars, lexeme_digits, number_integer hends.1 hends.2, integerToken_eq,
        if_pos hrange]
  | real whole fraction =>
      cases h
      simp only [Piece.InRange] at hrange
      rw [Piece.chars, List.append_assoc, List.cons_append, lexeme_digits, number_real hends,
        realToken_eq, if_pos hrange]
      rfl
  | quoted contents hcontents =>
      cases h
      have hread := lexeme_quoted hcontents rest p
      simpa [Piece.chars] using hread
  | assign =>
      cases h
      exact lexeme_assign rest p
  | mark c kind hkind =>
      cases h
      exact lexeme_mark hkind hends p

theorem scan_unreadable {p : Position} {text : List Char} {e : LexicalError}
    (h : Unreadable p text e) : (scan ⟨text, p⟩).1 = .error e := by
  cases h with
  | @character c rest hnone =>
      have hlead := Piece.ofChar?_eq_none hnone
      rw [scan_eq_lexeme (by simp [hlead]) (by simp [hlead])]
      exact lexeme_unrecognized hlead rest p
  | @string rest hrest =>
      have hlead : Lead.ofChar? '\'' = some .quoted := by decide +kernel
      rw [scan_eq_lexeme (by simp [hlead]) (by simp [hlead])]
      exact lexeme_unclosed hrest p
  | @comment rest hrest =>
      simp only [scan, skipBlanks_brace, skipBlanks_unclosed hrest]
  | @integer digits rest hlongest hrange =>
      obtain ⟨hstops, hfraction⟩ := Piece.ends_of_longestIn hlongest
      simp only [Piece.InRange] at hrange
      have hscan := scan_eq_of_token? (q := .integer digits) (p := p) rfl rest
      rw [Piece.chars] at hscan
      rw [hscan, lexeme_digits, number_integer hstops hfraction, integerToken_eq,
        if_neg hrange]
  | @real whole fraction rest hlongest hrange =>
      have hends := Piece.ends_of_longestIn hlongest
      simp only [Piece.InRange] at hrange
      rw [scan_eq_of_token? rfl, Piece.chars, List.append_assoc, List.cons_append,
        lexeme_digits, number_real hends, realToken_eq, if_neg hrange]
      rfl

end Cursor

end MiniPascal
