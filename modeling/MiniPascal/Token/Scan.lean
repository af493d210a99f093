import MiniPascal.Text.Blank
import MiniPascal.Text.Letter
import MiniPascal.Text.Numeral
import MiniPascal.Text.UpperCase
import MiniPascal.Token.Basic
import MiniPascal.Token.LexicalError

/-!
Reading the next token of a text. Blanks and comments are skipped; then the longest word,
number, string or piece of punctuation is taken. A token leaves less of the text behind, unless
it is the end of the text.
-/

namespace MiniPascal

/-- What is left of a text, and where in the text it starts. -/
structure Cursor where
  rest : List Char
  position : Position
  deriving DecidableEq

namespace Cursor

def ofText (text : String) : Cursor := ⟨text.toList, .start⟩

/-- Goes on to the first character outside blanks and comments. `opened` is where the comment
around the cursor starts, if there is one; a comment that is still open at the end of the text
is handed back. Comments do not nest. -/
def skipBlanks (opened : Option Position) : List Char → Position → Cursor × Option Position
  | [], p => (⟨[], p⟩, opened)
  | c :: cs, p =>
      match opened with
      | none =>
          if Text.isBlank c then skipBlanks none cs (p.next c)
          else if c = '\x7b' then skipBlanks (some p) cs (p.next c)
          else (⟨c :: cs, p⟩, none)
      | some start => skipBlanks (if c = '\x7d' then none else some start) cs (p.next c)

def isWordChar (c : Char) : Bool := Text.isLetter c || Text.isNumeral c

/-- The letters and numerals at the start of `cs`, in upper case: a reserved word or an
identifier. -/
def word (p : Position) (cs : List Char) : Token × Cursor :=
  let lexeme := cs.takeWhile isWordChar
  let spelling := String.ofList (Text.upper lexeme)
  (⟨(Token.Kind.ofWord? spelling).getD .identifier, some (.string spelling), p⟩,
    ⟨cs.dropWhile isWordChar, p.after lexeme⟩)

def integerToken (p : Position) (digits : List Char) : Except LexicalError Token :=
  let n : Int := Decimal.natOfDigits digits
  if n ≤ maxInteger then .ok ⟨.integerLiteral, some (.integer (Int64.ofInt n)), p⟩
  else .error (.integerOutOfRange (String.ofList digits) p)

def realToken (p : Position) (whole fraction : List Char) : Except LexicalError Token :=
  let x := Decimal.floatOfDigits whole fraction
  if x.isFinite then .ok ⟨.realLiteral, some (.real x), p⟩
  else .error (.realOutOfRange (String.ofList (whole ++ '.' :: fraction)) p)

/-- The digits at the start of `cs`. A point belongs to the number only if a digit follows
it. -/
def number (p : Position) (cs : List Char) : Except LexicalError Token × Cursor :=
  let whole := cs.takeWhile Char.isDigit
  let rest := cs.dropWhile Char.isDigit
  let fraction := (rest.drop 1).takeWhile Char.isDigit
  if rest.head? = some '.' ∧ fraction ≠ [] then
    (realToken p whole fraction,
      ⟨(rest.drop 1).dropWhile Char.isDigit, p.after (whole ++ '.' :: fraction)⟩)
  else (integerToken p whole, ⟨rest, p.after whole⟩)

/-- A string after its opening quote at `p`. It holds all characters up to the next quote. -/
def quoted (p : Position) (cs : List Char) : Except LexicalError Token × Cursor :=
  let contents := cs.takeWhile (· ≠ '\'')
  let stop := (p.next '\'').after contents
  match cs.dropWhile (· ≠ '\'') with
  | [] => (.error (.unterminatedString p), ⟨[], stop⟩)
  | quote :: rest =>
      (.ok ⟨.stringLiteral, some (.string (String.ofList contents)), p⟩,
        ⟨rest, stop.next quote⟩)

/-- The token at the cursor, which stands on no blank and no comment. A character that starts
no token stays where it is. -/
def lexeme (c : Cursor) : Except LexicalError Token × Cursor :=
  match c with
  | ⟨[], p⟩ => (.ok ⟨.endOfText, none, p⟩, ⟨[], p⟩)
  | ⟨ch :: cs, p⟩ =>
      if Text.isLetter ch then
        let (token, rest) := word p (ch :: cs)
        (.ok token, rest)
      else if ch.isDigit then number p (ch :: cs)
      else if ch = '\'' then quoted p cs
      else if ch = ':' ∧ cs.head? = some '=' then
        (.ok ⟨.assign, some (.string ":="), p⟩, ⟨cs.drop 1, p.after [':', '=']⟩)
      else
        match Token.Kind.ofChar? ch with
        | some kind => (.ok ⟨kind, some (.string ch.toString), p⟩, ⟨cs, p.next ch⟩)
        | none => (.error (.unrecognizedCharacter ch p), ⟨ch :: cs, p⟩)

/-- The next token, and the cursor behind it. -/
def scan (c : Cursor) : Except LexicalError Token × Cursor :=
  match skipBlanks none c.rest c.position with
  | (c, none) => c.lexeme
  | (c, some start) => (.error (.unterminatedComment start), c)

theorem length_skipBlanks_le (opened : Option Position) (cs : List Char) (p : Position) :
    (skipBlanks opened cs p).1.rest.length ≤ cs.length := by
  induction cs generalizing opened p with
  | nil => simp [skipBlanks]
  | cons c cs ih =>
      simp only [skipBlanks]
      split
      · split
        · exact Nat.le_succ_of_le (ih _ _)
        · split
          · exact Nat.le_succ_of_le (ih _ _)
          · simp
      · exact Nat.le_succ_of_le (ih _ _)

theorem length_dropWhile_le (f : Char → Bool) (cs : List Char) :
    (cs.dropWhile f).length ≤ cs.length :=
  (List.dropWhile_sublist f).length_le

theorem length_word_lt {ch : Char} (h : isWordChar ch = true) (cs : List Char) (p : Position) :
    (word p (ch :: cs)).2.rest.length < (ch :: cs).length := by
  simp only [word, List.dropWhile_cons, h, if_true, List.length_cons]
  exact Nat.lt_succ_of_le (length_dropWhile_le _ _)

theorem length_number_lt {ch : Char} (h : ch.isDigit = true) (cs : List Char) (p : Position) :
    (number p (ch :: cs)).2.rest.length < (ch :: cs).length := by
  have hwhole := length_dropWhile_le Char.isDigit cs
  simp only [number, List.dropWhile_cons, h, if_true, List.length_cons]
  split
  · have hfraction := length_dropWhile_le Char.isDigit ((cs.dropWhile Char.isDigit).drop 1)
    rw [List.length_drop] at hfraction
    simp only
    omega
  · exact Nat.lt_succ_of_le hwhole

theorem length_quoted_le (cs : List Char) (p : Position) :
    (quoted p cs).2.rest.length ≤ cs.length := by
  have hstring := length_dropWhile_le (· ≠ '\'') cs
  simp only [quoted]
  split
  · exact Nat.zero_le _
  next quote rest hquote =>
    rw [hquote] at hstring
    exact Nat.le_of_succ_le hstring

theorem length_lexeme_lt {c c' : Cursor} {t : Token} (h : c.lexeme = (.ok t, c'))
    (ht : t.kind ≠ .endOfText) : c'.rest.length < c.rest.length := by
  obtain ⟨cs, p⟩ := c
  cases cs with
  | nil =>
      simp only [lexeme, Prod.mk.injEq, Except.ok.injEq] at h
      obtain ⟨rfl, rfl⟩ := h
      exact absurd rfl ht
  | cons ch cs =>
      simp only [lexeme] at h
      split at h
      next hletter =>
        obtain ⟨-, rfl⟩ := Prod.mk.inj h
        exact length_word_lt (by simp [isWordChar, hletter]) cs p
      next =>
      split at h
      next hdigit =>
        have hlt := length_number_lt hdigit cs p
        rwa [h] at hlt
      next =>
      split at h
      next =>
        have hle := length_quoted_le cs p
        rw [h] at hle
        exact Nat.lt_succ_of_le hle
      next =>
      split at h
      next =>
        obtain ⟨-, rfl⟩ := Prod.mk.inj h
        simp only [List.length_drop, List.length_cons]
        omega
      next =>
      split at h
      next =>
        obtain ⟨-, rfl⟩ := Prod.mk.inj h
        exact Nat.lt_succ_self _
      next => cases h

/-- Only the end of the text can be read without getting further. -/
theorem length_scan_lt {c c' : Cursor} {t : Token} (h : c.scan = (.ok t, c'))
    (ht : t.kind ≠ .endOfText) : c'.rest.length < c.rest.length := by
  have hs := length_skipBlanks_le none c.rest c.position
  unfold scan at h
  split at h
  next d hd =>
    rw [hd] at hs
    exact Nat.lt_of_lt_of_le (length_lexeme_lt h ht) hs
  next => simp at h

end Cursor

end MiniPascal
