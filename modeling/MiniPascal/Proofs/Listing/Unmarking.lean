import MiniPascal.Listing
import MiniPascal.Proofs.Grammar.Writing

/-!
Listings as texts to be read again. In a listing a use of a variable stands in angle brackets,
with a colon and its type behind the name. Without these marks the listing is a text of the
language; here is how its parts are read.
-/

namespace MiniPascal

/-! ### Leaving out the marks -/

/-- Where in a listing a character stands. -/
inductive MarkMode where
  | plain
  | quoted
  | name
  | type

/-- Keeps the name of `<name:type>` and leaves out the rest of it. Strings stay as they are. -/
def unmarkFrom : MarkMode → List Char → List Char
  | _, [] => []
  | .plain, c :: cs =>
      if c = '<' then unmarkFrom .name cs
      else c :: unmarkFrom (if c = '\'' then .quoted else .plain) cs
  | .quoted, c :: cs => c :: unmarkFrom (if c = '\'' then .plain else .quoted) cs
  | .name, c :: cs => if c = ':' then unmarkFrom .type cs else c :: unmarkFrom .name cs
  | .type, c :: cs => unmarkFrom (if c = '>' then .plain else .type) cs

def unmark (text : List Char) : List Char := unmarkFrom .plain text

/-- The listing without marks. -/
def unmarked (text : String) : String := String.ofList (unmark text.toList)

/-- Characters that neither open a mark nor a string. -/
def isUnmarked (c : Char) : Bool := c ≠ '<' && c ≠ '\''

@[simp]
theorem unmark_nil : unmark [] = [] :=
  rfl

theorem unmark_cons {c : Char} (h : isUnmarked c = true) (rest : List Char) :
    unmark (c :: rest) = c :: unmark rest := by
  simp only [isUnmarked, Bool.and_eq_true, decide_eq_true_eq] at h
  simp [unmark, unmarkFrom, h.1, h.2]

theorem unmark_append {cs : List Char} (h : ∀ c ∈ cs, isUnmarked c = true) (rest : List Char) :
    unmark (cs ++ rest) = cs ++ unmark rest := by
  induction cs with
  | nil => rfl
  | cons c cs ih =>
      obtain ⟨hc, hcs⟩ := List.forall_mem_cons.mp h
      rw [List.cons_append, unmark_cons hc, ih hcs, List.cons_append]

theorem unmark_quoted {contents : List Char} (h : '\'' ∉ contents) (rest : List Char) :
    unmark ('\'' :: (contents ++ '\'' :: rest)) =
      '\'' :: (contents ++ '\'' :: unmark rest) := by
  have hinside : unmarkFrom .quoted (contents ++ '\'' :: rest) =
      contents ++ '\'' :: unmarkFrom .plain rest := by
    induction contents with
    | nil => simp [unmarkFrom]
    | cons c contents ih =>
        obtain ⟨hc, hcontents⟩ := not_or.mp fun hmem => h (List.mem_cons.mpr hmem)
        simp [unmarkFrom, Ne.symm hc, ih hcontents]
  simp [unmark, unmarkFrom, hinside]

theorem unmark_reference {name type : List Char} (hname : ':' ∉ name) (htype : '>' ∉ type)
    (rest : List Char) : unmark ('<' :: (name ++ ':' :: (type ++ '>' :: rest))) = name ++
      unmark rest := by
  have hskip : unmarkFrom .type (type ++ '>' :: rest) = unmarkFrom .plain rest := by
    induction type with
    | nil => simp [unmarkFrom]
    | cons c type ih =>
        obtain ⟨hc, htype⟩ := not_or.mp fun hmem => htype (List.mem_cons.mpr hmem)
        simp [unmarkFrom, Ne.symm hc, ih htype]
  have hkeep : unmarkFrom .name (name ++ ':' :: (type ++ '>' :: rest)) =
      name ++ unmarkFrom .plain rest := by
    induction name with
    | nil => simp [unmarkFrom, hskip]
    | cons c name ih =>
        obtain ⟨hc, hname⟩ := not_or.mp fun hmem => hname (List.mem_cons.mpr hmem)
        simp [unmarkFrom, Ne.symm hc, ih hname]
  simp [unmark, unmarkFrom, hkeep]

/-! ### Reading a part of a listing -/

/-- Without its marks the part of a listing is read as the tokens of `row`, before anything
that has the property `Next`. -/
def Writes (Next : List Char → Prop) (text : List Char) (row : List Token) : Prop :=
  ∃ pieces, (∀ rest, unmark (text ++ rest) = pieces.flatMap Piece.chars ++ unmark rest) ∧
    (∀ rest, Next rest → Joined pieces rest) ∧ bareTokens pieces = row

/-- Anything may be next. -/
def Anything (_ : List Char) : Prop := True

namespace Writes

variable {Next Next' : List Char → Prop} {text text' : List Char} {row row' : List Token}

theorem weaken (h : Writes Next text row) (hnext : ∀ rest, Next' rest → Next rest) :
    Writes Next' text row := by
  obtain ⟨pieces, hunmark, hjoined, hrow⟩ := h
  exact ⟨pieces, hunmark, fun rest hrest => hjoined rest (hnext rest hrest), hrow⟩

theorem nil : Writes Anything [] [] :=
  ⟨[], fun _ => rfl, fun _ _ => trivial, rfl⟩

theorem append (h : Writes Next text row) (h' : Writes Next' text' row')
    (hnext : ∀ rest, Next' rest → Next (unmark text' ++ rest)) :
    Writes Next' (text ++ text') (row ++ row') := by
  obtain ⟨pieces, hunmark, hjoined, rfl⟩ := h
  obtain ⟨pieces', hunmark', hjoined', rfl⟩ := h'
  have htext' : unmark text' = pieces'.flatMap Piece.chars := by simpa using hunmark' []
  refine ⟨pieces ++ pieces', fun rest => ?_, fun rest hrest => ?_, bareTokens_append _ _⟩
  · rw [List.append_assoc, hunmark, hunmark', List.flatMap_append, List.append_assoc]
  · have hpieces := hjoined _ (hnext rest hrest)
    rw [htext'] at hpieces
    exact joined_append.mpr ⟨hpieces, hjoined' rest hrest⟩

/-- Nothing has to be known about what follows a part that ends by itself. -/
theorem andThen (h : Writes Anything text row) (h' : Writes Next text' row') :
    Writes Next (text ++ text') (row ++ row') :=
  h.append h' fun _ _ => trivial

/-- A character that belongs to no word, number or mark ends what stands before it. -/
theorem clear (h : Writes Clear text row) {c : Char} {cs : List Char}
    (h' : Writes Next (c :: cs) row')
    (hc : (Cursor.isWordChar c || c == '.' || c == '=' || !isUnmarked c) = false) :
    Writes Next (text ++ c :: cs) (row ++ row') := by
  refine h.append h' fun rest _ => ?_
  simp only [Bool.or_eq_false_iff, Bool.not_eq_false'] at hc
  rw [unmark_cons hc.2]
  exact clear_of_char (by simp [hc]) _

end Writes

/-! ### Pieces of a listing -/

/-- A piece that has no marks is read as it stands. -/
theorem writes_piece {Next : List Char → Prop} (q : Piece)
    (hchars : ∀ c ∈ q.chars, isUnmarked c = true) (hends : ∀ rest, Next rest → q.Ends rest)
    (hrange : q.InRange) :
    Writes Next q.chars (q.token? .start).toList := by
  refine ⟨[q], fun rest => ?_, fun rest hrest => ?_, ?_⟩
  · rw [unmark_append hchars, List.flatMap_singleton]
  · exact ⟨hends rest hrest, hrange, trivial⟩
  · cases hq : q.token? .start <;> simp [bareTokens, hq]

theorem writes_blank {c : Char} (h : (Text.isBlank c && isUnmarked c) = true) :
    Writes Anything [c] [] := by
  obtain ⟨hblank, hc⟩ := Bool.and_eq_true_iff.mp h
  exact writes_piece (.blank c hblank) (by simpa [Piece.chars] using hc)
    (fun _ _ => trivial) trivial

theorem writes_spaces (n : Nat) : Writes Anything (Text.spaces n).toList [] := by
  rw [Text.spaces, String.toList_ofList]
  induction n with
  | zero => exact .nil
  | succ n ih => exact (writes_blank (c := ' ') (by decide)).andThen ih

theorem writes_comment {inside : List Char} (hinside : '\x7d' ∉ inside)
    (hchars : ∀ c ∈ inside, isUnmarked c = true) :
    Writes Anything ('\x7b' :: (inside ++ ['\x7d'])) [] := by
  refine writes_piece (.comment inside hinside) ?_ (fun _ _ => trivial) trivial
  simp only [Piece.chars, List.mem_cons, List.mem_append, List.not_mem_nil, or_false]
  rintro c (rfl | hc | rfl)
  · decide
  · exact hchars c hc
  · decide

/-- Punctuation other than a colon ends by itself. -/
theorem writes_mark {c : Char} {kind : Token.Kind} (h : Token.Kind.ofChar? c = some kind)
    (hc : (isUnmarked c && c != ':') = true) :
    Writes Anything [c] [⟨kind, some (.string c.toString), .start⟩] := by
  simp only [Bool.and_eq_true, bne_iff_ne, ne_eq] at hc
  refine writes_piece (.mark c kind h) ?_ ?_ trivial
  · simpa [Piece.chars] using hc.1
  · exact fun rest _ => fun hcolon => hc.2 hcolon.1

theorem writes_colon : Writes Clear [':'] [⟨.colon, some (.string ":"), .start⟩] :=
  writes_piece (.mark ':' .colon rfl) (List.all_eq_true.mp rfl)
    (fun _ hrest => Piece.ends_of_clear _ hrest) trivial

theorem writes_assign : Writes Anything [':', '='] [⟨.assign, some (.string ":="), .start⟩] :=
  writes_piece .assign (List.all_eq_true.mp rfl) (fun _ _ => trivial) trivial

theorem isUnmarked_of_isWordChar {c : Char} (h : Cursor.isWordChar c = true) :
    isUnmarked c = true := by
  have hopen : Cursor.isWordChar '<' = false := by decide +kernel
  have hquote : Cursor.isWordChar '\'' = false := by decide +kernel
  simp only [isUnmarked, Bool.and_eq_true, decide_eq_true_eq]
  constructor
  · rintro rfl
    simp [hopen] at h
  · rintro rfl
    simp [hquote] at h

theorem isUnmarked_of_digits (digits : Digits) : ∀ c ∈ digits.chars, isUnmarked c = true :=
  fun c hc => isUnmarked_of_isWordChar (isWordChar_of_isDigit (digits.isDigit c hc))

theorem writes_integer (digits : Digits) (h : decimal digits.chars ≤ 2 ^ 63 - 1) :
    Writes Clear digits.chars
      [⟨.integerLiteral, some (.integer (Int64.ofInt (decimal digits.chars))), .start⟩] :=
  writes_piece (.integer digits) (isUnmarked_of_digits digits)
    (fun _ hrest => Piece.ends_of_clear _ hrest) h

theorem writes_real (whole fraction : Digits) {x : Float}
    (hx : Float.ofScientific (decimal (whole.chars ++ fraction.chars)) true
      fraction.chars.length = x)
    (hfinite : x.isFinite = true) :
    Writes Clear (whole.chars ++ '.' :: fraction.chars)
      [⟨.realLiteral, some (.real x), .start⟩] := by
  subst hx
  refine writes_piece (.real whole fraction) ?_
    (fun _ hrest => Piece.ends_of_clear _ hrest) hfinite
  simp only [Piece.chars, List.mem_append, List.mem_cons]
  rintro c (hc | rfl | hc)
  · exact isUnmarked_of_digits whole c hc
  · decide
  · exact isUnmarked_of_digits fraction c hc

theorem writes_quoted {contents : List Char} (h : '\'' ∉ contents) :
    Writes Anything ('\'' :: (contents ++ ['\'']))
      [⟨.stringLiteral, some (.string (String.ofList contents)), .start⟩] := by
  refine ⟨[.quoted contents h], fun rest => ?_, fun _ _ => ⟨trivial, trivial, trivial⟩, rfl⟩
  simpa [Piece.chars] using unmark_quoted h rest

/-! ### Words -/

/-- A letter, and letters and numerals after it. -/
def isWord (w : List Char) : Bool := w.head?.any Text.isLetter && w.tail.all Cursor.isWordChar

/-- The token of a word: a reserved word or an identifier, in capitals. -/
def wordToken (w : List Char) : Token :=
  ⟨(Token.Kind.ofWord? (String.ofList (Text.upper w))).getD .identifier,
    some (.string (String.ofList (Text.upper w))), .start⟩

theorem exists_word {w : List Char} (h : isWord w = true) :
    ∃ q : Piece, q.chars = w ∧ q.token? .start = some (wordToken w) ∧ q.InRange ∧
      ∀ rest, Stops Cursor.isWordChar rest → q.Ends rest := by
  cases w with
  | nil => cases h
  | cons c cs =>
      simp only [isWord, List.head?_cons, Option.any_some, List.tail_cons, Bool.and_eq_true,
        List.all_eq_true] at h
      exact ⟨.word c cs h.1 h.2, rfl, rfl, trivial, fun rest hrest => hrest⟩

theorem isWordChar_of_isWord {w : List Char} (h : isWord w = true) :
    ∀ c ∈ w, Cursor.isWordChar c = true := by
  cases w with
  | nil => cases h
  | cons c cs =>
      simp only [isWord, List.head?_cons, Option.any_some, List.tail_cons, Bool.and_eq_true,
        List.all_eq_true] at h
      refine List.forall_mem_cons.mpr ⟨?_, h.2⟩
      simp [Cursor.isWordChar, h.1]

theorem writes_word {w : List Char} (h : isWord w = true) :
    Writes (Stops Cursor.isWordChar) w [wordToken w] := by
  obtain ⟨q, rfl, htoken, hrange, hends⟩ := exists_word h
  have hq :=
    writes_piece q (fun c hc => isUnmarked_of_isWordChar (isWordChar_of_isWord h c hc)) hends
      hrange
  rwa [htoken] at hq

/-- A use of a variable is read as its name. -/
theorem writes_reference {w type : List Char} (h : isWord w = true) (htype : '>' ∉ type) :
    Writes (Stops Cursor.isWordChar) ('<' :: (w ++ ':' :: (type ++ ['>']))) [wordToken w] := by
  obtain ⟨q, hq, htoken, hrange, hends⟩ := exists_word h
  have hcolon : ':' ∉ w := by
    intro hmem
    have hword := isWordChar_of_isWord h _ hmem
    revert hword
    decide +kernel
  refine ⟨[q], fun rest => ?_, fun rest hrest => ⟨hends rest hrest, hrange, trivial⟩, ?_⟩
  · simpa [hq] using unmark_reference hcolon htype rest
  · simp [bareTokens, htoken]

end MiniPascal
