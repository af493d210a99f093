import MiniPascal.Proofs.Grammar.Writing
import MiniPascal.Proofs.Text.Capitals

/-!
Reading the spelling of a word again. The spelling is in upper case already, so that it is read
as the same word, of the same kind, as long as it is a word at all. It always is for reserved
words. The spelling of an identifier is a word unless the capital of one of its letters carries
a mark: there reading stops, since a mark is neither a letter nor a numeral.
-/

namespace MiniPascal

namespace Token.Kind

/-- The kinds of words: the reserved words, and identifiers. -/
def isWord : Kind → Bool
  | .program | .integer | .real | .string | .div | .var | .procedure | .beginBlock |
      .write | .writeln
  | .endBlock | .identifier => true
  | _ => false

theorem isWord_of_ofChar? {c : Char} {kind : Kind} (h : ofChar? c = some kind) :
    kind.isWord = false := by
  unfold ofChar? at h
  split at h <;> cases h <;> rfl

end Token.Kind

/-! ### Spellings -/

/-- The spelling of a word: it starts with a letter, it is in upper case, and it has letters,
numerals and marks in it. -/
structure IsSpelling (cs : List Char) : Prop where
  head : ∃ c ∈ cs.head?, Text.isLetter c = true
  capital : ∀ c ∈ cs, Text.upperChar c = [c]
  wordChar : ∀ c ∈ cs, Cursor.isWordChar c = true ∨ c ∈ Text.capitalMarks

theorem isSpelling_upper {first : Char} {others : List Char}
    (hfirst : Text.isLetter first = true)
    (hothers : ∀ c ∈ others, Cursor.isWordChar c = true) :
    IsSpelling (Text.upper (first :: others)) where
  head := by
    obtain ⟨d, ds, hds, hd⟩ := Text.exists_upperChar_eq_cons hfirst
    exact ⟨d, by simp [Text.upper, hds], hd⟩
  capital d hd := by
    obtain ⟨c, -, hdc⟩ := List.mem_flatMap.mp hd
    exact Text.upperChar_of_mem hdc
  wordChar d hd := by
    obtain ⟨c, hc, hdc⟩ := List.mem_flatMap.mp hd
    have hword : Cursor.isWordChar c = true := by
      rcases List.mem_cons.mp hc with rfl | hc
      · simp [Cursor.isWordChar, hfirst]
      · exact hothers c hc
    rcases Text.mem_upperChar_cases hdc with rfl | hletter | hmark
    · exact .inl hword
    · exact .inl (by simp [Cursor.isWordChar, hletter])
    · exact .inr hmark

namespace IsSpelling

variable {cs before after : List Char} {c : Char}

/-- The word at the start of a spelling. -/
theorem exists_piece (h : IsSpelling (before ++ after))
    (hbefore : ∀ c ∈ before, c ∉ Text.capitalMarks) (hne : before ≠ []) :
    ∃ q : Piece, q.chars = before ∧
      (Stops Cursor.isWordChar after → Segmented [q] (before ++ after) after) ∧
      ∀ p, q.token? p = some ⟨(Token.Kind.ofWord? (String.ofList before)).getD .identifier,
        some (.string (String.ofList before)), p⟩ := by
  obtain ⟨d, ds, rfl⟩ := List.exists_cons_of_ne_nil hne
  obtain ⟨d', hd', hletter⟩ := h.head
  cases hd'
  have hwords : ∀ c ∈ ds, Cursor.isWordChar c = true := by
    intro c hc
    have hmem : c ∈ d :: ds := List.mem_cons_of_mem d hc
    exact (h.wordChar c (List.mem_append_left after hmem)).resolve_right (hbefore c hmem)
  have hupper : Text.upper (d :: ds) = d :: ds :=
    Text.upper_of_forall fun c hc => h.capital c (List.mem_append_left after hc)
  refine ⟨.word d ds hletter hwords, rfl, fun hstops => ?_, fun p => ?_⟩
  · exact .cons (Piece.longestIn_of_ends (p := .word d ds hletter hwords) hstops) trivial
      (.nil after)
  · rw [Piece.token?, hupper]

/-- A spelling without marks is read as a word. -/
theorem tokens_eq_ok (h : IsSpelling cs) (hmarks : ∀ c ∈ cs, c ∉ Text.capitalMarks) :
    tokens (String.ofList cs) = .ok [⟨(Token.Kind.ofWord? (String.ofList cs)).getD .identifier,
      some (.string (String.ofList cs)), .start⟩, ⟨.endOfText, none, .behind cs⟩] := by
  have hne : cs ≠ [] := by
    rintro rfl
    obtain ⟨c, hc, -⟩ := h.head
    cases hc
  rw [← List.append_nil cs] at h
  obtain ⟨q, -, hsegmented, htoken⟩ := h.exists_piece hmarks hne
  have hpieces : Segmented [q] (String.ofList cs).toList [] := by
    rw [String.toList_ofList, ← List.append_nil cs]
    exact hsegmented (by simp [Stops])
  rw [tokens_of_segmented hpieces, lexemes, lexemes, htoken, String.toList_ofList]
  rfl

/-- Otherwise reading stops at the first mark. -/
theorem tokens_eq_error (h : IsSpelling (before ++ c :: after)) (hc : c ∈ Text.capitalMarks)
    (hbefore : ∀ d ∈ before, d ∉ Text.capitalMarks) :
    tokens (String.ofList (before ++ c :: after)) =
      .error (.unrecognizedCharacter c (.behind before)) := by
  obtain ⟨hlead, hword⟩ := Text.capitalMarks_nothing c hc
  have hne : before ≠ [] := by
    rintro rfl
    obtain ⟨d, hd, hletter⟩ := h.head
    cases hd
    simp [Cursor.isWordChar, hletter] at hword
  obtain ⟨q, hchars, hsegmented, -⟩ := h.exists_piece hbefore hne
  have hpieces : Segmented [q] (String.ofList (before ++ c :: after)).toList (c :: after) := by
    rw [String.toList_ofList]
    exact hsegmented (stops_cons hword)
  have hstart : [q].flatMap Piece.chars = before := by simp [hchars]
  refine tokens_of_unreadable hpieces ?_
  rw [hstart]
  refine .character fun p hp => ?_
  obtain ⟨d, ds, hds, hd⟩ := p.exists_cons
  rw [hds, List.head?_cons, Option.some.injEq] at hp
  rw [hp, hlead] at hd
  cases hd

end IsSpelling

/-! ### Words -/

/-- What is read as a word has a spelling, and the spelling tells the kind. -/
theorem Piece.exists_isSpelling {q : Piece} {p : Position} {t : Token}
    (h : q.token? p = some t) (ht : t.kind.isWord = true) :
    ∃ cs, IsSpelling cs ∧ t.value = some (.string (String.ofList cs)) ∧
      t.kind = (Token.Kind.ofWord? (String.ofList cs)).getD .identifier := by
  cases q with
  | blank c hc => cases h
  | comment inside hinside => cases h
  | word first others hfirst hothers =>
      cases h
      exact ⟨_, isSpelling_upper hfirst hothers, rfl, rfl⟩
  | mark c kind hmark =>
      cases h
      rw [Token.Kind.isWord_of_ofChar? hmark] at ht
      cases ht
  | _ =>
      cases h
      cases ht

theorem exists_isSpelling_of_tokens {text : String} {ts : List Token} {t : Token}
    (h : tokens text = .ok ts) (hmem : t ∈ ts) (ht : t.kind.isWord = true) :
    ∃ cs, IsSpelling cs ∧ t.value = some (.string (String.ofList cs)) ∧
      t.kind = (Token.Kind.ofWord? (String.ofList cs)).getD .identifier := by
  obtain ⟨pieces, -, rfl⟩ := tokens_eq_ok_iff.mp h
  rcases List.mem_append.mp hmem with hpieces | hend
  · obtain ⟨q, -, p, hq⟩ := exists_piece_of_mem hpieces
    exact Piece.exists_isSpelling hq ht
  · cases List.mem_singleton.mp hend
    cases ht

/-- Reserved words have no marks in them. -/
theorem notMem_capitalMarks_of_ofWord? {word : String} {kind : Token.Kind}
    (h : Token.Kind.ofWord? word = some kind) : ∀ c ∈ word.toList, c ∉ Text.capitalMarks := by
  rw [Text.forall_notMem_capitalMarks_iff]
  unfold Token.Kind.ofWord? at h
  split at h
  case h_12 => cases h
  all_goals decide

/-- The spelling of a word is read as the same word, if no capital in it carries a mark. In
reserved words none does. In an identifier, reading stops at the first mark. -/
theorem canonical_words_are_stable (text : String) (j j' : Journal)
    (ts : List Token) (t : Token) (h : (tokenize text j).1 = .ok ts) (hmem : t ∈ ts)
    (ht : t.kind.isWord = true) :
    ∃ spelling, t.value = some (.string spelling) ∧
      ((∀ c ∈ spelling.toList, c ∉ Text.capitalMarks) →
        (tokenize spelling j').1 = .ok
          [⟨t.kind, some (.string spelling), .start⟩,
            ⟨.endOfText, none, .behind spelling.toList⟩]) ∧
      (t.kind ≠ .identifier → ∀ c ∈ spelling.toList, c ∉ Text.capitalMarks) ∧
      ∀ before c after, spelling.toList = before ++ c :: after → c ∈ Text.capitalMarks →
        (∀ d ∈ before, d ∉ Text.capitalMarks) →
          (tokenize spelling j').1 = .error
            (.lexical (.unrecognizedCharacter c (.behind before))) := by
  obtain ⟨cs, hcs, hvalue, hkind⟩ :=
    exists_isSpelling_of_tokens (tokenize_eq_ok_iff.mp h) hmem ht
  refine ⟨String.ofList cs, hvalue, ?_, ?_, ?_⟩
  · intro hmarks
    rw [String.toList_ofList] at hmarks
    rw [tokenize_eq_ok_iff, hkind, hcs.tokens_eq_ok hmarks, String.toList_ofList]
  · intro hne
    cases hword : Token.Kind.ofWord? (String.ofList cs) with
    | none =>
        rw [hword, Option.getD_none] at hkind
        exact absurd hkind hne
    | some kind => exact notMem_capitalMarks_of_ofWord? hword
  · intro before c after hsplit hc hbefore
    rw [String.toList_ofList] at hsplit
    subst hsplit
    rw [tokenize_eq, hcs.tokens_eq_error hc hbefore, Except.mapError]

/-- The capitals of `ﬁ` and `ß` are two letters each. -/
theorem ligatureText_stable :
    (tokenize "-ﬁnßd2" (.ofSettings {})).1 = .ok [⟨.minus, some (.string "-"), .start⟩,
      ⟨.identifier, some (.string "FINSSD2"), ⟨1, 2⟩⟩, ⟨.endOfText, none, ⟨1, 7⟩⟩] ∧
    (tokenize "FINSSD2" (.ofSettings {})).1 = .ok
      [⟨.identifier, some (.string "FINSSD2"), .start⟩, ⟨.endOfText, none, ⟨1, 8⟩⟩] := by
  have htokens : (tokenize "-ﬁnßd2" (.ofSettings {})).1 =
      .ok [⟨.minus, some (.string "-"), .start⟩,
      ⟨.identifier, some (.string "FINSSD2"), ⟨1, 2⟩⟩, ⟨.endOfText, none, ⟨1, 7⟩⟩] := by
    decide +kernel
  obtain ⟨spelling, hvalue, hstable, -, -⟩ :=
    canonical_words_are_stable "-ﬁnßd2" (.ofSettings {})
      (.ofSettings {}) _ ⟨.identifier, some (.string "FINSSD2"), ⟨1, 2⟩⟩ htokens (by simp) rfl
  cases hvalue
  exact ⟨htokens, hstable (Text.forall_notMem_capitalMarks_iff.mpr (by decide +kernel))⟩

/-- The capital of `ǰ` is a letter with a mark, and the mark is not read. -/
theorem caronText_not_stable :
    (tokenize "ǰ" (.ofSettings {})).1 = .ok
      [⟨.identifier, some (.string "J\u030C"), .start⟩, ⟨.endOfText, none, ⟨1, 2⟩⟩] ∧
    (tokenize "J\u030C" (.ofSettings {})).1 =
      .error (.lexical (.unrecognizedCharacter '\u030C' ⟨1, 2⟩)) := by
  decide +kernel

end MiniPascal
