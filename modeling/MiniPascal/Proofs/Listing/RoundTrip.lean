import MiniPascal.Proofs.Listing.Blocks

/-!
A listing without its marks is read again as the program that was listed, with the levels of
the scopes at the names. Names that are words in ASCII are plain, and a literal that was read
from a text can be written so that it is read again.
-/

namespace MiniPascal

open Grammar

theorem Segmented.inRange_of_mem {pieces : List Piece} {text rest : List Char}
    (h : Segmented pieces text rest) : ∀ q ∈ pieces, q.InRange := by
  induction h with
  | nil => simp
  | cons _ hrange _ ih => exact List.forall_mem_cons.mpr ⟨hrange, ih⟩

namespace Token.Kind

theorem not_isLiteral_ofWord? (word : String) :
    ¬ IsLiteral ((ofWord? word).getD .identifier) := by
  rw [isLiteral_iff]
  unfold ofWord?
  split <;> simp

theorem not_isLiteral_ofChar? {c : Char} {kind : Token.Kind} (h : ofChar? c = some kind) :
    ¬ IsLiteral kind := by
  intro hkind
  unfold ofChar? at h
  split at h <;> cases h <;> cases hkind

end Token.Kind

namespace Piece

/-- An identifier that is ASCII in capitals is a plain name. -/
theorem isPlainName_of_identifier {q : Piece} {p : Position} {t : Token}
    (hq : q.token? p = some t) (hkind : t.kind = .identifier)
    (hascii : ∀ c ∈ t.word.toList, isAscii c = true) :
    IsPlainName t.word.toList := by
  cases q with
  | blank c hc => cases hq
  | comment inside hinside => cases hq
  | word first others hfirst hothers =>
      cases hq
      have hword : (String.ofList (Text.upper (first :: others))).toList =
          Text.upper (first :: others) :=
        String.toList_ofList
      change ∀ c ∈ (String.ofList (Text.upper (first :: others))).toList, _ at hascii
      change IsPlainName (String.ofList (Text.upper (first :: others))).toList
      rw [hword] at hascii ⊢
      exact isPlainName_upper hfirst hothers hascii
  | mark c kind hmark =>
      cases hq
      exact absurd (hkind ▸ hmark) (Token.Kind.ofChar?_ne_identifier c)
  | _ =>
      cases hq
      cases hkind

/-- The value of a literal in a text can be written so that it is read again. -/
theorem readable_of_literal {q : Piece} {p : Position} {t : Token} {v : Value}
    (hq : q.token? p = some t) (hrange : q.InRange) (hkind : IsLiteral t.kind)
    (hvalue : t.value = some v) : v.Readable := by
  cases q with
  | blank c hc => cases hq
  | comment inside hinside => cases hq
  | word first others hfirst hothers =>
      cases hq
      exact absurd hkind (Token.Kind.not_isLiteral_ofWord? _)
  | integer digits =>
      cases hq
      cases hvalue
      have hbound : decimal digits.chars ≤ 2 ^ 63 - 1 := hrange
      rw [Value.Readable, Int64.toInt_ofInt_of_le (by omega) (by omega)]
      exact Int.natCast_nonneg _
  | real whole fraction =>
      cases hq
      cases hvalue
      exact ⟨hrange, Decimal.isNegative_ofScientific _
        (List.length_pos_of_ne_nil fraction.ne_nil)⟩
  | quoted contents hquote =>
      cases hq
      cases hvalue
      rwa [Value.Readable, String.toList_ofList]
  | assign =>
      cases hq
      cases hkind
  | mark c kind hmark =>
      cases hq
      exact absurd hkind (Token.Kind.not_isLiteral_ofChar? hmark)

end Piece

/-- So can the literals of a program. -/
theorem readable_of_isProgram {pieces : List Piece} {text : String} {d : Nat}
    {program : Program} (hpieces : Segmented pieces text.toList [])
    (h : IsProgram d (lexemes [] pieces) program)
    {v : Value} (hv : v ∈ program.block.literals) : v.Readable := by
  obtain ⟨t, ht, hkind, hvalue⟩ := h.holds_literals v hv
  obtain ⟨q, hmem, p, hq⟩ := exists_piece_of_mem ht
  exact q.readable_of_literal hq (hpieces.inRange_of_mem q hmem) hkind hvalue

/-- The names of the identifiers are in ASCII. -/
def IsAsciiNamed (ts : List Token) : Prop :=
  ∀ t ∈ ts, t.kind = .identifier → t.word.toList.all isAscii = true

instance (ts : List Token) : Decidable (IsAsciiNamed ts) :=
  inferInstanceAs
    (Decidable (∀ t ∈ ts, t.kind = .identifier → t.word.toList.all isAscii = true))

section

variable {pieces : List Piece} (hascii : IsAsciiNamed (lexemes [] pieces))

include hascii

theorem IsAsciiNamed.isPlainName {t : Token} (ht : t ∈ lexemes [] pieces)
    (hkind : t.kind = .identifier) :
    IsPlainName t.word.toList := by
  obtain ⟨q, -, p, hq⟩ := exists_piece_of_mem ht
  exact q.isPlainName_of_identifier hq hkind (List.all_eq_true.mp (hascii t ht hkind))

theorem IsAsciiNamed.isPlainName_of_named {names : List String}
    (h : Named (lexemes [] pieces) names) {name : String} (hname : name ∈ names) :
    IsPlainName name.toList := by
  obtain ⟨t, ht, hkind, rfl⟩ := h name hname
  exact hascii.isPlainName ht hkind

/-- The name of a program is that of its second token. -/
theorem IsAsciiNamed.isPlainName_program {d : Nat} {program : Program}
    (h : IsProgram d (lexemes [] pieces) program) : IsPlainName program.name.toList := by
  generalize hts : lexemes [] pieces = ts at h
  cases h with
  | mk _ hn =>
      refine hascii.isPlainName ?_ hn
      rw [hts]
      exact List.mem_cons_of_mem _ List.mem_cons_self

theorem IsAsciiNamed.plain {d : Nat} {text : String} {program : Program}
    (hpieces : Segmented pieces text.toList []) (h : IsProgram d (lexemes [] pieces) program) :
    Plain program.block.names program.block.uses program.block.literals where
  name := hascii.isPlainName_of_named h.named
  use hu := hascii.isPlainName_of_named h.uses_named (List.mem_map_of_mem hu)
  literal hv := readable_of_isProgram hpieces h hv

end

/-- The listing of a program whose names are in ASCII, without its marks, is read as the
program with its names at the levels of their scopes. Positions, the numbers of the uses and
empty statements do not count. -/
theorem listing_reads_back (settings : Settings) (text : String) (j j' : Journal)
    (program : Program) (a : Analysis) (hparse : (parse settings text j).1 = .ok program)
    (hanalyze : (analyze program j').1 = .ok a)
    (hascii : ∀ ts, (tokenize text j).1 = .ok ts → IsAsciiNamed ts) :
    (∀ j'', ∃ ts, (tokenize (unmarked (a.listing program)) j'').1 = .ok ts) ∧
      ∃ nesting, ∀ settings' j'', nesting ≤ settings'.maxNesting →
        ∃ program', (parse settings' (unmarked (a.listing program)) j'').1 = .ok program' ∧
          program'.bare = program.leveled.bare := by
  obtain ⟨pieces, hpieces, d, -, hprogram⟩ := parse_eq_ok_iff.mp hparse
  have hnames : IsAsciiNamed (lexemes [] pieces) := by
    intro t ht
    exact hascii _ (tokenize_eq_ok_iff.mpr (tokens_of_segmented hpieces)) t
      (List.mem_append_left _ ht)
  obtain ⟨pieces', hpieces', nesting, program', hprogram', hbare⟩ :=
    (Analysis.resolves hparse hanalyze).exists_reading (hnames.isPlainName_program hprogram)
      (hnames.plain hpieces hprogram)
  refine ⟨fun j'' => ⟨_, tokenize_eq_ok_iff.mpr (tokens_of_segmented hpieces')⟩, nesting, ?_⟩
  intro settings' j'' hnesting
  exact ⟨program', parse_eq_ok_iff.mpr ⟨pieces', hpieces', nesting, hnesting,
    hprogram'⟩, hbare⟩

/-- Groups of parameters, a hidden name, signs, parentheses, reals, a string with the
characters of a mark in it, and compound and empty statements. -/
def roundTripText : String :=
  "program P; var x : real; procedure Q(a, b : integer; x : real); " ++
    "procedure R; begin x := -a end; begin x := a - (b - - +2) * a; R() end; " ++
    "begin begin ; x := 4.25 / (0.1 - x) end; Q(1, 2, x); writeln('<X1:REAL>') end."

theorem roundTripText_listing_reads_back :
    ∃ program a, (parse {} roundTripText { traces := [], dumps := [] }).1 = .ok program ∧
      (analyze program { traces := [], dumps := [] }).1 = .ok a ∧
      (∀ ts, (tokenize roundTripText { traces := [], dumps := [] }).1 = .ok ts →
        IsAsciiNamed ts) ∧
      ∃ nesting, ∀ settings j, nesting ≤ settings.maxNesting →
        ∃ program', (parse settings (unmarked (a.listing program)) j).1 = .ok program' ∧
          program'.bare = program.leveled.bare := by
  -- One test for both, since the text is long to read.
  have htest : ((tokenize roundTripText { traces := [], dumps := [] }).1.toOption.any
        (fun ts => decide (IsAsciiNamed ts)) &&
      (parse {} roundTripText { traces := [], dumps := [] }).1.toOption.any
        fun p => (analyze p { traces := [], dumps := [] }).1.toBool) = true := by
    decide +kernel
  obtain ⟨hnames, hreads⟩ := Bool.and_eq_true_iff.mp htest
  obtain ⟨program, a, hparse, hanalyze⟩ := exists_analysis {} roundTripText _ _ hreads
  have hascii : ∀ ts, (tokenize roundTripText { traces := [], dumps := [] }).1 = .ok ts →
      IsAsciiNamed ts := by
    intro ts hts
    rw [hts] at hnames
    exact of_decide_eq_true hnames
  exact ⟨program, a, hparse, hanalyze, hascii,
    (listing_reads_back {} roundTripText _ _ program a hparse hanalyze hascii).2⟩

end MiniPascal
