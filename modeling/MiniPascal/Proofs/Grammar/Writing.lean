import MiniPascal.Proofs.Grammar.Acceptance
import MiniPascal.Proofs.Token.Exactness
import MiniPascal.Run

/-!
Texts that are written piece by piece. Pieces that end where the next ones start are read again
one by one, so a text is parsed as soon as the tokens of its pieces derive a program; and how
they do does not depend on where in the text the pieces stand.
-/

namespace MiniPascal

/-! ### Pieces side by side -/

/-- Every piece ends where the next one starts, and the last one where `rest` starts. -/
def Joined : List Piece → List Char → Prop
  | [], _ => True
  | p :: pieces, rest =>
      p.Ends (pieces.flatMap Piece.chars ++ rest) ∧ p.InRange ∧ Joined pieces rest

@[simp]
theorem joined_nil (rest : List Char) : Joined [] rest :=
  trivial

@[simp]
theorem joined_cons {p : Piece} {pieces : List Piece} {rest : List Char} :
    Joined (p :: pieces) rest ↔
      p.Ends (pieces.flatMap Piece.chars ++ rest) ∧ p.InRange ∧ Joined pieces rest :=
  Iff.rfl

@[simp]
theorem joined_append {pieces others : List Piece} {rest : List Char} :
    Joined (pieces ++ others) rest ↔
      Joined pieces (others.flatMap Piece.chars ++ rest) ∧ Joined others rest := by
  induction pieces with
  | nil => simp
  | cons p pieces ih => simp [ih, and_assoc]

/-- What may follow any piece. -/
def Clear (rest : List Char) : Prop :=
  ∀ c ∈ rest.head?, Cursor.isWordChar c = false ∧ c ≠ '.' ∧ c ≠ '='

theorem clear_of_char {c : Char} (h : (Cursor.isWordChar c || c == '.' || c == '=') = false)
    (rest : List Char) : Clear (c :: rest) := by
  simp_all [Clear]

theorem isWordChar_of_isDigit {c : Char} (h : c.isDigit = true) :
    Cursor.isWordChar c = true := by
  have hmem : c.toNat ∈ List.range' 48 10 := by
    simp only [Char.isDigit, Bool.and_eq_true, decide_eq_true_eq, ge_iff_le] at h
    rw [List.mem_range'_1]
    exact ⟨h.1, Nat.lt_succ_of_le h.2⟩
  have hall : ∀ n ∈ List.range' 48 10, Cursor.isWordChar (Char.ofNat n) = true := by
    decide +kernel
  have hword := hall c.toNat hmem
  rwa [Char.ofNat_toNat] at hword

theorem Piece.ends_of_clear (p : Piece) {rest : List Char} (h : Clear rest) : p.Ends rest := by
  have hdigit : Stops Char.isDigit rest := by
    intro c hc
    refine Bool.eq_false_iff.mpr fun hdigit => ?_
    have hword := (h c hc).1
    rw [isWordChar_of_isDigit hdigit] at hword
    cases hword
  cases p with
  | word first others hfirst hothers => exact fun c hc => (h c hc).1
  | integer digits =>
      refine ⟨hdigit, ?_⟩
      rintro ⟨d, rest', rfl, -⟩
      exact (h '.' rfl).2.1 rfl
  | real whole fraction => exact hdigit
  | mark c kind hkind => exact fun hc => (h '=' hc.2).2.2 rfl
  | _ => trivial

theorem Joined.segmented {pieces : List Piece} {rest : List Char} (h : Joined pieces rest) :
    Segmented pieces (pieces.flatMap Piece.chars ++ rest) rest := by
  induction pieces with
  | nil => exact .nil rest
  | cons p pieces ih =>
      obtain ⟨hends, hrange, hjoined⟩ := h
      rw [List.flatMap_cons, List.append_assoc]
      exact .cons (Piece.longestIn_of_ends hends) hrange (ih hjoined)

theorem exists_piece_of_mem {before : List Char} {pieces : List Piece} {t : Token}
    (h : t ∈ lexemes before pieces) : ∃ q ∈ pieces, ∃ p, q.token? p = some t := by
  induction pieces generalizing before with
  | nil => cases h
  | cons q pieces ih =>
      rcases List.mem_append.mp h with hq | hpieces
      · exact ⟨q, List.mem_cons_self, _, Option.mem_toList.mp hq⟩
      · obtain ⟨q', hq', hp⟩ := ih hpieces
        exact ⟨q', List.mem_cons_of_mem q hq', hp⟩

@[simp]
theorem body_lexemes (before : List Char) (pieces : List Piece) :
    body (lexemes before pieces) = lexemes before pieces := by
  refine List.takeWhile_eq_self_iff.mpr fun t ht => ?_
  obtain ⟨q, -, p, hq⟩ := exists_piece_of_mem ht
  simpa using Piece.kind_ne_endOfText hq

/-! ### Parsing -/

theorem tokenize_eq_ok_iff {text : String} {j : Journal} {ts : List Token} :
    (tokenize text j).1 = .ok ts ↔ tokens text = .ok ts := by
  rw [tokenize_eq]
  cases tokens text <;> simp [Except.mapError]

theorem fst_parse {settings : Settings} {text : String} {j j₁ : Journal} {ts : List Token}
    (h : tokenize text j = (.ok ts, j₁)) :
    (parse settings text j).1 = (parseProgram ts settings j₁).1.mapError Error.syntactic := by
  simp only [parse, h]
  cases hprogram : parseProgram ts settings j₁ with
  | mk result j₂ => cases result <;> rfl

/-- What a text is parsed to is derived from the tokens of its pieces. -/
theorem parse_eq_ok_iff {settings : Settings} {text : String} {j : Journal}
    {program : Program} :
    (parse settings text j).1 = .ok program ↔
      ∃ pieces, Segmented pieces text.toList [] ∧
        ∃ d ≤ settings.maxNesting, Grammar.IsProgram d (lexemes [] pieces) program := by
  rcases htokenize : tokenize text j with ⟨e | ts, j₁⟩
  · have hnone : ∀ pieces, ¬ Segmented pieces text.toList [] := by
      intro pieces hpieces
      have htokens := (tokenize_eq_ok_iff (j := j)).mpr (tokens_of_segmented hpieces)
      rw [htokenize] at htokens
      cases htokens
    simp [parse, htokenize, hnone]
  · have htokens : tokens text = .ok ts := tokenize_eq_ok_iff.mp (congrArg Prod.fst htokenize)
    have hbody : ∀ pieces, Segmented pieces text.toList [] → body ts = lexemes [] pieces := by
      intro pieces hpieces
      rw [tokens_of_segmented hpieces, Except.ok.injEq] at htokens
      rw [← htokens, body_concat rfl, body_lexemes]
    have hparse : (parse settings text j).1 = .ok program ↔
        ∃ d ≤ settings.maxNesting, Grammar.IsProgram d (body ts) program := by
      rw [fst_parse htokenize, ← parseProgram_eq_ok_iff ts settings j₁]
      cases (parseProgram ts settings j₁).1 <;> simp [Except.mapError]
    obtain ⟨pieces, hpieces, -⟩ := tokens_eq_ok_iff.mp htokens
    rw [hparse]
    constructor
    · intro h
      exact ⟨pieces, hpieces, hbody pieces hpieces ▸ h⟩
    · rintro ⟨pieces', hpieces', h⟩
      rwa [hbody pieces' hpieces']

/-! ### Tokens without positions -/

/-- The token, moved to the start of the text. -/
def Token.bare (t : Token) : Token := { t with position := .start }

@[simp]
theorem Token.kind_bare (t : Token) : t.bare.kind = t.kind :=
  rfl

@[simp]
theorem Token.value_bare (t : Token) : t.bare.value = t.value :=
  rfl

@[simp]
theorem Token.word_bare (t : Token) : t.bare.word = t.word :=
  rfl

/-- The tokens of the pieces, without positions. -/
def bareTokens (pieces : List Piece) : List Token := pieces.filterMap (Piece.token? .start)

theorem Piece.bare_token? (q : Piece) (p : Position) :
    (q.token? p).map Token.bare = q.token? .start := by
  cases q <;> rfl

@[simp]
theorem map_bare_lexemes (before : List Char) (pieces : List Piece) :
    (lexemes before pieces).map Token.bare = bareTokens pieces := by
  induction pieces generalizing before with
  | nil => rfl
  | cons q pieces ih =>
      have hq := q.bare_token? (.behind before)
      rw [lexemes, List.map_append, ih, bareTokens, bareTokens, List.filterMap_cons]
      cases htoken : q.token? (.behind before) with
      | none | some _ =>
          rw [htoken] at hq
          simp [← hq]

@[simp]
theorem bareTokens_nil : bareTokens [] = [] :=
  rfl

@[simp]
theorem bareTokens_append (pieces others : List Piece) :
    bareTokens (pieces ++ others) = bareTokens pieces ++ bareTokens others :=
  List.filterMap_append ..

/-- A text of joined pieces is parsed to whatever their tokens derive. -/
theorem exists_parse_eq_ok {pieces : List Piece} {P : Program → Prop} {n : Nat}
    (hjoined : Joined pieces [])
    (hderives : ∀ ts, ts.map Token.bare = bareTokens pieces →
      ∃ d ≤ n, ∃ program, Grammar.IsProgram d ts program ∧ P program)
    {settings : Settings} (hn : n ≤ settings.maxNesting) (j : Journal) :
    ∃ program, (parse settings (String.ofList (pieces.flatMap Piece.chars)) j).1 =
      .ok program ∧ P program := by
  obtain ⟨d, hd, program, hprogram, hP⟩ := hderives _ (map_bare_lexemes [] pieces)
  have hsegmented := hjoined.segmented
  rw [List.append_nil] at hsegmented
  refine ⟨program, parse_eq_ok_iff.mpr ⟨pieces, ?_, d, Nat.le_trans hd hn, hprogram⟩, hP⟩
  rwa [String.toList_ofList]

end MiniPascal
