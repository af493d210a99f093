import MiniPascal.Proofs.Decimal.Finite
import MiniPascal.Proofs.Listing.Layout
import MiniPascal.Syntax.Outline

/-!
Outlines as trees of labels, and how they are read off their text. The spaces at the start of a
row tell its depth, the letters behind them its word, and brackets or quotes end what stands in
it, so a text is the text of one list of rows only, even if strings run over several lines. The
depths of the rows then tell which rows belong together.
-/

namespace MiniPascal

/-- What stands before the end of a run is one thing only, and so is what stands behind it. -/
theorem append_eq_append_iff_of_run {α : Type} {f : α → Bool} {xs ys rest rest' : List α}
    (hxs : ∀ x ∈ xs, f x = true) (hys : ∀ x ∈ ys, f x = true)
    (hrest : ∀ x ∈ rest.head?, f x = false) (hrest' : ∀ x ∈ rest'.head?, f x = false) :
    xs ++ rest = ys ++ rest' ↔ xs = ys ∧ rest = rest' := by
  have hrun : ∀ {zs rest : List α}, (∀ x ∈ zs, f x = true) → (∀ x ∈ rest.head?, f x = false) →
      (zs ++ rest).takeWhile f = zs := by
    intro zs rest hzs hrest
    rw [List.takeWhile_append_of_pos hzs]
    cases rest with
    | nil => simp
    | cons x rest => simp [hrest x rfl]
  constructor
  · intro h
    have hsame : xs = ys := by rw [← hrun hxs hrest, h, hrun hys hrest']
    subst hsame
    exact ⟨rfl, List.append_cancel_left h⟩
  · rintro ⟨rfl, rfl⟩
    rfl

/-- The same for a run that ends before the first `c`. -/
theorem append_cons_eq_append_cons_iff {c : Char} {cs cs' rest rest' : List Char}
    (hcs : c ∉ cs) (hcs' : c ∉ cs') : cs ++ c :: rest = cs' ++ c :: rest' ↔
    cs = cs' ∧ rest = rest' := by
  rw [append_eq_append_iff_of_run (forall_ne_of_notMem hcs)
    (forall_ne_of_notMem hcs') (by simp) (by simp), List.cons.injEq]
  simp only [true_and]

/-! ### Labels -/

/-- What a row of an outline says. -/
inductive Label where
  | program (name : String)
  | block
  | varDecl (name : String) (type : DataType)
  | procedureDecl (name : String)
  | param (name : String) (type : DataType)
  | compound
  | assign (name : String)
  | procedureCall (name : String)
  | write
  | writeln
  | noOp
  | var (name : String)
  | binary (op : BinaryOp)
  | unary (op : UnaryOp)
  | integer (n : Int64)
  | real (x : Float)
  | string (s : String)

namespace Label

def literal : Value → Label
  | .integer n => .integer n
  | .real x => .real x
  | .string s => .string s

/-- The word at the start of the row. -/
def word : Label → String
  | .program _ => "Program"
  | .block => "Block"
  | .varDecl _ _ => "VarDecl"
  | .procedureDecl _ => "ProcedureDecl"
  | .param _ _ => "Param"
  | .compound => "Compound"
  | .assign _ => "Assign"
  | .procedureCall _ => "ProcedureCall"
  | .write => "Write"
  | .writeln => "Writeln"
  | .noOp => "NoOp"
  | .var _ => "Var"
  | .binary _ => "BinOp"
  | .unary _ => "UnaryOp"
  | .integer _ => "Integer"
  | .real _ => "Real"
  | .string _ => "Str"

/-- What stands in brackets behind the word. -/
def content : Label → Option String
  | .program name | .procedureDecl name | .assign name | .procedureCall name | .var name =>
      some name
  | .varDecl name type | .param name type => some s!"{name} : {type.name}"
  | .binary op => some op.symbol
  | .unary op => some op.symbol
  | .integer n => some (toString n.toInt)
  | .real x => some (Decimal.plain x)
  | .string s => some s!"'{s}'"
  | .block | .compound | .write | .writeln | .noOp => none

/-- The characters behind the word. -/
def tail (l : Label) : List Char := l.content.elim [] fun s => '(' :: (s.toList ++ [')'])

def text (l : Label) : String :=
  match l.content with
  | none => l.word
  | some s => l.word ++ "(" ++ s ++ ")"

end Label

/-- Every ASCII character of the name is a capital or a digit. -/
def IsSpelled (name : String) : Prop := ∀ c ∈ name.toList, isAscii c = true → isPlain c = true

theorem IsSpelled.notMem {name : String} (h : IsSpelled name) {c : Char}
    (hascii : isAscii c = true) (hplain : isPlain c = false) : c ∉ name.toList := by
  intro hc
  rw [h c hc hascii] at hplain
  cases hplain

/-- The names and the literal of a row are as they are read from a text. -/
def Label.Readable : Label → Prop
  | .program name | .procedureDecl name | .assign name | .procedureCall name | .var name =>
      IsSpelled name
  | .varDecl name _ | .param name _ => IsSpelled name
  | .integer n => (Value.integer n).Readable
  | .real x => (Value.real x).Readable
  | .string s => (Value.string s).Readable
  | .block | .compound | .write | .writeln | .noOp | .binary _ | .unary _ => True

/-! ### Literals -/

theorem toList_toString_of_nonneg {n : Int64} {k : Nat} (hk : n.toInt = k) :
    (toString n.toInt).toList = Nat.toDigits 10 k := by
  rw [hk]
  exact String.toList_ofList

theorem toString_toInt_inj {n m : Int64} (hn : 0 ≤ n.toInt) (hm : 0 ≤ m.toInt)
    (h : toString n.toInt = toString m.toInt) : n = m := by
  obtain ⟨k, hk⟩ := Int.eq_ofNat_of_zero_le hn
  obtain ⟨l, hl⟩ := Int.eq_ofNat_of_zero_le hm
  have hdigits : Nat.toDigits 10 k = Nat.toDigits 10 l := by
    rw [← toList_toString_of_nonneg hk, ← toList_toString_of_nonneg hl, h]
  have hvalue : k = l := by
    rw [← Decimal.decimal_toDigits k, hdigits, Decimal.decimal_toDigits]
  rw [← Int64.toInt_inj, hk, hl, hvalue]

/-- Doubles with the same text are the same, since the text reads back. -/
theorem plain_inj {x y : Float} (hx : (Value.real x).Readable) (hy : (Value.real y).Readable)
    (h : Decimal.plain x = Decimal.plain y) : x = y := by
  obtain ⟨whole, fraction, htext, rfl⟩ := Decimal.exists_plain hx.1 hx.2
  obtain ⟨whole', fraction', htext', rfl⟩ := Decimal.exists_plain hy.1 hy.2
  rw [h, htext'] at htext
  have hpoint : ∀ digits : Digits, '.' ∉ digits.chars :=
    fun digits hmem => absurd (digits.isDigit '.' hmem) (by decide)
  obtain ⟨hwhole, hfraction⟩ :=
    (append_cons_eq_append_cons_iff (hpoint whole') (hpoint whole)).mp htext
  rw [hwhole, hfraction]

/-! ### Reading a row -/

/-- What stands in brackets has neither a bracket at its end nor a quote in it, or it is in
quotes and has no other ones. -/
def IsClosed (s : String) : Prop :=
  (')' ∉ s.toList ∧ '\'' ∉ s.toList) ∨
    ∃ inside : List Char, s.toList = '\'' :: (inside ++ ['\'']) ∧ '\'' ∉ inside

theorem IsSpelled.isClosed {name : String} (h : IsSpelled name) : IsClosed name :=
  .inl ⟨h.notMem (by decide) (by decide), h.notMem (by decide) (by decide)⟩

namespace Label

theorem toList_typed (name : String) (type : DataType) :
    s!"{name} : {type.name}".toList = name.toList ++
      ' ' :: ':' :: ' ' :: type.name.toList := by
  simp [toString]

theorem isClosed_typed {name : String} (h : IsSpelled name) (type : DataType) :
    IsClosed s!"{name} : {type.name}" := by
  have htype : ∀ c ∈ [')', '\''], c ∉ ' ' :: ':' :: ' ' :: type.name.toList := by
    cases type <;> simp [DataType.name]
  rw [IsClosed, toList_typed]
  simp only [List.mem_append, not_or]
  exact .inl ⟨⟨h.notMem (by decide) (by decide), htype _ (by simp)⟩,
    ⟨h.notMem (by decide) (by decide), htype _ (by simp)⟩⟩

theorem isClosed_of_isDigit {s : String}
    (h : ∀ d ∈ s.toList, d.isDigit = true ∨ d = '-' ∨ d = '.') :
    IsClosed s := by
  have hnotMem : ∀ c : Char, c.isDigit = false → c ≠ '-' → c ≠ '.' → c ∉ s.toList := by
    intro c hdigit hminus hpoint hc
    rcases h c hc with hc | hc | hc
    · rw [hc] at hdigit
      cases hdigit
    · exact hminus hc
    · exact hpoint hc
  exact .inl ⟨hnotMem _ (by decide) (by decide) (by decide),
    hnotMem _ (by decide) (by decide) (by decide)⟩

theorem Readable.isClosed {l : Label} (h : l.Readable) {s : String} (hs : l.content = some s) :
    IsClosed s := by
  cases l with
  | program name | procedureDecl name | assign name | procedureCall name | var name =>
      cases hs
      exact IsSpelled.isClosed h
  | varDecl name type | param name type =>
      cases hs
      exact isClosed_typed h type
  | binary op =>
      cases hs
      exact .inl (by cases op <;> decide)
  | unary op =>
      cases hs
      exact .inl (by cases op <;> decide)
  | integer n =>
      cases hs
      obtain ⟨k, hk⟩ := Int.eq_ofNat_of_zero_le h
      refine isClosed_of_isDigit fun d hd => ?_
      rw [toList_toString_of_nonneg hk] at hd
      exact .inl (Nat.isDigit_of_mem_toDigits (by decide) (by decide) hd)
  | real x =>
      cases hs
      exact isClosed_of_isDigit fun d hd => Decimal.mem_plain h.1 hd
  | string s =>
      cases hs
      exact .inr ⟨s.toList, by simp [toString], h⟩
  | block | compound | write | writeln | noOp => cases hs

/-- Brackets end at one place only. -/
theorem closed_append_inj {s s' : String} (hs : IsClosed s) (hs' : IsClosed s')
    {rest rest' : List Char} (h : s.toList ++ ')' :: rest = s'.toList ++ ')' :: rest') :
    s = s' ∧ rest = rest' := by
  -- Where one of the two is in quotes, the first character tells that the other one is, too.
  have hquote : ∀ {cs inside rest rest' : List Char}, '\'' ∉ cs →
      cs ++ ')' :: rest ≠ '\'' :: (inside ++ ['\'']) ++ ')' :: rest' := by
    intro cs inside rest rest' hcs heq
    cases cs with
    | nil => simp at heq
    | cons c cs =>
        rw [List.cons_append, List.cons_append, List.cons.injEq] at heq
        exact hcs (heq.1 ▸ List.mem_cons_self)
  rcases hs with ⟨hbracket, hplain⟩ | ⟨inside, hinside, hnone⟩ <;>
    rcases hs' with ⟨hbracket', hplain'⟩ | ⟨inside', hinside', hnone'⟩
  · obtain ⟨hsame, hrest⟩ := (append_cons_eq_append_cons_iff hbracket hbracket').mp h
    exact ⟨String.toList_inj.mp hsame, hrest⟩
  · rw [hinside'] at h
    exact absurd h (hquote hplain)
  · rw [hinside] at h
    exact absurd h.symm (hquote hplain')
  · rw [hinside, hinside'] at h
    simp only [List.cons_append, List.append_assoc, List.nil_append, List.cons.injEq,
      true_and] at h
    obtain ⟨rfl, hrest⟩ := (append_cons_eq_append_cons_iff hnone hnone').mp h
    rw [List.cons.injEq] at hrest
    exact ⟨String.toList_inj.mp (hinside.trans hinside'.symm), hrest.2⟩

/-- What stands behind the word ends at one place only. -/
theorem tail_append_inj {l l' : Label} (hl : l.Readable) (hl' : l'.Readable)
    {rest rest' : List Char} (h : l.tail ++ '\n' :: rest = l'.tail ++ '\n' :: rest') :
    l.content = l'.content ∧ rest = rest' := by
  rw [tail, tail] at h
  cases hs : l.content with
  | none =>
      cases hs' : l'.content with
      | none => simpa [hs, hs'] using h
      | some s' => simp [hs, hs'] at h
  | some s =>
      cases hs' : l'.content with
      | none => simp [hs, hs'] at h
      | some s' =>
          simp only [hs, hs', Option.elim_some, List.cons_append, List.append_assoc,
            List.nil_append, List.cons.injEq, true_and] at h
          obtain ⟨rfl, hrest⟩ := closed_append_inj (hl.isClosed hs) (hl'.isClosed hs') h
          rw [List.cons.injEq] at hrest
          exact ⟨rfl, hrest.2⟩

theorem isAlpha_word (l : Label) :
    l.word.toList ≠ [] ∧ ∀ c ∈ l.word.toList, c.isAlpha = true := by
  cases l <;> simp [word]

theorem typed_inj {name other : String} {type kind : DataType} (hname : IsSpelled name)
    (hother : IsSpelled other) (h : s!"{name} : {type.name}" = s!"{other} : {kind.name}") :
    name = other ∧ type = kind := by
  have hchars := congrArg String.toList h
  rw [toList_typed, toList_typed, append_cons_eq_append_cons_iff
    (hname.notMem (by decide) (by decide)) (hother.notMem (by decide) (by decide)),
    String.toList_inj] at hchars
  obtain ⟨hsame, htype⟩ := hchars
  refine ⟨hsame, ?_⟩
  revert htype
  cases type <;> cases kind <;> simp [DataType.name]

/-- The word tells which kind of row it is. -/
theorem eq_of_word_eq {l l' : Label} (hl : l.Readable) (hl' : l'.Readable)
    (hword : l.word = l'.word) (hcontent : l.content = l'.content) : l = l' := by
  cases l <;> cases l' <;> try (simp [word] at hword; done)
  all_goals simp only [content, Option.some.injEq] at hcontent
  case varDecl.varDecl => simpa using typed_inj hl hl' hcontent
  case param.param => simpa using typed_inj hl hl' hcontent
  case binary.binary op op' =>
    revert hcontent
    cases op <;> cases op' <;> simp [BinaryOp.symbol]
  case unary.unary op op' =>
    revert hcontent
    cases op <;> cases op' <;> simp [UnaryOp.symbol]
  case integer.integer => rw [toString_toInt_inj hl hl' hcontent]
  case real.real => rw [plain_inj hl hl' hcontent]
  case string.string =>
    have hchars := congrArg String.toList hcontent
    simpa [toString, String.toList_inj] using hchars
  all_goals first | rfl | rw [hcontent]

theorem toList_outlineLine (depth : Nat) (l : Label) :
    (outlineLine depth l.text).toList =
      List.replicate (2 * depth) ' ' ++ (l.word.toList ++ (l.tail ++ ['\n'])) := by
  rw [text, tail]
  cases l.content <;> simp [outlineLine, Text.spaces]

/-- The spaces of a row end at its word. -/
theorem head?_word_append (l : Label) (cs : List Char) :
    ∀ c ∈ (l.word.toList ++ cs).head?, (c == ' ') = false := by
  intro c hc
  obtain ⟨hne, halpha⟩ := l.isAlpha_word
  rw [List.head?_append_of_ne_nil _ hne] at hc
  have hletter := halpha c (List.mem_of_head? hc)
  rw [beq_eq_false_iff_ne]
  rintro rfl
  exact absurd hletter (by decide)

/-- The word of a row ends at a bracket or at the end of the line. -/
theorem head?_tail_append (l : Label) (cs : List Char) :
    ∀ c ∈ (l.tail ++ '\n' :: cs).head?, c.isAlpha = false := by
  intro c hc
  rw [tail] at hc
  cases hs : l.content with
  | none | some _ =>
      rw [hs] at hc
      cases hc
      rfl

/-- A row ends at one place only. -/
theorem outlineLine_append_inj {depth depth' : Nat} {l l' : Label} (hl : l.Readable)
    (hl' : l'.Readable) {rest rest' : List Char}
    (h : (outlineLine depth l.text).toList ++ rest =
      (outlineLine depth' l'.text).toList ++ rest') :
    depth = depth' ∧ l = l' ∧ rest = rest' := by
  have hspaces : ∀ n, ∀ c ∈ List.replicate n ' ', (c == ' ') = true := by
    intro n c hc
    rw [List.eq_of_mem_replicate hc]
    rfl
  simp only [toList_outlineLine, List.append_assoc, List.singleton_append] at h
  obtain ⟨hdepth, h⟩ := (append_eq_append_iff_of_run (hspaces _) (hspaces _)
    (head?_word_append l _) (head?_word_append l' _)).mp h
  obtain ⟨hword, h⟩ := (append_eq_append_iff_of_run l.isAlpha_word.2 l'.isAlpha_word.2
    (head?_tail_append l _) (head?_tail_append l' _)).mp h
  obtain ⟨hcontent, hrest⟩ := tail_append_inj hl hl' h
  refine ⟨?_, eq_of_word_eq hl hl' (String.toList_inj.mp hword) hcontent, hrest⟩
  have hlength := congrArg List.length hdepth
  rw [List.length_replicate, List.length_replicate] at hlength
  omega

end Label

/-! ### Trees of labels -/

/-- A label, and the outlines that belong to it. -/
inductive Outline where
  | node (label : Label) (below : List Outline)

namespace Outline

mutual

/-- The rows of an outline, each with its depth. -/
def rows (depth : Nat) : Outline → List (Nat × Label)
  | .node label below => (depth, label) :: rowsAll (depth + 1) below

def rowsAll (depth : Nat) : List Outline → List (Nat × Label)
  | [] => []
  | o :: os => o.rows depth ++ rowsAll depth os

end

mutual

/-- Every row can be read. -/
def Readable : Outline → Prop
  | .node label below => label.Readable ∧ ReadableAll below

def ReadableAll : List Outline → Prop
  | [] => True
  | o :: os => o.Readable ∧ ReadableAll os

end

def rowText (row : Nat × Label) : String := outlineLine row.1 row.2.text

/-- The text of an outline, one row after the other. -/
def text (o : Outline) : String := String.join ((o.rows 0).map rowText)

/-- The rows go on above the given depth, if they go on at all. -/
def Above (depth : Nat) (rows : List (Nat × Label)) : Prop := ∀ row ∈ rows.head?, row.1 < depth

theorem Above.succ {depth : Nat} {rows : List (Nat × Label)} (h : Above depth rows) :
    Above (depth + 1) rows :=
  fun row hrow => Nat.lt_succ_of_lt (h row hrow)

theorem above_rowsAll_append (depth : Nat) (os : List Outline) {rest : List (Nat × Label)}
    (h : Above depth rest) : Above (depth + 1) (rowsAll depth os ++ rest) := by
  cases os with
  | nil => exact h.succ
  | cons o os =>
      cases o with
      | node label below =>
          intro row hrow
          cases hrow
          exact Nat.lt_succ_self depth

theorem not_above_rows_append (depth : Nat) (o : Outline) (rest : List (Nat × Label)) :
    ¬ Above depth (o.rows depth ++ rest) := by
  cases o with
  | node label below =>
      intro h
      exact Nat.lt_irrefl depth (h (depth, label) rfl)

mutual

/-- An outline ends where the rows come back to its depth. -/
theorem rows_append_inj : ∀ (o o' : Outline) {depth : Nat} {rest rest' : List (Nat × Label)},
    Above (depth + 1) rest → Above (depth + 1) rest' →
    o.rows depth ++ rest = o'.rows depth ++ rest' → o = o' ∧ rest = rest'
  | .node label below, .node label' below', depth, rest, rest', hrest, hrest', h => by
      rw [rows, rows, List.cons_append, List.cons_append, List.cons.injEq, Prod.mk.injEq] at h
      obtain ⟨⟨-, rfl⟩, h⟩ := h
      obtain ⟨rfl, rfl⟩ := rowsAll_append_inj below below' hrest hrest' h
      exact ⟨rfl, rfl⟩

theorem rowsAll_append_inj :
    ∀ (os os' : List Outline) {depth : Nat} {rest rest' : List (Nat × Label)},
    Above depth rest → Above depth rest' →
    rowsAll depth os ++ rest = rowsAll depth os' ++ rest' → os = os' ∧ rest = rest'
  | [], [], _, _, _, _, _, h => ⟨rfl, h⟩
  | [], o' :: os', depth, rest, rest', hrest, _, h => by
      rw [rowsAll, rowsAll, List.nil_append, List.append_assoc] at h
      exact absurd (h ▸ hrest) (not_above_rows_append depth o' _)
  | o :: os, [], depth, rest, rest', _, hrest', h => by
      rw [rowsAll, rowsAll, List.nil_append, List.append_assoc] at h
      exact absurd (h ▸ hrest') (not_above_rows_append depth o _)
  | o :: os, o' :: os', depth, rest, rest', hrest, hrest', h => by
      rw [rowsAll, rowsAll, List.append_assoc, List.append_assoc] at h
      obtain ⟨rfl, hothers⟩ := rows_append_inj o o' (above_rowsAll_append depth os hrest)
        (above_rowsAll_append depth os' hrest') h
      obtain ⟨rfl, rfl⟩ := rowsAll_append_inj os os' hrest hrest' hothers
      exact ⟨rfl, rfl⟩

end

mutual

theorem Readable.rows :
    ∀ {o : Outline}, o.Readable → ∀ depth, ∀ row ∈ o.rows depth, row.2.Readable
  | .node label below, h, depth, row, hrow => by
      rw [Outline.rows] at hrow
      rcases List.mem_cons.mp hrow with rfl | hrow
      · exact h.1
      · exact ReadableAll.rows h.2 (depth + 1) row hrow

theorem ReadableAll.rows : ∀ {os : List Outline}, ReadableAll os →
    ∀ depth, ∀ row ∈ rowsAll depth os, row.2.Readable
  | [], _, _, _, hrow => by cases hrow
  | o :: os, h, depth, row, hrow => by
      rw [rowsAll] at hrow
      rcases List.mem_append.mp hrow with hrow | hrow
      · exact Readable.rows h.1 depth row hrow
      · exact ReadableAll.rows h.2 depth row hrow

end

/-- A text is the text of one list of rows only. -/
theorem eq_of_flatMap_rowText_eq {rows rows' : List (Nat × Label)}
    (hrows : ∀ row ∈ rows, row.2.Readable) (hrows' : ∀ row ∈ rows', row.2.Readable)
    (h : rows.flatMap (fun row => (rowText row).toList) = rows'.flatMap
      fun row => (rowText row).toList) :
    rows = rows' := by
  have hne : ∀ (row : Nat × Label) (cs : List Char), (rowText row).toList ++ cs ≠ [] := by
    intro row cs
    simp [rowText, outlineLine]
  induction rows generalizing rows' with
  | nil =>
      cases rows' with
      | nil => rfl
      | cons row' rows' => exact absurd h.symm (hne row' _)
  | cons row rows ih =>
      cases rows' with
      | nil => exact absurd h (hne row _)
      | cons row' rows' =>
          obtain ⟨hrow, hrows⟩ := List.forall_mem_cons.mp hrows
          obtain ⟨hrow', hrows'⟩ := List.forall_mem_cons.mp hrows'
          rw [List.flatMap_cons, List.flatMap_cons] at h
          obtain ⟨hdepth, hlabel, hrest⟩ := Label.outlineLine_append_inj hrow hrow' h
          rw [ih hrows hrows' hrest, Prod.ext hdepth hlabel]

/-- A text is the text of one outline only. -/
theorem eq_of_text_eq {o o' : Outline} (ho : o.Readable) (ho' : o'.Readable)
    (h : o.text = o'.text) :
    o = o' := by
  have hchars : ∀ o : Outline,
      o.text.toList = (o.rows 0).flatMap fun row => (rowText row).toList := by
    intro o
    simp [text, String.toList_join, List.flatMap_map]
  have hrows : o.rows 0 = o'.rows 0 := by
    refine eq_of_flatMap_rowText_eq (ho.rows 0) (ho'.rows 0) ?_
    rw [← hchars, h, hchars]
  have hend : Above 1 [] := by
    intro row hrow
    cases hrow
  refine (rows_append_inj o o' hend hend ?_).1
  rw [hrows]

end Outline

end MiniPascal
