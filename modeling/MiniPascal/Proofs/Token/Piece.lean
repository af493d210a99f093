import MiniPascal.Proofs.Text.Position
import MiniPascal.Token.Scan

/-!
The pieces of a text: blanks, comments and lexemes. A piece is read off the start of a text if
no other piece there is longer. The first character tells which pieces can start there at all,
so a look at what follows is enough to see that a piece is the longest one.
-/

namespace MiniPascal

/-! ### Classes of characters -/

namespace Text

theorem mem_flatMap_of_inRanges {ranges : List CodeRange} {n : Nat}
    (h : inRanges ranges n = true) :
    n ∈ ranges.flatMap fun r => List.range' r.1 (r.2 + 1 - r.1) := by
  obtain ⟨r, hr, hle⟩ := exists_mem_of_inRanges h
  refine List.mem_flatMap.mpr ⟨r, hr, ?_⟩
  rw [List.mem_range'_1]
  omega

/-- No blank is a letter. -/
theorem not_isLetter_of_isBlank {c : Char} (h : isBlank c = true) : isLetter c = false := by
  have hall : ∀ n ∈ blankRanges.flatMap (fun r => List.range' r.1 (r.2 + 1 - r.1)),
      inRanges letterRanges n = false := by decide +kernel
  exact hall c.toNat (mem_flatMap_of_inRanges h)

end Text

/-- The characters do not go on in the class `f`. -/
def Stops (f : Char → Bool) (rest : List Char) : Prop := ∀ c ∈ rest.head?, f c = false

theorem stops_cons {f : Char → Bool} {c : Char} {rest : List Char} (h : f c = false) :
    Stops f (c :: rest) := by
  simpa [Stops] using h

theorem stops_dropWhile (f : Char → Bool) (cs : List Char) : Stops f (cs.dropWhile f) := by
  intro c hc
  have hne := List.head?_dropWhile_not f cs
  rw [Option.mem_def.mp hc] at hne
  simpa using hne

section Runs

variable {f : Char → Bool} {cs rest : List Char}

/-- A run that stops is the longest one. -/
theorem takeWhile_run (hcs : ∀ c ∈ cs, f c = true) (hrest : Stops f rest) :
    (cs ++ rest).takeWhile f = cs := by
  rw [List.takeWhile_append_of_pos hcs]
  cases rest with
  | nil => simp
  | cons c rest => simp [hrest c rfl]

theorem dropWhile_run (hcs : ∀ c ∈ cs, f c = true) (hrest : Stops f rest) :
    (cs ++ rest).dropWhile f = rest := by
  rw [List.dropWhile_append_of_pos hcs]
  cases rest with
  | nil => rfl
  | cons c rest => simp [hrest c rfl]

theorem length_run_le {cs' : List Char} (hcs : ∀ c ∈ cs, f c = true) (hrest : Stops f rest)
    (hcs' : ∀ c ∈ cs', f c = true) (hstart : cs' <+: cs ++ rest) : cs'.length ≤ cs.length := by
  obtain ⟨rest', hrest'⟩ := hstart
  have hlonger : (cs' ++ rest').takeWhile f = cs' ++ rest'.takeWhile f :=
    List.takeWhile_append_of_pos hcs'
  rw [hrest', takeWhile_run hcs hrest] at hlonger
  rw [hlonger, List.length_append]
  omega

theorem forall_ne_of_notMem {c : Char} (h : c ∉ cs) : ∀ x ∈ cs, decide (x ≠ c) = true := by
  intro x hx
  have hne : x ≠ c := fun heq => h (heq ▸ hx)
  simpa using hne

/-- What stands before the first `c` is one thing only. -/
theorem eq_of_append_cons_eq {c : Char} {cs' rest' : List Char} (hcs : c ∉ cs) (hcs' : c ∉ cs')
    (h : cs ++ c :: rest = cs' ++ c :: rest') : cs = cs' := by
  have hrun : ∀ {xs ys : List Char}, c ∉ xs → (xs ++ c :: ys).takeWhile (· ≠ c) = xs := by
    intro xs ys hxs
    exact takeWhile_run (forall_ne_of_notMem hxs) (stops_cons (by simp))
  rw [← hrun hcs, h, hrun hcs']

end Runs

/-! ### Pieces -/

/-- One decimal digit or more. -/
structure Digits where
  chars : List Char
  ne_nil : chars ≠ []
  isDigit : ∀ c ∈ chars, c.isDigit = true

/-- One digit more. -/
def Digits.concat (digits : Digits) (c : Char) (h : c.isDigit = true) : Digits where
  chars := digits.chars ++ [c]
  ne_nil := by simp
  isDigit := by
    intro d hd
    rcases List.mem_append.mp hd with hd | hd
    · exact digits.isDigit d hd
    · rwa [List.mem_singleton.mp hd]

/-- All digits from `c` on. -/
def Digits.run (c : Char) (h : c.isDigit = true) (cs : List Char) : Digits where
  chars := c :: cs.takeWhile Char.isDigit
  ne_nil := List.cons_ne_nil _ _
  isDigit := by
    intro d hd
    rcases List.mem_cons.mp hd with rfl | hd
    · exact h
    · exact List.all_eq_true.mp List.all_takeWhile d hd

theorem Digits.run_append (c : Char) (h : c.isDigit = true) (cs : List Char) :
    (run c h cs).chars ++ cs.dropWhile Char.isDigit = c :: cs := by
  rw [run, List.cons_append, List.takeWhile_append_dropWhile]

def Digits.single (c : Char) (h : c.isDigit = true) : Digits where
  chars := [c]
  ne_nil := by simp
  isDigit := by simpa using h

inductive Piece where
  | blank (c : Char) (h : Text.isBlank c = true)
  | comment (inside : List Char) (h : '\x7d' ∉ inside)
  /-- A letter, and letters and numerals after it. -/
  | word (first : Char) (others : List Char) (hfirst : Text.isLetter first = true)
      (hothers : ∀ c ∈ others, Cursor.isWordChar c = true)
  | integer (digits : Digits)
  | real (whole fraction : Digits)
  | quoted (contents : List Char) (h : '\'' ∉ contents)
  | assign
  | mark (c : Char) (kind : Token.Kind) (h : Token.Kind.ofChar? c = some kind)

namespace Piece

def chars : Piece → List Char
  | .blank c _ => [c]
  | .comment inside _ => '\x7b' :: (inside ++ ['\x7d'])
  | .word first others _ _ => first :: others
  | .integer digits => digits.chars
  | .real whole fraction => whole.chars ++ '.' :: fraction.chars
  | .quoted contents _ => '\'' :: (contents ++ ['\''])
  | .assign => [':', '=']
  | .mark c _ _ => [c]

/-- No piece at the start of the text is longer. -/
def LongestIn (p : Piece) (text : List Char) : Prop :=
  p.chars <+: text ∧ ∀ q : Piece, q.chars <+: text → q.chars.length ≤ p.chars.length

/-! ### First characters -/

/-- What the first character of a piece tells about it. -/
inductive Lead where
  | blank
  | comment
  | word
  | number
  | quoted
  | mark
  deriving DecidableEq

def lead : Piece → Lead
  | .blank _ _ => .blank
  | .comment _ _ => .comment
  | .word _ _ _ _ => .word
  | .integer _ => .number
  | .real _ _ => .number
  | .quoted _ _ => .quoted
  | .assign => .mark
  | .mark _ _ _ => .mark

def Lead.ofChar? (c : Char) : Option Lead :=
  if Text.isBlank c then some .blank
  else if c = '\x7b' then some .comment
  else if Text.isLetter c then some .word
  else if c.isDigit then some .number
  else if c = '\'' then some .quoted
  else if (Token.Kind.ofChar? c).isSome then some .mark
  else none

theorem Lead.ofChar?_of_isBlank {c : Char} (h : Text.isBlank c = true) :
    Lead.ofChar? c = some .blank := by
  simp [ofChar?, h]

theorem Lead.ofChar?_of_isLetter {c : Char} (h : Text.isLetter c = true) :
    Lead.ofChar? c = some .word := by
  have hblank : Text.isBlank c = false := by
    cases hb : Text.isBlank c with
    | false => rfl
    | true =>
        rw [Text.not_isLetter_of_isBlank hb] at h
        cases h
  have hbrace : c ≠ '\x7b' := by
    rintro rfl
    revert h
    decide
  simp [ofChar?, hblank, hbrace, h]

theorem Lead.ofChar?_of_isDigit {c : Char} (h : c.isDigit = true) :
    Lead.ofChar? c = some .number := by
  have hmem : c.toNat ∈ List.range' 48 10 := by
    simp only [Char.isDigit, Bool.and_eq_true, decide_eq_true_eq, ge_iff_le] at h
    rw [List.mem_range'_1]
    obtain ⟨hlow, hhigh⟩ := h
    exact ⟨hlow, Nat.lt_succ_of_le hhigh⟩
  have hall : ∀ n ∈ List.range' 48 10, Lead.ofChar? (Char.ofNat n) = some .number := by
    decide +kernel
  have hlead := hall c.toNat hmem
  rwa [Char.ofNat_toNat] at hlead

theorem Lead.ofChar?_of_mark {c : Char} {kind : Token.Kind}
    (h : Token.Kind.ofChar? c = some kind) :
    Lead.ofChar? c = some .mark := by
  unfold Token.Kind.ofChar? at h
  split at h
  case h_11 => cases h
  all_goals decide +kernel

/-- The first character of a piece tells its class. -/
theorem exists_cons (p : Piece) :
    ∃ c cs, p.chars = c :: cs ∧ Lead.ofChar? c = some p.lead := by
  cases p with
  | blank c h => exact ⟨c, [], rfl, Lead.ofChar?_of_isBlank h⟩
  | comment inside h =>
      have hbrace : Lead.ofChar? '\x7b' = some .comment := by decide +kernel
      exact ⟨_, _, rfl, hbrace⟩
  | word first others hfirst hothers =>
      exact ⟨first, others, rfl, Lead.ofChar?_of_isLetter hfirst⟩
  | integer digits =>
      obtain ⟨c, cs, hcs⟩ := List.exists_cons_of_ne_nil digits.ne_nil
      have hc : c.isDigit = true := digits.isDigit c (by simp [hcs])
      exact ⟨c, cs, hcs, Lead.ofChar?_of_isDigit hc⟩
  | real whole fraction =>
      obtain ⟨c, cs, hcs⟩ := List.exists_cons_of_ne_nil whole.ne_nil
      have hc : c.isDigit = true := whole.isDigit c (by simp [hcs])
      exact ⟨c, cs ++ '.' :: fraction.chars, by simp [chars, hcs], Lead.ofChar?_of_isDigit hc⟩
  | quoted contents h =>
      have hquote : Lead.ofChar? '\'' = some .quoted := by decide +kernel
      exact ⟨_, _, rfl, hquote⟩
  | assign => exact ⟨_, _, rfl, by decide +kernel⟩
  | mark c kind h => exact ⟨c, [], rfl, Lead.ofChar?_of_mark h⟩

theorem chars_ne_nil (p : Piece) : p.chars ≠ [] := by
  obtain ⟨c, cs, hcs, -⟩ := p.exists_cons
  rw [hcs]
  exact List.cons_ne_nil c cs

/-- Every class of first characters has a piece that starts so. -/
theorem ofChar?_eq_none {c : Char} (h : ∀ p : Piece, p.chars.head? ≠ some c) :
    Lead.ofChar? c = none := by
  simp only [Lead.ofChar?]
  rw [if_neg fun hc => h (.blank c hc) rfl]
  rw [if_neg fun hc => h (.comment [] (by simp)) (by rw [hc]; rfl)]
  rw [if_neg fun hc => h (.word c [] hc (by simp)) rfl]
  rw [if_neg fun hc => h (.integer (.single c hc)) rfl]
  rw [if_neg fun hc => h (.quoted [] (by simp)) (by rw [hc]; rfl)]
  rw [if_neg]
  intro hc
  obtain ⟨kind, hkind⟩ := Option.isSome_iff_exists.mp hc
  exact h (.mark c kind hkind) rfl

/-- Pieces that start at the same place are of the same class. -/
theorem lead_eq {p q : Piece} {text : List Char} (hp : p.chars <+: text)
    (hq : q.chars <+: text) :
    p.lead = q.lead := by
  obtain ⟨c, cs, hcs, hc⟩ := p.exists_cons
  obtain ⟨d, ds, hds, hd⟩ := q.exists_cons
  obtain ⟨rest, rfl⟩ := hp
  obtain ⟨rest', hrest'⟩ := hq
  rw [hcs, hds, List.cons_append, List.cons_append, List.cons.injEq] at hrest'
  rw [← hrest'.1, hd] at hc
  exact (Option.some.inj hc).symm

/-! ### What may follow -/

/-- A point that a digit follows. -/
def StartsFraction (rest : List Char) : Prop :=
  ∃ d rest', rest = '.' :: d :: rest' ∧ d.isDigit = true

/-- What follows does not belong to the piece. -/
def Ends (p : Piece) (rest : List Char) : Prop :=
  match p with
  | .word _ _ _ _ => Stops Cursor.isWordChar rest
  | .integer _ => Stops Char.isDigit rest ∧ ¬ StartsFraction rest
  | .real _ _ => Stops Char.isDigit rest
  | .mark c _ _ => ¬ (c = ':' ∧ rest.head? = some '=')
  | _ => True

theorem not_longestIn_of_lt {p q : Piece} {text : List Char} (hq : q.chars <+: text)
    (hlt : p.chars.length < q.chars.length) : ¬ p.LongestIn text :=
  fun h => Nat.not_le_of_lt hlt (h.2 q hq)

/-- A piece that is the longest one ends where it ends. -/
theorem ends_of_longestIn {p : Piece} {rest : List Char} (h : p.LongestIn (p.chars ++ rest)) :
    p.Ends rest := by
  cases p with
  | blank c hc => trivial
  | comment inside hinside => trivial
  | quoted contents hcontents => trivial
  | assign => trivial
  | word first others hfirst hothers =>
      show Stops Cursor.isWordChar rest
      intro c hc
      refine Bool.eq_false_iff.mpr fun hword => ?_
      obtain ⟨rest', rfl⟩ := List.head?_eq_some_iff.mp hc
      have hall : ∀ d ∈ others ++ [c], Cursor.isWordChar d = true := by
        intro d hd
        rcases List.mem_append.mp hd with hd | hd
        · exact hothers d hd
        · rwa [List.mem_singleton.mp hd]
      refine not_longestIn_of_lt (q := .word first (others ++ [c]) hfirst hall) ?_ ?_ h
      · exact ⟨rest', by simp [chars]⟩
      · simp [chars]
  | integer digits =>
      constructor
      · intro c hc
        refine Bool.eq_false_iff.mpr fun hdigit => ?_
        obtain ⟨rest', rfl⟩ := List.head?_eq_some_iff.mp hc
        refine not_longestIn_of_lt (q := .integer (digits.concat c hdigit)) ?_ ?_ h
        · exact ⟨rest', by simp [chars, Digits.concat]⟩
        · simp [chars, Digits.concat]
      · rintro ⟨d, rest', rfl, hd⟩
        refine not_longestIn_of_lt (q := .real digits (.single d hd)) ?_ ?_ h
        · exact ⟨rest', by simp [chars, Digits.single]⟩
        · simp [chars, Digits.single]
  | real whole fraction =>
      show Stops Char.isDigit rest
      intro c hc
      refine Bool.eq_false_iff.mpr fun hdigit => ?_
      obtain ⟨rest', rfl⟩ := List.head?_eq_some_iff.mp hc
      refine not_longestIn_of_lt (q := .real whole (fraction.concat c hdigit)) ?_ ?_ h
      · exact ⟨rest', by simp [chars, Digits.concat]⟩
      · simp [chars, Digits.concat]
  | mark c kind hkind =>
      rintro ⟨rfl, hrest⟩
      obtain ⟨rest', rfl⟩ := List.head?_eq_some_iff.mp hrest
      refine not_longestIn_of_lt (q := .assign) ?_ ?_ h
      · exact ⟨rest', by simp [chars]⟩
      · simp [chars]

/-- A run of digits before a point is the whole run. -/
theorem whole_eq {digits whole : Digits} {rest rest' : List Char}
    (hrest : Stops Char.isDigit rest)
    (h : whole.chars ++ '.' :: rest' = digits.chars ++ rest) :
    whole.chars = digits.chars ∧ rest = '.' :: rest' := by
  have hpoint : Stops Char.isDigit ('.' :: rest') := stops_cons (by decide)
  have htake := takeWhile_run whole.isDigit hpoint
  have hdrop := dropWhile_run whole.isDigit hpoint
  rw [h, takeWhile_run digits.isDigit hrest] at htake
  rw [h, dropWhile_run digits.isDigit hrest] at hdrop
  exact ⟨htake.symm, hdrop⟩

/-- Which pieces can start where numbers start. -/
theorem length_le_of_integer {digits : Digits} {q : Piece} {rest : List Char}
    (hq : q.lead = .number) (hrest : Stops Char.isDigit rest)
    (hfraction : ¬ StartsFraction rest)
    (hstart : q.chars <+: digits.chars ++ rest) : q.chars.length ≤ digits.chars.length := by
  cases q with
  | integer digits' => exact length_run_le digits.isDigit hrest digits'.isDigit hstart
  | real whole fraction =>
      obtain ⟨rest', hrest'⟩ := hstart
      have hwhole : whole.chars ++ '.' :: (fraction.chars ++ rest') =
          digits.chars ++ rest := by
        simpa [chars] using hrest'
      obtain ⟨d, ds, hds⟩ := List.exists_cons_of_ne_nil fraction.ne_nil
      refine absurd ⟨d, ds ++ rest', ?_, fraction.isDigit d (by simp [hds])⟩ hfraction
      rw [(whole_eq hrest hwhole).2, hds]
      rfl
  | _ => cases hq

theorem length_le_of_real {whole fraction : Digits} {q : Piece} {rest : List Char}
    (hq : q.lead = .number) (hrest : Stops Char.isDigit rest)
    (hstart : q.chars <+: whole.chars ++ '.' :: (fraction.chars ++ rest)) :
    q.chars.length ≤ (Piece.real whole fraction).chars.length := by
  have hpoint : Stops Char.isDigit ('.' :: (fraction.chars ++ rest)) := stops_cons (by decide)
  have hlength : (Piece.real whole fraction).chars.length =
      whole.chars.length + (fraction.chars.length + 1) := by simp [chars]
  cases q with
  | integer digits =>
      have hle := length_run_le whole.isDigit hpoint digits.isDigit hstart
      simp only [chars] at hlength ⊢
      omega
  | real whole' fraction' =>
      obtain ⟨rest', hrest'⟩ := hstart
      have hwhole : whole'.chars ++ '.' :: (fraction'.chars ++ rest') =
          whole.chars ++ '.' :: (fraction.chars ++ rest) := by
        simpa [chars] using hrest'
      obtain ⟨hsame, hfraction⟩ := whole_eq hpoint hwhole
      have hle := length_run_le fraction.isDigit hrest fraction'.isDigit
        ⟨rest', (List.cons.inj hfraction).2.symm⟩
      have hlength' : (Piece.real whole' fraction').chars.length =
          whole'.chars.length + (fraction'.chars.length + 1) := by simp [chars]
      rw [hsame] at hlength'
      omega
  | _ => cases hq

/-- A piece that ends where it ends is the longest one. -/
theorem longestIn_of_ends {p : Piece} {rest : List Char} (h : p.Ends rest) :
    p.LongestIn (p.chars ++ rest) := by
  have hp : p.chars <+: p.chars ++ rest := List.prefix_append _ _
  refine ⟨hp, fun q hq => ?_⟩
  have hlead := lead_eq hq hp
  cases p with
  | integer digits => exact length_le_of_integer hlead h.1 h.2 hq
  | real whole fraction =>
      rw [chars, List.append_assoc] at hq
      exact length_le_of_real hlead h hq
  | blank c hc =>
      cases q with
      | blank d hd => exact Nat.le_refl 1
      | _ => cases hlead
  | comment inside hinside =>
      cases q with
      | comment inside' hinside' =>
          obtain ⟨rest', hrest'⟩ := hq
          have hcons : inside' ++ '\x7d' :: rest' = inside ++ '\x7d' :: rest := by
            simpa [chars] using hrest'
          simp [chars, eq_of_append_cons_eq hinside' hinside hcons]
      | _ => cases hlead
  | quoted contents hcontents =>
      cases q with
      | quoted contents' hcontents' =>
          obtain ⟨rest', hrest'⟩ := hq
          have hcons : contents' ++ '\'' :: rest' = contents ++ '\'' :: rest := by
            simpa [chars] using hrest'
          simp [chars, eq_of_append_cons_eq hcontents' hcontents hcons]
      | _ => cases hlead
  | word first others hfirst hothers =>
      cases q with
      | word first' others' hfirst' hothers' =>
          have hstart : others' <+: others ++ rest := (List.cons_prefix_cons.mp hq).2
          have hle := length_run_le hothers h hothers' hstart
          simp only [chars, List.length_cons]
          omega
      | _ => cases hlead
  | assign =>
      cases q with
      | assign => exact Nat.le_refl 2
      | mark c kind hkind => exact Nat.le_succ 1
      | _ => cases hlead
  | mark c kind hkind =>
      cases q with
      | mark d kind' hkind' => exact Nat.le_refl 1
      | assign =>
          obtain ⟨hc, hrest⟩ := List.cons_prefix_cons.mp hq
          obtain ⟨rest', rfl⟩ := hrest
          exact absurd ⟨hc.symm, rfl⟩ h
      | _ => cases hlead

end Piece

end MiniPascal
