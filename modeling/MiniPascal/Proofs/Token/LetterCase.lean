import MiniPascal.Proofs.Journal.Observation
import MiniPascal.Proofs.Token.Exactness

/-!
Capital and small letters. Outside strings, a letter of the Latin alphabet may be written
either way: words are read in upper case, comments are skipped, and no other lexeme has a
letter in it. So two texts that differ so are read with the same steps, and everything after
that is the same too.

Where a string starts and ends depends on all quotes and braces before it, since a quote in a
comment starts no string and a brace in a string starts no comment. `Zone` follows them through
the text.
-/

namespace MiniPascal

/-- Where a character of a text stands. -/
inductive Zone where
  | outside
  | comment
  | string
  deriving DecidableEq

/-- The zone after the character `c`. -/
def Zone.next : Zone → Char → Zone
  | .outside, '\'' => .string
  | .outside, '\x7b' => .comment
  | .string, '\'' => .outside
  | .comment, '\x7d' => .outside
  | zone, _ => zone

/-- The same letter of the Latin alphabet, each capital or small. -/
def SameLetter (c c' : Char) : Prop :=
  c.isAlpha = true ∧ c'.isAlpha = true ∧ c.toUpper = c'.toUpper

instance (c c' : Char) : Decidable (SameLetter c c') := inferInstanceAs (Decidable (_ ∧ _))

/-- The texts are the same but for the case of letters that do not stand in a string. A quote
that is never closed starts no string. -/
inductive Recased : Zone → List Char → List Char → Prop
  | nil (zone : Zone) : Recased zone [] []
  | same {zone : Zone} {cs cs' : List Char} (c : Char) :
      Recased (zone.next c) cs cs' → Recased zone (c :: cs) (c :: cs')
  | letter {zone : Zone} {c c' : Char} {cs cs' : List Char} :
      SameLetter c c' → (zone = .string → '\'' ∉ cs) → Recased zone cs cs' →
      Recased zone (c :: cs) (c' :: cs')

/-! ### Letters -/

theorem toNat_of_isAlpha {c : Char} (h : c.isAlpha = true) :
    c.toNat ∈ List.range' 65 26 ++ List.range' 97 26 := by
  simp only [List.mem_append, List.mem_range'_1]
  rcases Bool.or_eq_true_iff.mp h with hupper | hlower
  · obtain ⟨hlow, hhigh⟩ : c.val ≥ 65 ∧ c.val ≤ 90 := of_decide_eq_true hupper
    exact .inl ⟨hlow, Nat.lt_succ_of_le hhigh⟩
  · have hbounds : (decide (c.val ≥ 97) && decide (c.val ≤ 122)) = true := hlower
    obtain ⟨hlow, hhigh⟩ := Bool.and_eq_true_iff.mp hbounds
    exact .inr ⟨of_decide_eq_true hlow, Nat.lt_succ_of_le (of_decide_eq_true hhigh)⟩

theorem ne_of_isAlpha {c d : Char} (hc : c.isAlpha = true) (hd : d.isAlpha = false) :
    c ≠ d := by
  rintro rfl
  rw [hc] at hd
  cases hd

/-- What is read of a letter is its capital, and it is neither a blank nor a digit. -/
theorem isAlpha_read {c : Char} (h : c.isAlpha = true) :
    Text.isLetter c = true ∧ Text.upperChar c = [c.toUpper] ∧ Text.isBlank c = false ∧
      c.isDigit = false := by
  have hall : ∀ n ∈ List.range' 65 26 ++ List.range' 97 26,
      Text.isLetter (Char.ofNat n) = true ∧
        Text.upperChar (Char.ofNat n) = [(Char.ofNat n).toUpper] ∧
        Text.isBlank (Char.ofNat n) = false ∧ (Char.ofNat n).isDigit = false := by
    decide +kernel
  have hc := hall c.toNat (toNat_of_isAlpha h)
  rwa [Char.ofNat_toNat] at hc

/-- A letter leaves the zone as it is. -/
theorem Zone.next_of_isAlpha {c : Char} (h : c.isAlpha = true) (zone : Zone) :
    zone.next c = zone := by
  have hquote : c ≠ '\'' := ne_of_isAlpha h (by decide)
  have hopen : c ≠ '\x7b' := ne_of_isAlpha h (by decide)
  have hclose : c ≠ '\x7d' := ne_of_isAlpha h (by decide)
  unfold next
  split <;> simp_all

/-- Anything but a quote and a brace leaves it too. -/
theorem Zone.next_outside {c : Char} (hquote : c ≠ '\'') (hbrace : c ≠ '\x7b') :
    Zone.outside.next c = .outside := by
  unfold next
  split <;> simp_all

theorem Zone.next_of_isBlank {c : Char} (hblank : Text.isBlank c = true) :
    Zone.outside.next c = .outside := by
  apply Zone.next_outside <;>
  · rintro rfl
    revert hblank
    decide

theorem Zone.next_comment {c : Char} (hbrace : c ≠ '\x7d') :
    Zone.comment.next c = .comment := by
  unfold next
  split <;> simp_all

theorem Zone.next_string {c : Char} (hquote : c ≠ '\'') : Zone.string.next c = .string := by
  unfold next
  split <;> simp_all

namespace SameLetter

variable {c c' : Char}

theorem isLetter (h : SameLetter c c') : Text.isLetter c = true ∧ Text.isLetter c' = true :=
  ⟨(isAlpha_read h.1).1, (isAlpha_read h.2.1).1⟩

theorem upperChar_eq (h : SameLetter c c') : Text.upperChar c = Text.upperChar c' := by
  rw [(isAlpha_read h.1).2.1, (isAlpha_read h.2.1).2.1, h.2.2]

theorem next_eq (h : SameLetter c c') (p : Position) : p.next c = p.next c' := by
  have hc : c ≠ '\n' := ne_of_isAlpha h.1 (by decide)
  have hc' : c' ≠ '\n' := ne_of_isAlpha h.2.1 (by decide)
  rw [Position.next, Position.next, if_neg hc, if_neg hc']

end SameLetter

namespace Recased

variable {zone : Zone} {cs cs' : List Char}

theorem cons_iff {c c' : Char} :
    Recased zone (c :: cs) (c' :: cs') ↔
      (c = c' ∨ SameLetter c c' ∧ (zone = .string → '\'' ∉ cs)) ∧
      Recased (zone.next c) cs cs' := by
  constructor
  · intro h
    cases h with
    | same _ hrest => exact ⟨.inl rfl, hrest⟩
    | letter hletter hstring hrest =>
        exact ⟨.inr ⟨hletter, hstring⟩, (Zone.next_of_isAlpha hletter.1 zone).symm ▸ hrest⟩
  · rintro ⟨rfl | ⟨hletter, hstring⟩, hrest⟩
    · exact .same c hrest
    · exact .letter hletter hstring (Zone.next_of_isAlpha hletter.1 zone ▸ hrest)

instance decidable : (zone : Zone) → (cs cs' : List Char) → Decidable (Recased zone cs cs')
  | zone, [], [] => .isTrue (.nil zone)
  | zone, c :: cs, _ :: cs' =>
      have := decidable (zone.next c) cs cs'
      decidable_of_iff _ cons_iff.symm
  | _, [], _ :: _ => .isFalse nofun
  | _, _ :: _, [] => .isFalse nofun

example : ¬ Recased .outside "('a')".toList "('A')".toList := by decide

example : Recased .outside "a \x7b'\x7d 'b' 'c".toList "A \x7b'\x7d 'b' 'C".toList := by decide

/-- A letter stands only where a letter stood. -/
theorem head?_eq_iff {d : Char} (hd : d.isAlpha = false) (h : Recased zone cs cs') :
    cs.head? = some d ↔ cs'.head? = some d := by
  cases h with
  | nil => rfl
  | same c _ => rfl
  | @letter _ c c' cs cs' hletter _ _ =>
      simp [ne_of_isAlpha hletter.1 hd, ne_of_isAlpha hletter.2.1 hd]

/-- The same character, or the same letter. -/
def Alike (c c' : Char) : Prop := c = c' ∨ SameLetter c c'

/-- A run outside strings and comments, of characters that can be told without their case. -/
theorem run {f : Char → Bool} (hf : ∀ c c', SameLetter c c' → f c = f c')
    (hquote : f '\'' = false) (hbrace : f '\x7b' = false) (h : Recased .outside cs cs') :
    List.Forall₂ Alike (cs.takeWhile f) (cs'.takeWhile f) ∧
      Recased .outside (cs.dropWhile f) (cs'.dropWhile f) := by
  induction cs generalizing cs' with
  | nil =>
      cases h
      exact ⟨.nil, .nil _⟩
  | cons c cs ih =>
      cases hc : f c with
      | false =>
          rw [List.takeWhile_cons_of_neg (by simp [hc]),
            List.dropWhile_cons_of_neg (by simp [hc])]
          cases h with
          | same _ hrest =>
              rw [List.takeWhile_cons_of_neg (by simp [hc]),
                List.dropWhile_cons_of_neg (by simp [hc])]
              exact ⟨.nil, .same c hrest⟩
          | letter hletter hstring hrest =>
              rw [hf _ _ hletter] at hc
              rw [List.takeWhile_cons_of_neg (by simp [hc]),
                List.dropWhile_cons_of_neg (by simp [hc])]
              exact ⟨.nil, .letter hletter hstring hrest⟩
      | true =>
          rw [List.takeWhile_cons_of_pos hc, List.dropWhile_cons_of_pos hc]
          cases h with
          | same _ hrest =>
              have hnext : Zone.outside.next c = .outside := by
                refine Zone.next_outside ?_ ?_
                · rintro rfl
                  rw [hquote] at hc
                  cases hc
                · rintro rfl
                  rw [hbrace] at hc
                  cases hc
              rw [hnext] at hrest
              rw [List.takeWhile_cons_of_pos hc, List.dropWhile_cons_of_pos hc]
              exact ⟨.cons (.inl rfl) (ih hrest).1, (ih hrest).2⟩
          | letter hletter hstring hrest =>
              rw [hf _ _ hletter] at hc
              rw [List.takeWhile_cons_of_pos hc, List.dropWhile_cons_of_pos hc]
              exact ⟨.cons (.inr hletter) (ih hrest).1, (ih hrest).2⟩

/-- In a string that is closed everything is the same. -/
theorem closed {contents rest : List Char} (hcontents : '\'' ∉ contents)
    (h : Recased .string (contents ++ '\'' :: rest) cs') :
    ∃ rest', cs' = contents ++ '\'' :: rest' ∧ Recased .outside rest rest' := by
  induction contents generalizing cs' with
  | nil =>
      cases h with
      | same _ hrest => exact ⟨_, rfl, hrest⟩
      | letter hletter _ _ => exact absurd hletter.1 (by decide)
  | cons c contents ih =>
      obtain ⟨hc, hcontents⟩ := not_or.mp fun hmem => hcontents (List.mem_cons.mpr hmem)
      cases h with
      | same _ hrest =>
          rw [Zone.next_string (Ne.symm hc)] at hrest
          obtain ⟨rest', rfl, hrest'⟩ := ih hcontents hrest
          exact ⟨rest', rfl, hrest'⟩
      | letter _ hstring _ => exact absurd (hstring rfl) (by simp)

theorem notMem {d : Char} (hd : d.isAlpha = false) (h : Recased zone cs cs') (hcs : d ∉ cs) :
    d ∉ cs' := by
  induction h with
  | nil => exact hcs
  | same c _ ih =>
      obtain ⟨hc, hcs⟩ := not_or.mp fun hmem => hcs (List.mem_cons.mpr hmem)
      simp [hc, ih hcs]
  | @letter _ c c' _ _ hletter _ _ ih =>
      have hc' : d ≠ c' := (ne_of_isAlpha hletter.2.1 hd).symm
      have hcs' := ih fun hmem => hcs (List.mem_cons_of_mem c hmem)
      simp [hc', hcs']

end Recased

/-! ### Reading -/

theorem upper_eq_of_alike {cs cs' : List Char} (h : List.Forall₂ Recased.Alike cs cs') :
    Text.upper cs = Text.upper cs' := by
  induction h with
  | nil => rfl
  | cons hc _ ih =>
      rw [Text.upper, Text.upper, List.flatMap_cons, List.flatMap_cons]
      congr 1
      rcases hc with rfl | hletter
      · rfl
      · exact hletter.upperChar_eq

/-- Without letters there is no difference. -/
theorem eq_of_alike {cs cs' : List Char} (h : List.Forall₂ Recased.Alike cs cs')
    (hcs : ∀ c ∈ cs, c.isAlpha = false) : cs = cs' := by
  induction h with
  | nil => rfl
  | cons hc _ ih =>
      obtain ⟨hletter, hcs⟩ := List.forall_mem_cons.mp hcs
      rcases hc with rfl | hsame
      · rw [ih hcs]
      · rw [hsame.1] at hletter
        cases hletter

theorem after_eq_of_alike {cs cs' : List Char} (h : List.Forall₂ Recased.Alike cs cs')
    (p : Position) :
    p.after cs = p.after cs' := by
  induction h generalizing p with
  | nil => rfl
  | cons hc _ ih =>
      rw [Position.after_cons, Position.after_cons, ih]
      rcases hc with rfl | hletter
      · rfl
      · rw [hletter.next_eq]

namespace Cursor

/-- Two cursors at the same position, outside strings and comments. -/
structure Recased (c c' : Cursor) : Prop where
  rest : MiniPascal.Recased .outside c.rest c'.rest
  position : c.position = c'.position

/-- The steps find the same; and where they find a token, the rests are the same but for the
case of letters. -/
def SameStep (s s' : Except LexicalError Token × Cursor) : Prop :=
  s.1 = s'.1 ∧ ∀ t, s.1 = .ok t → s.2.Recased s'.2

variable {cs cs' : List Char}

theorem word_recased (p : Position) (h : MiniPascal.Recased .outside cs cs') :
    (word p cs).1 = (word p cs').1 ∧ (word p cs).2.Recased (word p cs').2 := by
  have hsame : ∀ c c', SameLetter c c' → isWordChar c = isWordChar c' := by
    intro c c' hletter
    simp [isWordChar, hletter.isLetter]
  obtain ⟨htake, hdrop⟩ := h.run hsame (by decide +kernel) (by decide +kernel)
  refine ⟨?_, hdrop, after_eq_of_alike htake p⟩
  rw [word, word, upper_eq_of_alike htake]

/-- Digits have no case. -/
theorem digits_recased (h : MiniPascal.Recased .outside cs cs') :
    cs.takeWhile Char.isDigit = cs'.takeWhile Char.isDigit ∧
      MiniPascal.Recased .outside (cs.dropWhile Char.isDigit)
        (cs'.dropWhile Char.isDigit) := by
  have hsame : ∀ c c', SameLetter c c' → c.isDigit = c'.isDigit := by
    intro c c' hletter
    rw [(isAlpha_read hletter.1).2.2.2, (isAlpha_read hletter.2.1).2.2.2]
  obtain ⟨htake, hdrop⟩ := h.run hsame (by decide) (by decide)
  refine ⟨eq_of_alike htake fun c hc => ?_, hdrop⟩
  have hdigit := List.mem_takeWhile_imp hc
  refine Bool.eq_false_iff.mpr fun hletter => ?_
  rw [(isAlpha_read hletter).2.2.2] at hdigit
  cases hdigit

theorem number_recased (p : Position) (h : MiniPascal.Recased .outside cs cs') :
    SameStep (number p cs) (number p cs') := by
  obtain ⟨htake, hdrop⟩ := digits_recased h
  have hpoint := hdrop.head?_eq_iff (d := '.') (by decide)
  simp only [number, htake]
  generalize cs.dropWhile Char.isDigit = rest at hdrop hpoint
  generalize cs'.dropWhile Char.isDigit = rest' at hdrop hpoint
  by_cases hrest : rest.head? = some '.'
  · obtain ⟨ds, rfl⟩ := List.head?_eq_some_iff.mp hrest
    obtain ⟨ds', rfl⟩ := List.head?_eq_some_iff.mp (hpoint.mp hrest)
    have hfraction : MiniPascal.Recased .outside ds ds' := (Recased.cons_iff.mp hdrop).2
    obtain ⟨htake', hdrop'⟩ := digits_recased hfraction
    simp only [List.drop_succ_cons, List.drop_zero, List.head?_cons, htake']
    split
    · exact ⟨rfl, fun _ _ => ⟨hdrop', rfl⟩⟩
    · exact ⟨rfl, fun _ _ => ⟨hdrop, rfl⟩⟩
  · rw [if_neg fun hand => hrest hand.1, if_neg fun hand => hrest (hpoint.mpr hand.1)]
    exact ⟨rfl, fun _ _ => ⟨hdrop, rfl⟩⟩

theorem quoted_recased (p : Position) (h : MiniPascal.Recased .string cs cs') :
    SameStep (lexeme ⟨'\'' :: cs, p⟩) (lexeme ⟨'\'' :: cs', p⟩) := by
  by_cases hclosed : '\'' ∈ cs
  · obtain ⟨contents, rest, rfl, hcontents⟩ := List.eq_append_cons_of_mem hclosed
    obtain ⟨rest', rfl, hrest⟩ := h.closed hcontents
    rw [lexeme_quoted hcontents, lexeme_quoted hcontents]
    exact ⟨rfl, fun _ _ => ⟨hrest, rfl⟩⟩
  · have herror := lexeme_unclosed hclosed p
    have herror' := lexeme_unclosed (h.notMem (by decide) hclosed) p
    refine ⟨herror.trans herror'.symm, fun t ht => ?_⟩
    rw [herror] at ht
    cases ht

theorem lexeme_recased {c c' : Cursor} (h : c.Recased c') : SameStep c.lexeme c'.lexeme := by
  obtain ⟨cs, p⟩ := c
  obtain ⟨cs', p'⟩ := c'
  obtain ⟨hrest, rfl⟩ := h
  cases hrest with
  | nil => exact ⟨rfl, fun _ _ => ⟨.nil _, rfl⟩⟩
  | letter hletter hstring hrest =>
      obtain ⟨htoken, hcursor⟩ := word_recased p (.letter hletter hstring hrest)
      simp only [lexeme, if_pos hletter.isLetter.1, if_pos hletter.isLetter.2]
      exact ⟨congrArg Except.ok htoken, fun _ _ => hcursor⟩
  | same ch hrest =>
      have hall := MiniPascal.Recased.same ch hrest
      by_cases hletter : Text.isLetter ch = true
      · obtain ⟨htoken, hcursor⟩ := word_recased p hall
        simp only [lexeme, if_pos hletter]
        exact ⟨congrArg Except.ok htoken, fun _ _ => hcursor⟩
      by_cases hdigit : ch.isDigit = true
      · simp only [lexeme, if_neg hletter, if_pos hdigit]
        exact number_recased p hall
      by_cases hquote : ch = '\''
      · subst hquote
        exact quoted_recased p hrest
      have hequals := hrest.head?_eq_iff (d := '=') (by decide)
      simp only [lexeme, if_neg hletter, if_neg hdigit, if_neg hquote, ← hequals]
      split
      next hassign =>
        -- Neither the colon nor the sign after it leads anywhere else.
        obtain ⟨rfl, hhead⟩ := hassign
        obtain ⟨ds, rfl⟩ := List.head?_eq_some_iff.mp hhead
        obtain ⟨ds', rfl⟩ := List.head?_eq_some_iff.mp (hequals.mp hhead)
        exact ⟨rfl, fun _ _ => ⟨(Recased.cons_iff.mp hrest).2, rfl⟩⟩
      next =>
        split
        next kind hkind =>
          have hbrace : ch ≠ '\x7b' := by
            rintro rfl
            cases hkind
          rw [Zone.next_outside hquote hbrace] at hrest
          exact ⟨rfl, fun _ _ => ⟨hrest, rfl⟩⟩
        next => exact ⟨rfl, fun t ht => by cases ht⟩

/-- The zone of what follows, where `opened` is the start of the comment around it. -/
def zoneOf : Option Position → Zone
  | none => .outside
  | some _ => .comment

theorem zoneOf_comment (c : Char) (start : Position) :
    zoneOf (if c = '\x7d' then none else some start) = Zone.comment.next c := by
  by_cases hc : c = '\x7d'
  · subst hc
    rfl
  · rw [if_neg hc, Zone.next_comment hc, zoneOf]

theorem skipBlanks_stop {c : Char} (hblank : ¬ Text.isBlank c = true) (hbrace : c ≠ '\x7b')
    (cs : List Char) (p : Position) : skipBlanks none (c :: cs) p = (⟨c :: cs, p⟩, none) := by
  simp only [skipBlanks, if_neg hblank, if_neg hbrace]

theorem skipBlanks_recased (opened : Option Position) (p : Position)
    (h : MiniPascal.Recased (zoneOf opened) cs cs') :
    (skipBlanks opened cs p).2 = (skipBlanks opened cs' p).2 ∧
      ((skipBlanks opened cs p).2 = none →
        (skipBlanks opened cs p).1.Recased (skipBlanks opened cs' p).1) := by
  induction cs generalizing cs' opened p with
  | nil =>
      cases h
      exact ⟨rfl, fun _ => ⟨.nil _, rfl⟩⟩
  | cons c cs ih =>
      cases opened with
      | some start =>
          cases h with
          | same _ hrest =>
              refine ih _ _ ?_
              rw [zoneOf_comment]
              exact hrest
          | @letter _ _ c' _ _ hletter _ hrest =>
              have hc : c ≠ '\x7d' := ne_of_isAlpha hletter.1 (by decide)
              have hc' : c' ≠ '\x7d' := ne_of_isAlpha hletter.2.1 (by decide)
              simp only [skipBlanks, if_neg hc, if_neg hc', hletter.next_eq]
              exact ih _ _ hrest
      | none =>
          cases h with
          | same _ hrest =>
              by_cases hblank : Text.isBlank c = true
              · simp only [skipBlanks, if_pos hblank]
                refine ih _ _ ?_
                rw [zoneOf, Zone.next_of_isBlank hblank] at hrest
                exact hrest
              by_cases hbrace : c = '\x7b'
              · subst hbrace
                simp only [skipBlanks_brace]
                exact ih _ _ hrest
              · rw [skipBlanks_stop hblank hbrace, skipBlanks_stop hblank hbrace]
                exact ⟨rfl, fun _ => ⟨.same c hrest, rfl⟩⟩
          | @letter _ _ c' _ _ hletter hstring hrest =>
              -- A letter ends the blanks in both texts.
              have hstop {x : Char} (hx : x.isAlpha = true) (xs : List Char) :
                  skipBlanks none (x :: xs) p = (⟨x :: xs, p⟩, none) :=
                skipBlanks_stop (by simp [(isAlpha_read hx).2.2.1])
                  (ne_of_isAlpha hx (by decide)) xs p
              rw [hstop hletter.1, hstop hletter.2.1]
              exact ⟨rfl, fun _ => ⟨.letter hletter hstring hrest, rfl⟩⟩

theorem scan_recased {c c' : Cursor} (h : c.Recased c') : SameStep c.scan c'.scan := by
  obtain ⟨cs, p⟩ := c
  obtain ⟨cs', p'⟩ := c'
  obtain ⟨hrest, rfl⟩ := h
  obtain ⟨hopened, hcursor⟩ := skipBlanks_recased none p hrest
  simp only [scan]
  generalize skipBlanks none cs p = s at hopened hcursor
  generalize skipBlanks none cs' p = s' at hopened hcursor
  obtain ⟨d, opened⟩ := s
  obtain ⟨d', opened'⟩ := s'
  cases hopened
  cases opened with
  | none => exact lexeme_recased (hcursor rfl)
  | some start => exact ⟨rfl, fun t ht => by cases ht⟩

theorem results_recased {c c' : Cursor} (h : c.Recased c') : c.results = c'.results := by
  induction hlength : c.rest.length using Nat.strongRecOn generalizing c c' with
  | ind n ih =>
      obtain ⟨hresult, hrests⟩ := scan_recased h
      cases hscan : c.scan.1 with
      | error e => rw [results_of_error hscan, results_of_error (hresult ▸ hscan)]
      | ok t =>
          have hread : c.scan = (.ok t, c.scan.2) := Prod.ext hscan rfl
          have hread' : c'.scan = (.ok t, c'.scan.2) := Prod.ext (hresult ▸ hscan) rfl
          by_cases ht : t.kind = .endOfText
          · rw [results_eq, results_eq, hread, hread']
            simp only [if_pos ht]
          · have hlt := length_scan_lt hread ht
            rw [results_of_ok hread ht, results_of_ok hread' ht,
              ih _ (hlength ▸ hlt) (hrests t hscan) rfl]

end Cursor

theorem tokens_recased {text text' : String} (h : Recased .outside text.toList text'.toList) :
    tokens text = tokens text' := by
  have hstart : (Cursor.ofText text).Recased (Cursor.ofText text') := ⟨h, rfl⟩
  exact Cursor.results_recased hstart

/-- What a text comes to depends on its tokens alone. -/
theorem tokenize_of_tokens_eq {text text' : String} (h : tokens text = tokens text')
    (j j' : Journal) :
    ∃ r J J', tokenize text j = (r, J) ∧ tokenize text' j' = (r, J') := by
  refine ⟨(tokenize text j).1, (tokenize text j).2, (tokenize text' j').2, rfl,
    Prod.ext ?_ rfl⟩
  rw [tokenize_eq, tokenize_eq, h]

/-- **Letters may be capital or small.** Let two texts differ only in the case of letters of
the Latin alphabet that do not stand in a string: in words, reserved or not, and in comments.
They have the same tokens with the same values and positions, or the same lexical error; hence
the same tree, the same meaning of its names, the same output and the same result of a run. An
error is the same too, and with it the codes, messages and positions of its diagnostics. -/
theorem letter_case_is_irrelevant (text text' : String)
    (h : Recased .outside text.toList text'.toList) (settings : Settings) (output : Output)
    (j j' : Journal) :
    (tokenize text j).1 = (tokenize text' j').1 ∧
      (parse settings text j).1 = (parse settings text' j').1 ∧
      ((parse settings text j).1.bind fun program => (analyze program j).1) =
        ((parse settings text' j').1.bind fun program => (analyze program j').1) ∧
      (run settings text output j).result = (run settings text' output j').result ∧
      (run settings text output j).output = (run settings text' output j').output := by
  -- No stage looks at the journal, which may show the text itself.
  have hany : Journal.Parallel fun _ _ => True := fun _ _ _ _ _ => trivial
  obtain ⟨r, J, J', htokenize, htokenize'⟩ := tokenize_of_tokens_eq (tokens_recased h) j j'
  obtain ⟨s, K, K', -, hparse, hparse'⟩ :=
    parse_of_tokenize hany trivial settings htokenize htokenize'
  obtain ⟨hresult, houtput, -⟩ := run_of_parse hany trivial output hparse hparse'
  have hanalyze (program : Program) : (analyze program j).1 = (analyze program j').1 := by
    obtain ⟨a, L, L', -, ha, ha'⟩ := analyze_heedless hany trivial program
    rw [ha, ha']
  refine ⟨?_, ?_, ?_, hresult, houtput⟩
  · rw [htokenize, htokenize']
  · rw [hparse, hparse']
  · simp only [hparse, hparse', hanalyze]

/-- A quote in a comment starts no string, and a brace in a string starts no comment. -/
def mixedCaseText : String :=
  "Program p; Var ſs : Integer; \x7bdon't\x7d Begin ſS := 1; WriteLn('aB\x7b') End."

def capitalText : String :=
  "PROGRAM P; VAR ſS : INTEGER; \x7bDON'T\x7d BEGIN ſs := 1; WRITELN('aB\x7b') END."

theorem mixedCaseText_run_eq :
    mixedCaseText ≠ capitalText ∧ Recased .outside mixedCaseText.toList capitalText.toList ∧
      (tokenize mixedCaseText (.ofSettings {})).1 = (tokenize capitalText (.ofSettings {})).1 ∧
      (run {} mixedCaseText {} (.ofSettings {})).result =
        (run {} capitalText {} (.ofSettings {})).result ∧
      (run {} mixedCaseText {} (.ofSettings {})).output.written = "aB\x7b\n".toUTF8 := by
  have hrecased : Recased .outside mixedCaseText.toList capitalText.toList := by decide +kernel
  have hwritten : (run {} capitalText {} (.ofSettings {})).output.written =
      "aB\x7b\n".toUTF8 := by
    decide +kernel
  obtain ⟨htokens, -, -, hresult, houtput⟩ :=
    letter_case_is_irrelevant mixedCaseText capitalText
      hrecased {} {} (.ofSettings {}) (.ofSettings {})
  exact ⟨by decide +kernel, hrecased, htokens, hresult, houtput.symm ▸ hwritten⟩

end MiniPascal
