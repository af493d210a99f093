import MiniPascal.Proofs.Listing.Unmarking
import MiniPascal.Proofs.Scope.Renaming

/-!
Plain names: capitals and decimal digits only, with a capital first. A word whose spelling has
only ASCII characters is spelled so. A plain name stays what it is when it is read again, and
with the digits of a level behind it it is no reserved word.
-/

namespace MiniPascal

/-- A capital of the Latin alphabet or a decimal digit. -/
def isPlain (c : Char) : Bool := c.isUpper || c.isDigit

/-- Capitals and digits, with a capital first. -/
structure IsPlainName (name : List Char) : Prop where
  head : ∃ c ∈ name.head?, c.isUpper = true
  all : ∀ c ∈ name, isPlain c = true

def isAscii (c : Char) : Bool := c.toNat < 128

/-! ### Spellings in ASCII -/

namespace Text

theorem mem_of_expansionIn {table : List (Nat × List Nat)} {n : Nat} {image : List Nat}
    (h : expansionIn table n = some image) : (n, image) ∈ table := by
  induction table with
  | nil => cases h
  | cons entry table ih =>
      simp only [expansionIn] at h
      split at h
      · cases h
      · split at h
        next hk =>
          cases h
          rw [hk]
          exact List.mem_cons_self
        next => exact List.mem_cons_of_mem _ (ih h)

theorem exists_capital?_of_capitalIn {runs : List CaseRun} {n m : Nat}
    (h : capitalIn runs n = some m) :
    ∃ run ∈ runs, run.capital? n = some m := by
  induction runs with
  | nil => cases h
  | cons run runs ih =>
      simp only [capitalIn] at h
      split at h
      · cases h
      · cases hrun : run.capital? n with
        | some k =>
            rw [hrun] at h
            cases h
            exact ⟨run, List.mem_cons_self, hrun⟩
        | none =>
            rw [hrun] at h
            obtain ⟨run', hmem, hcapital⟩ := ih h
            exact ⟨run', List.mem_cons_of_mem _ hmem, hcapital⟩

theorem exists_run_of_capitalIn {runs : List CaseRun} {n m : Nat}
    (h : capitalIn runs n = some m) :
    ∃ run ∈ runs, run.image ≤ m ∧ m ≤ run.image + (run.last - run.first) := by
  obtain ⟨run, hrun, hcapital⟩ := exists_capital?_of_capitalIn h
  simp only [CaseRun.capital?, Option.ite_none_right_eq_some, Option.some.injEq] at hcapital
  exact ⟨run, hrun, by omega⟩

/-- In both tables of capitals, what is ASCII is a capital. -/
theorem expandingCapitals_ascii :
    ∀ entry ∈ expandingCapitals, ∀ n ∈ entry.2, n.isValidChar ∧
    (128 ≤ n ∨ (65 ≤ n ∧ n ≤ 90)) := by
  decide +kernel

theorem caseRuns_ascii : ∀ run ∈ caseRuns,
    (run.image + (run.last - run.first) < 0xD800 ∨
      0xE000 ≤ run.image ∧ run.image + (run.last - run.first) < 0x110000) ∧
    (128 ≤ run.image ∨ 65 ≤ run.image ∧ run.image + (run.last - run.first) ≤ 90) := by
  decide +kernel

theorem toNat_ofNat_of_isValidChar {n : Nat} (h : n.isValidChar) :
    (Char.ofNat n).toNat = n := by
  have hchar : Char.ofNat n = Char.ofNatAux n h := dif_pos h
  exact congrArg Char.toNat hchar

theorem isUpper_ofNat {n : Nat} (hvalid : n.isValidChar) (h : 128 ≤ n ∨ (65 ≤ n ∧ n ≤ 90))
    (hascii : isAscii (Char.ofNat n) = true) : (Char.ofNat n).isUpper = true := by
  rw [isAscii, toNat_ofNat_of_isValidChar hvalid, decide_eq_true_eq] at hascii
  have hmem : n ∈ List.range' 65 26 := by
    rw [List.mem_range'_1]
    omega
  have hall : ∀ n ∈ List.range' 65 26, (Char.ofNat n).isUpper = true := by decide
  exact hall n hmem

/-- Capitals are plain where they are ASCII, and those of letters are letters. -/
theorem upperChar_ascii {c d : Char} (hc : Cursor.isWordChar c = true) (hd : d ∈ upperChar c)
    (hascii : isAscii d = true) :
    isPlain d = true ∧ (isLetter c = true → d.isUpper = true) := by
  by_cases hlow : c.toNat < 128
  · have hall : ∀ n ∈ List.range 128, Cursor.isWordChar (Char.ofNat n) = true →
        (upperChar (Char.ofNat n)).all (fun d =>
          decide (isPlain d = true ∧ (isLetter (Char.ofNat n) = true → d.isUpper = true))) =
            true := by
      decide +kernel
    have hn := hall c.toNat (List.mem_range.mpr hlow)
    rw [Char.ofNat_toNat] at hn
    exact of_decide_eq_true (List.all_eq_true.mp (hn hc) d hd)
  · have hupper : d.isUpper = true := by
      rw [upperChar] at hd
      split at hd
      next image himage =>
        obtain ⟨n, hn, rfl⟩ := List.mem_map.mp hd
        obtain ⟨hvalid, hrange⟩ := expandingCapitals_ascii _ (mem_of_expansionIn himage) n hn
        exact isUpper_ofNat hvalid hrange hascii
      next =>
        split at hd
        next n hn =>
          obtain ⟨run, hrun, hbounds⟩ := exists_run_of_capitalIn hn
          obtain ⟨hvalid, hrange⟩ := caseRuns_ascii run hrun
          rw [List.mem_singleton.mp hd] at hascii ⊢
          refine isUpper_ofNat ?_ (by omega) hascii
          simp only [Nat.isValidChar]
          omega
        next =>
          rw [List.mem_singleton.mp hd, isAscii, decide_eq_true_eq] at hascii
          exact absurd hascii hlow
    exact ⟨by simp [isPlain, hupper], fun _ => hupper⟩

theorem upperChar_ne_nil (c : Char) : upperChar c ≠ [] := by
  have hall : ∀ entry ∈ expandingCapitals, entry.2 ≠ [] := by decide +kernel
  rw [upperChar]
  split
  next image himage =>
    simpa using hall _ (mem_of_expansionIn himage)
  next => split <;> simp

/-- What consists of capitals stays as it is. -/
theorem upper_of_forall {cs : List Char} (h : ∀ c ∈ cs, upperChar c = [c]) :
    upper cs = cs := by
  induction cs with
  | nil => rfl
  | cons c cs ih =>
      obtain ⟨hc, hcs⟩ := List.forall_mem_cons.mp h
      rw [upper, List.flatMap_cons, hc]
      exact congrArg (c :: ·) (ih hcs)

end Text

/-- The spelling of a word is a plain name if it is ASCII. -/
theorem isPlainName_upper {first : Char} {others : List Char}
    (hfirst : Text.isLetter first = true) (hothers : ∀ c ∈ others, Cursor.isWordChar c = true)
    (hascii : ∀ c ∈ Text.upper (first :: others), isAscii c = true) :
    IsPlainName (Text.upper (first :: others)) := by
  have hword : Cursor.isWordChar first = true := by simp [Cursor.isWordChar, hfirst]
  constructor
  · obtain ⟨d, ds, hds⟩ := List.exists_cons_of_ne_nil (Text.upperChar_ne_nil first)
    have hhead : (Text.upper (first :: others)).head? = some d := by simp [Text.upper, hds]
    have hd : d ∈ Text.upperChar first := by simp [hds]
    refine ⟨d, hhead, (Text.upperChar_ascii hword hd (hascii d ?_)).2 hfirst⟩
    exact List.mem_of_head? hhead
  · intro d hd
    obtain ⟨c, hc, hdc⟩ := List.mem_flatMap.mp hd
    have hcword : Cursor.isWordChar c = true := by
      rcases List.mem_cons.mp hc with rfl | hc
      · exact hword
      · exact hothers c hc
    exact (Text.upperChar_ascii hcword hdc (hascii d hd)).1

/-! ### Names with levels -/

theorem toNat_of_isPlain {c : Char} (h : isPlain c = true) :
    c.toNat ∈ List.range' 48 10 ++ List.range' 65 26 := by
  simp only [List.mem_append, List.mem_range'_1]
  rcases Bool.or_eq_true_iff.mp h with hupper | hdigit
  · obtain ⟨hlow, hhigh⟩ : c.val ≥ 65 ∧ c.val ≤ 90 := of_decide_eq_true hupper
    exact .inr ⟨hlow, Nat.lt_succ_of_le hhigh⟩
  · have hbounds : (decide (c.val ≥ 48) && decide (c.val ≤ 57)) = true := hdigit
    obtain ⟨hlow, hhigh⟩ := Bool.and_eq_true_iff.mp hbounds
    exact .inl ⟨of_decide_eq_true hlow, Nat.lt_succ_of_le (of_decide_eq_true hhigh)⟩

/-- Plain characters are characters of words that are their own capitals. -/
theorem isPlain_spelled {c : Char} (h : isPlain c = true) :
    Cursor.isWordChar c = true ∧ Text.upperChar c = [c] ∧
    (c.isUpper = true → Text.isLetter c = true) := by
  have hall : ∀ n ∈ List.range' 48 10 ++ List.range' 65 26,
      Cursor.isWordChar (Char.ofNat n) = true ∧
        Text.upperChar (Char.ofNat n) = [Char.ofNat n] ∧
        ((Char.ofNat n).isUpper = true → Text.isLetter (Char.ofNat n) =
          true) := by decide +kernel
  have hc := hall c.toNat (toNat_of_isPlain h)
  rwa [Char.ofNat_toNat] at hc

theorem upper_of_isPlain {cs : List Char} (h : ∀ c ∈ cs, isPlain c = true) :
    Text.upper cs = cs :=
  Text.upper_of_forall fun c hc => (isPlain_spelled (h c hc)).2.1

/-- No reserved word has a digit. -/
theorem ofWord?_of_digit {word : String} (h : word.toList.any Char.isDigit = true) :
    Token.Kind.ofWord? word = none := by
  unfold Token.Kind.ofWord?
  split
  case h_12 => rfl
  all_goals exact absurd h (by decide)

/-- The token of an identifier. -/
def identifierToken (name : String) : Token := ⟨.identifier, some (.string name), .start⟩

theorem toList_leveled (name : String) (level : Nat) :
    (leveled name level).toList = name.toList ++ Nat.toDigits 10 level := by
  simp [leveled, Nat.repr]

section Leveled

variable {name : String} (h : IsPlainName name.toList) (level : Nat)

include h

theorem isPlainName_leveled : IsPlainName (leveled name level).toList := by
  obtain ⟨⟨c, hc, hupper⟩, hall⟩ := h
  obtain ⟨cs, hcs⟩ := List.head?_eq_some_iff.mp hc
  rw [toList_leveled]
  constructor
  · exact ⟨c, by simp [hcs], hupper⟩
  · intro d hd
    rcases List.mem_append.mp hd with hd | hd
    · exact hall d hd
    · have hdigit := Nat.isDigit_of_mem_toDigits (by decide) (by decide) hd
      simp [isPlain, hdigit]

/-- A plain name with its level is one word. -/
@[simp]
theorem isWord_leveled : isWord (leveled name level).toList = true := by
  obtain ⟨⟨c, hc, hupper⟩, hall⟩ := isPlainName_leveled h level
  obtain ⟨cs, hcs⟩ := List.head?_eq_some_iff.mp hc
  rw [hcs] at hall ⊢
  obtain ⟨hplain, hplains⟩ := List.forall_mem_cons.mp hall
  have hothers : ∀ d ∈ cs, Cursor.isWordChar d = true :=
    fun d hd => (isPlain_spelled (hplains d hd)).1
  simpa [isWord, (isPlain_spelled hplain).2.2 hupper] using hothers

/-- It is read as an identifier, and spelled as it is. -/
@[simp]
theorem wordToken_leveled :
    wordToken (leveled name level).toList = identifierToken (leveled name level) := by
  have hupper : Text.upper (leveled name level).toList = (leveled name level).toList :=
    upper_of_isPlain (isPlainName_leveled h level).all
  have hdigit : (leveled name level).toList.any Char.isDigit = true := by
    obtain ⟨d, ds, hds⟩ :=
      List.exists_cons_of_ne_nil (Nat.toDigits_ne_nil (n := level) (b := 10))
    have hd : d.isDigit = true :=
      Nat.isDigit_of_mem_toDigits (by decide) (by decide) (hds ▸ List.mem_cons_self)
    simp [toList_leveled, hds, hd]
  simp [wordToken, identifierToken, hupper, ofWord?_of_digit hdigit]

theorem writes_leveled :
    Writes (Stops Cursor.isWordChar) (leveled name level).toList
      [identifierToken (leveled name level)] := by
  rw [← wordToken_leveled h]
  exact writes_word (isWord_leveled h level)

end Leveled

end MiniPascal
