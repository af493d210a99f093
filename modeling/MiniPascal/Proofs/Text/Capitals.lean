import MiniPascal.Proofs.Token.PlainName
import MiniPascal.Proofs.Token.Piece

/-!
What the capitals of letters are. A capital is its own capital, and it is a letter again,
except for the marks that a few capitals carry, such as the hook in the capital of `ǰ`, which
is written as two characters.

Both tables are checked one run against another, and not character by character: two runs are
apart if one of them ends before the other starts, or if they go in steps of two and never
meet.
-/

namespace MiniPascal.Text

namespace CaseRun

/-- The last capital of a run. -/
def final (r : CaseRun) : Nat := r.image + (r.last - r.first)

/-- All letters of the run are even or all are odd, and so are their capitals. -/
def alternates (r : CaseRun) : Bool := r.step == 2 || r.first == r.last

/-- `m` is among the capitals of a run, as far as bounds and parity tell. -/
structure Capital (r : CaseRun) (m : Nat) : Prop where
  image_le : r.image ≤ m
  le_final : m ≤ r.final
  parity : r.alternates = true → m % 2 = r.image % 2

theorem capital_of_capital? {r : CaseRun} {n m : Nat} (h : r.capital? n = some m) :
    r.Capital m := by
  simp only [capital?, Option.ite_none_right_eq_some, Option.some.injEq] at h
  obtain ⟨⟨hfirst, hlast, hstep⟩, rfl⟩ := h
  refine ⟨by omega, by rw [final]; omega, fun halternates => ?_⟩
  simp only [alternates, Bool.or_eq_true, beq_iff_eq] at halternates
  rcases halternates with htwo | hsingle
  · rw [htwo] at hstep
    omega
  · have hn : n - r.first = 0 := by omega
    rw [hn, Nat.add_zero]

/-- No capital of `r` is a letter of `s`. -/
def apart (r s : CaseRun) : Bool :=
  r.final.blt s.first || s.last.blt r.image ||
    (r.alternates && s.alternates && r.image % 2 != s.first % 2)

theorem capital?_eq_none {r s : CaseRun} {m : Nat} (h : r.apart s = true) (hm : r.Capital m) :
    s.capital? m = none := by
  have himage := hm.image_le
  have hfinal := hm.le_final
  rw [capital?, if_neg]
  rintro ⟨hfirst, hlast, hstep⟩
  simp only [apart, Bool.or_eq_true, Bool.and_eq_true, bne_iff_ne, Nat.blt_eq] at h
  rcases h with (hbelow | habove) | ⟨⟨hr, hs⟩, hparity⟩
  · omega
  · omega
  · have heven := hm.parity hr
    simp only [alternates, Bool.or_eq_true, beq_iff_eq] at hs
    rcases hs with htwo | hsingle
    · rw [htwo] at hstep
      omega
    · omega

/-- No capital of `r` is a letter of the runs, which are sorted by position. -/
def clear (r : CaseRun) : List CaseRun → Bool
  | [] => true
  | s :: runs => r.final.blt s.first || r.apart s && r.clear runs

theorem capitalIn_eq_none {r : CaseRun} {runs : List CaseRun} {m : Nat}
    (h : r.clear runs = true) (hm : r.Capital m) : capitalIn runs m = none := by
  have hfinal := hm.le_final
  induction runs with
  | nil => rfl
  | cons s runs ih =>
      simp only [clear, Bool.or_eq_true, Bool.and_eq_true, Nat.blt_eq] at h
      rw [capitalIn]
      split
      · rfl
      next hfirst =>
        rcases h with hbelow | ⟨hapart, hclear⟩
        · omega
        · rw [capital?_eq_none hapart hm, ih hclear]
          rfl

/-- One character as a run of its own. -/
def single (n : Nat) : CaseRun := ⟨n, n, 1, n⟩

theorem capital_single (n : Nat) : (single n).Capital n :=
  ⟨Nat.le_refl n, Nat.le_add_right n _, fun _ => rfl⟩

theorem expansionIn_eq_none {r : CaseRun} {table : List (Nat × List Nat)} {m : Nat}
    (h : r.clear (table.map fun entry => single entry.1) = true) (hm : r.Capital m) :
    expansionIn table m = none := by
  have hfinal := hm.le_final
  induction table with
  | nil => rfl
  | cons entry table ih =>
      simp only [List.map_cons, clear, Bool.or_eq_true, Bool.and_eq_true, Nat.blt_eq] at h
      rw [expansionIn]
      split
      · rfl
      next hfirst =>
        rcases h with hbelow | ⟨hapart, hclear⟩
        · exact absurd (Nat.lt_of_le_of_lt hfinal hbelow) hfirst
        · have hne : m ≠ entry.1 := by
            rintro rfl
            have hnone := capital?_eq_none hapart hm
            simp [capital?, single] at hnone
          rw [if_neg hne, ih hclear]

end CaseRun

/-- The capitals of both tables. -/
def capitals : List CaseRun :=
  caseRuns ++ expandingCapitals.flatMap fun entry => entry.2.map CaseRun.single

theorem capitals_clear : capitals.all (fun r =>
    r.clear caseRuns && r.clear (expandingCapitals.map fun entry => CaseRun.single entry.1)) =
      true := by
  decide +kernel

/-- All from `a` to `b` in one of the ranges. -/
def coversIn : List CodeRange → Nat → Nat → Bool
  | [], _, _ => false
  | (first, last) :: ranges, a, b =>
      first.ble a && (b.ble last || last.blt a && coversIn ranges a b)

theorem inRanges_of_coversIn {ranges : List CodeRange} {a b n : Nat}
    (h : coversIn ranges a b = true) (ha : a ≤ n) (hb : n ≤ b) : inRanges ranges n = true := by
  induction ranges with
  | nil => cases h
  | cons range ranges ih =>
      obtain ⟨first, last⟩ := range
      simp only [coversIn, Bool.and_eq_true, Bool.or_eq_true, Nat.ble_eq, Nat.blt_eq] at h
      obtain ⟨hfirst, hinside | ⟨habove, hrest⟩⟩ := h
      · rw [inRanges, if_neg (by omega), if_pos (by omega)]
      · rw [inRanges, if_neg (by omega), if_neg (by omega), ih hrest]

theorem caseRuns_letters : caseRuns.all (fun r => coversIn letterRanges r.image r.final ||
    (List.range (r.last + 1 - r.first)).all fun k =>
      k % r.step != 0 || coversIn letterRanges (r.image + k) (r.image + k)) = true := by
  decide +kernel

/-- The marks that some capitals carry, which are neither letters nor numerals. -/
def capitalMarks : List Char :=
  ['\u0300', '\u0301', '\u0308', '\u030A', '\u030C', '\u0313', '\u0331', '\u0342']

theorem expandingCapitals_letters : ∀ entry ∈ expandingCapitals,
    (∃ n ∈ entry.2.head?, isLetter (Char.ofNat n) = true) ∧
      ∀ n ∈ entry.2, isLetter (Char.ofNat n) = true ∨ Char.ofNat n ∈ capitalMarks := by
  decide +kernel

/-- Nothing of a program starts with a mark, and no word goes on with one. -/
theorem capitalMarks_nothing : ∀ c ∈ capitalMarks,
    Piece.Lead.ofChar? c = none ∧ Cursor.isWordChar c = false := by
  have hall : (capitalMarks.all fun c =>
      (Piece.Lead.ofChar? c).isNone && !Cursor.isWordChar c) = true := by decide +kernel
  intro c hc
  simpa using List.all_eq_true.mp hall c hc

theorem forall_notMem_capitalMarks_iff {cs : List Char} :
    (∀ c ∈ cs, c ∉ capitalMarks) ↔ (cs.all fun c => !capitalMarks.contains c) = true := by
  simp

/-- Where the upper case of a character comes from. -/
theorem upperChar_cases (c : Char) :
    (∃ entry ∈ expandingCapitals, upperChar c = entry.2.map Char.ofNat) ∨
      (∃ run ∈ caseRuns, ∃ m, run.capital? c.toNat = some m ∧ upperChar c = [Char.ofNat m]) ∨
      upperChar c = [c] := by
  cases hexpansion : expansionIn expandingCapitals c.toNat with
  | some image =>
      exact .inl ⟨_, mem_of_expansionIn hexpansion, by rw [upperChar, hexpansion]⟩
  | none =>
      cases hcapital : capitalIn caseRuns c.toNat with
      | some m =>
          obtain ⟨run, hrun, hm⟩ := exists_capital?_of_capitalIn hcapital
          exact .inr (.inl ⟨run, hrun, m, hm, by rw [upperChar, hexpansion, hcapital]⟩)
      | none => exact .inr (.inr (by rw [upperChar, hexpansion, hcapital]))

theorem upperChar_of_capital {r : CaseRun} (hr : r ∈ capitals) {m : Nat} (hm : r.Capital m)
    (hvalid : m.isValidChar) : upperChar (Char.ofNat m) = [Char.ofNat m] := by
  have hclear := List.all_eq_true.mp capitals_clear r hr
  obtain ⟨hruns, hexpansions⟩ := Bool.and_eq_true_iff.mp hclear
  rw [upperChar, toNat_ofNat_of_isValidChar hvalid, CaseRun.expansionIn_eq_none hexpansions hm,
    CaseRun.capitalIn_eq_none hruns hm]

theorem isValidChar_of_capital {r : CaseRun} (hr : r ∈ caseRuns) {m : Nat} (hm : r.Capital m) :
    m.isValidChar := by
  obtain ⟨hvalid, -⟩ := caseRuns_ascii r hr
  have himage := hm.image_le
  have hfinal := hm.le_final
  rw [CaseRun.final] at hfinal
  rw [Nat.isValidChar]
  omega

/-- What is in upper case stays as it is. -/
theorem upperChar_of_mem {c d : Char} (hd : d ∈ upperChar c) : upperChar d = [d] := by
  rcases upperChar_cases c with ⟨entry, hentry, hc⟩ | ⟨run, hrun, m, hm, hc⟩ | hc
  · rw [hc] at hd
    obtain ⟨n, hn, rfl⟩ := List.mem_map.mp hd
    have hmem : CaseRun.single n ∈ capitals :=
      List.mem_append_right _ (List.mem_flatMap.mpr ⟨entry, hentry, List.mem_map_of_mem hn⟩)
    exact upperChar_of_capital hmem (CaseRun.capital_single n)
      (expandingCapitals_ascii entry hentry n hn).1
  · rw [hc, List.mem_singleton] at hd
    have hcapital := CaseRun.capital_of_capital? hm
    rw [hd]
    exact upperChar_of_capital (List.mem_append_left _ hrun) hcapital
      (isValidChar_of_capital hrun hcapital)
  · rw [hc, List.mem_singleton] at hd
    rw [hd, hc]

theorem isLetter_of_capital? {r : CaseRun} (hr : r ∈ caseRuns) {n m : Nat}
    (h : r.capital? n = some m) : isLetter (Char.ofNat m) = true := by
  have hcapital := CaseRun.capital_of_capital? h
  rw [isLetter, toNat_ofNat_of_isValidChar (isValidChar_of_capital hr hcapital)]
  have hletters := List.all_eq_true.mp caseRuns_letters r hr
  rcases Bool.or_eq_true_iff.mp hletters with hcovers | heach
  · exact inRanges_of_coversIn hcovers hcapital.image_le hcapital.le_final
  · simp only [CaseRun.capital?, Option.ite_none_right_eq_some, Option.some.injEq] at h
    obtain ⟨⟨hfirst, hlast, hstep⟩, rfl⟩ := h
    have hk := List.all_eq_true.mp heach (n - r.first) (List.mem_range.mpr (by omega))
    rw [hstep] at hk
    exact inRanges_of_coversIn hk (Nat.le_refl _) (Nat.le_refl _)

/-- Upper case has letters in it, marks, and what has no capital. -/
theorem mem_upperChar_cases {c d : Char} (hd : d ∈ upperChar c) :
    d = c ∨ isLetter d = true ∨ d ∈ capitalMarks := by
  rcases upperChar_cases c with ⟨entry, hentry, hc⟩ | ⟨run, hrun, m, hm, hc⟩ | hc
  · rw [hc] at hd
    obtain ⟨n, hn, rfl⟩ := List.mem_map.mp hd
    exact .inr ((expandingCapitals_letters entry hentry).2 n hn)
  · rw [hc, List.mem_singleton] at hd
    rw [hd]
    exact .inr (.inl (isLetter_of_capital? hrun hm))
  · rw [hc, List.mem_singleton] at hd
    exact .inl hd

/-- The upper case of a letter starts with a letter. -/
theorem exists_upperChar_eq_cons {c : Char} (h : isLetter c = true) :
    ∃ d ds, upperChar c = d :: ds ∧ isLetter d = true := by
  rcases upperChar_cases c with ⟨entry, hentry, hc⟩ | ⟨run, hrun, m, hm, hc⟩ | hc
  · obtain ⟨⟨n, hn, hletter⟩, -⟩ := expandingCapitals_letters entry hentry
    obtain ⟨ns, hns⟩ := List.head?_eq_some_iff.mp hn
    exact ⟨Char.ofNat n, ns.map Char.ofNat, by rw [hc, hns, List.map_cons], hletter⟩
  · exact ⟨Char.ofNat m, [], hc, isLetter_of_capital? hrun hm⟩
  · exact ⟨c, [], hc, h⟩

end MiniPascal.Text
