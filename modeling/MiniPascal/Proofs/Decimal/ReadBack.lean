import Mathlib.Algebra.Order.Field.Power
import MiniPascal.Decimal.Layout
import MiniPascal.Proofs.Decimal.Doubles
import MiniPascal.Proofs.Token.Segmentation

/-!
The shortest digits of a double read back as the double. On the grid of seventeen digits the
step is smaller than the distance between the midpoints around a double, so one of the two
decimals next to the double lies between them.
-/

namespace MiniPascal.Decimal

/-! ### Decimals on a grid -/

namespace Binary

variable (b : Binary) (place : ℤ)

theorem exists_scale :
    ∃ scale : ℚ, 0 < scale ∧ ((b.scales place).1 : ℚ) = 10 ^ place * scale ∧
      ((b.scales place).2 : ℚ) = 2 ^ (b.exponent - 2) * scale := by
  refine ⟨10 ^ (-place).toNat * 2 ^ (-(b.exponent - 2)).toNat, by positivity, ?_, ?_⟩
  · rw [zpow_eq_div (by norm_num)]
    simp only [scales, tenTo, twoTo, Nat.pow_eq]
    push_cast
    field_simp
  · rw [zpow_eq_div two_ne_zero]
    simp only [scales, tenTo, twoTo, Nat.pow_eq]
    push_cast
    field_simp

variable {b place}

/-- Comparisons on one scale. -/
theorem scaled_le_iff {l n : ℕ} :
    l * (b.scales place).2 ≤ n * (b.scales place).1 ↔
      (l : ℚ) * 2 ^ (b.exponent - 2) ≤ n * 10 ^ place := by
  obtain ⟨scale, hpos, htens, htwos⟩ := b.exists_scale place
  have hcast : ((l * (b.scales place).2 : ℕ) : ℚ) ≤ (n * (b.scales place).1 : ℕ) ↔ _ :=
    Nat.cast_le
  rw [← hcast, Nat.cast_mul, Nat.cast_mul, htens, htwos, ← mul_assoc, ← mul_assoc,
    mul_le_mul_iff_left₀ hpos]

theorem scaled_ge_iff {l n : ℕ} :
    n * (b.scales place).1 ≤ l * (b.scales place).2 ↔
      (n : ℚ) * 10 ^ place ≤ l * 2 ^ (b.exponent - 2) := by
  obtain ⟨scale, hpos, htens, htwos⟩ := b.exists_scale place
  have hcast : ((n * (b.scales place).1 : ℕ) : ℚ) ≤ (l * (b.scales place).2 : ℕ) ↔ _ :=
    Nat.cast_le
  rw [← hcast, Nat.cast_mul, Nat.cast_mul, htens, htwos, ← mul_assoc, ← mul_assoc,
    mul_le_mul_iff_left₀ hpos]

theorem readsBack_iff {n : ℕ} : b.readsBack place n = true ↔ b.Nearest (n * 10 ^ place) := by
  simp only [readsBack, Nearest]
  split
  · rw [decide_eq_true_eq, scaled_le_iff, scaled_ge_iff]
  · rw [decide_eq_true_eq, ← not_le, ← not_le, scaled_le_iff, scaled_ge_iff, not_le, not_le]

theorem Nearest.of_lt {q : ℚ} (hl : b.lowerMidpoint * 2 ^ (b.exponent - 2) < q)
    (hu : q < b.upperMidpoint * 2 ^ (b.exponent - 2)) : b.Nearest q := by
  unfold Nearest
  split
  · exact ⟨hl.le, hu.le⟩
  · exact ⟨hl, hu⟩

variable {tie : Tie}

/-- What is found on a grid reads back. -/
theorem nearest_of_onGrid? {n : ℕ} (h : b.onGrid? tie place = some n) :
    b.Nearest (n * 10 ^ place) := by
  rw [← readsBack_iff]
  simp only [onGrid?] at h
  split at h
  next hbelow habove =>
    have hchoose : ∀ m, tie.choose m = m ∨ tie.choose m = m + 1 := by
      intro m
      cases tie with
      | up => exact .inr rfl
      | even =>
          rw [Tie.choose]
          split
          · exact .inl rfl
          · exact .inr rfl
    rw [Option.some.injEq] at h
    split at h
    · rwa [← h]
    · split at h
      · rcases hchoose (b.quarters * (b.scales place).2 / (b.scales place).1) with hm | hm
        · rwa [← h, hm]
        · rwa [← h, hm]
      · rwa [← h]
  next hbelow habove => rwa [← Option.some.inj h]
  next hbelow habove => rwa [← Option.some.inj h]
  next => cases h

/-- A step of seventeen digits is smaller than the distance between the midpoints. -/
theorem Canonical.lt_gap (hb : b.Canonical) {step : ℚ}
    (hstep : 10 ^ 16 * step ≤ 4 * b.mantissa * 2 ^ (b.exponent - 2)) :
    step < (b.upperMidpoint - b.lowerMidpoint) * 2 ^ (b.exponent - 2) := by
  have hquarter : (0 : ℚ) < 2 ^ (b.exponent - 2) := by positivity
  rw [b.upperMidpoint_cast]
  rcases hb.lowerMidpoint_cast with ⟨hm, -, hcast⟩ | ⟨-, hcast⟩
  · rw [hm] at hstep
    rw [hcast, show (4 * b.mantissa + 2 - (4 * b.mantissa - 1) : ℚ) = 3 by ring]
    push_cast at hstep
    linarith
  · have hmantissa : (b.mantissa : ℚ) ≤ 2 ^ 53 := by exact_mod_cast hb.lt.le
    have hle := mul_le_mul_of_nonneg_right hmantissa hquarter.le
    rw [hcast, show (4 * b.mantissa + 2 - (4 * b.mantissa - 2) : ℚ) = 4 by ring]
    linarith

/-- On a grid whose step is small enough, one of the decimals around a double reads back. -/
theorem Canonical.isSome_onGrid? (hb : b.Canonical)
    (hstep : 10 ^ 16 * 10 ^ place ≤ (b.quarters : ℚ) * 2 ^ (b.exponent - 2)) :
    (b.onGrid? tie place).isSome = true := by
  have htens : 0 < (b.scales place).1 :=
    Nat.mul_pos (Nat.pow_pos (by decide)) (Nat.pow_pos (by decide))
  have hquarter : (0 : ℚ) < 2 ^ (b.exponent - 2) := by positivity
  set below := b.quarters * (b.scales place).2 / (b.scales place).1 with hbelow
  have hle : (below : ℚ) * 10 ^ place ≤ b.quarters * 2 ^ (b.exponent - 2) :=
    scaled_ge_iff.mp (Nat.div_mul_le_self _ _)
  have hlt : (b.quarters : ℚ) * 2 ^ (b.exponent - 2) < (below + 1 : ℕ) * 10 ^ place := by
    rw [← not_le, ← scaled_ge_iff, not_le]
    rw [mul_comm (below + 1)]
    exact Nat.lt_mul_div_succ _ htens
  have heither : b.readsBack place below = true ∨ b.readsBack place (below + 1) = true := by
    rw [readsBack_iff, readsBack_iff]
    have hu := b.upperMidpoint_cast
    have hq : (b.quarters : ℚ) = 4 * b.mantissa := by simp [quarters]
    rw [hq] at hle hlt hstep
    have hgap := hb.lt_gap hstep
    by_cases hinside : b.lowerMidpoint * 2 ^ (b.exponent - 2) < (below : ℚ) * 10 ^ place
    · left
      refine .of_lt hinside (lt_of_le_of_lt hle ?_)
      rw [hu]
      linarith
    · right
      rw [not_lt] at hinside
      push_cast at hlt ⊢
      refine .of_lt (lt_of_le_of_lt ?_ hlt) ?_
      · rcases hb.lowerMidpoint_cast with ⟨-, -, hcast⟩ | ⟨-, hcast⟩ <;> rw [hcast]
            <;> linarith
      · linarith
  simp only [onGrid?, ← hbelow]
  rcases heither with h | h
  · rw [h]
    cases b.readsBack place (below + 1) <;> rfl
  · rw [h]
    cases b.readsBack place below <;> rfl

/-! ### Seventeen digits -/

theorem lt_pow_length (n : ℕ) : n < 10 ^ (Nat.toDigits 10 n).length :=
  (Nat.length_toDigits_le_iff (by decide) Nat.length_toDigits_pos).mp le_rfl

theorem pow_length_le {n : ℕ} (hn : 0 < n) : 10 ^ ((Nat.toDigits 10 n).length - 1) ≤ n := by
  by_cases hone : (Nat.toDigits 10 n).length = 1
  · rw [hone]
    exact hn
  · have hpos : 0 < (Nat.toDigits 10 n).length := Nat.length_toDigits_pos
    rw [← not_lt, ← Nat.length_toDigits_le_iff (by decide) (by omega)]
    omega

/-- The leading digit does not stand for more than the number. -/
theorem Canonical.leadingPlace_le (hb : b.Canonical) :
    (10 : ℚ) ^ b.leadingPlace ≤ b.quarters * 2 ^ (b.exponent - 2) := by
  have hq : 0 < b.quarters := Nat.mul_pos (by decide) hb.pos
  simp only [leadingPlace]
  split
  next h =>
    rw [← one_mul (b.scales _).1] at h
    simpa using scaled_ge_iff.mp h
  next =>
    have htop :
        (10 : ℚ) ^ ((Nat.toDigits 10 (b.quarters * twoTo (b.exponent - 2).toNat)).length - 1) ≤
        b.quarters * 2 ^ (b.exponent - 2).toNat := by
      exact_mod_cast pow_length_le (Nat.mul_pos hq (Nat.pow_pos (by decide)))
    have hbottom : (2 : ℚ) ^ (-(b.exponent - 2)).toNat ≤
        10 ^ (Nat.toDigits 10 (twoTo (-(b.exponent - 2)).toNat)).length := by
      exact_mod_cast (lt_pow_length (twoTo (-(b.exponent - 2)).toNat)).le
    have hpos : 0 < (Nat.toDigits 10 (b.quarters * twoTo (b.exponent - 2).toNat)).length :=
      Nat.length_toDigits_pos
    generalize (Nat.toDigits 10 (b.quarters * twoTo (b.exponent - 2).toNat)).length = top
      at htop hpos ⊢
    generalize (Nat.toDigits 10 (twoTo (-(b.exponent - 2)).toNat)).length = bottom at hbottom ⊢
    rw [zpow_eq_div two_ne_zero, ← mul_div_assoc, le_div_iff₀ (by positivity)]
    calc (10 : ℚ) ^ ((top : ℤ) - bottom - 1) * 2 ^ (-(b.exponent - 2)).toNat
      _ ≤ 10 ^ ((top : ℤ) - bottom - 1) * 10 ^ bottom := by gcongr
      _ = 10 ^ (top - 1) := by
        rw [← zpow_natCast, ← zpow_natCast, ← zpow_add₀ (by norm_num)]
        exact congrArg _ (by omega)
      _ ≤ b.quarters * 2 ^ (b.exponent - 2).toNat := htop

/-- The shortest decimal reads back. -/
theorem Canonical.exists_shortest (hb : b.Canonical) (tie : Tie) :
    ∃ (n : ℕ) (place : ℤ), b.shortest tie = Shortest.ofNat n place ∧
    b.Nearest (n * 10 ^ place) := by
  have hlast : (b.leadingPlace - (16 : ℕ)) ∈ (List.range maxDigits).map
      fun i : ℕ => b.leadingPlace - i :=
    List.mem_map_of_mem (by decide)
  have hstep : 10 ^ 16 * 10 ^ (b.leadingPlace - (16 : ℕ)) ≤
      (b.quarters : ℚ) * 2 ^ (b.exponent - 2) := by
    refine le_trans (le_of_eq ?_) hb.leadingPlace_le
    rw [zpow_sub₀ (by norm_num), zpow_natCast]
    field_simp
  have hsome : (b.onGrid? tie (b.leadingPlace - (16 : ℕ))).isSome = true :=
    hb.isSome_onGrid? hstep
  simp only [shortest]
  split
  next found hfound =>
    obtain ⟨place, -, hplace⟩ := List.exists_of_findSome?_eq_some hfound
    obtain ⟨n, hn, hofNat⟩ := Option.map_eq_some_iff.mp hplace
    exact ⟨n, place, hofNat.symm, nearest_of_onGrid? hn⟩
  next hnone =>
    have hgrid := List.findSome?_eq_none_iff.mp hnone _ hlast
    rw [Option.map_eq_none_iff] at hgrid
    rw [hgrid] at hsome
    cases hsome

end Binary

/-! ### Digits and a point -/

@[simp]
theorem decimal_append (digits others : List Char) :
    decimal (digits ++ others) = decimal digits * 10 ^ others.length + decimal others := by
  simp only [decimal, List.reverse_append, List.map_append, Nat.ofDigits_append,
    List.length_map, List.length_reverse]
  ring

@[simp]
theorem decimal_toDigits (n : ℕ) : decimal (Nat.toDigits 10 n) = n := by
  rw [← natOfDigits_eq_decimal]
  exact Nat.ofDigitChars_toDigits (by decide) (by decide)

@[simp]
theorem decimal_zeros (n : ℕ) : decimal (zeros n) = 0 := by
  induction n with
  | zero => rfl
  | succ n ih =>
      have hzeros : zeros (n + 1) = zeros n ++ ['0'] := List.replicate_succ'
      rw [hzeros, decimal_append, ih]
      rfl

@[simp]
theorem length_zeros (n : ℕ) : (zeros n).length = n :=
  List.length_replicate

theorem isDigit_of_mem_zeros {n : ℕ} {c : Char} (h : c ∈ zeros n) : c.isDigit = true := by
  rw [List.eq_of_mem_replicate h]
  rfl

/-- Without the zeros at the end the number is the same. -/
theorem Shortest.exists_ofNat {n : ℕ} (hn : 0 < n) (place : ℤ) :
    ∃ (digits : Digits) (k : ℕ), Shortest.ofNat n place = ⟨digits.chars, place + k⟩ ∧
      decimal digits.chars * 10 ^ k = n := by
  set row := Nat.toDigits 10 n with hrow
  set kept := (row.reverse.dropWhile (· = '0')).reverse with hkept
  obtain ⟨k, hsplit⟩ : ∃ k, row = kept ++ zeros k := by
    refine ⟨(row.reverse.takeWhile (· = '0')).length, ?_⟩
    have hzeros : row.reverse.takeWhile (· = '0') =
        zeros (row.reverse.takeWhile (· = '0')).length :=
      List.eq_replicate_iff.mpr ⟨rfl, fun c hc => by simpa using List.mem_takeWhile_imp hc⟩
    have happend := List.takeWhile_append_dropWhile (p := (· = '0')) (l := row.reverse)
    rw [← List.reverse_inj, List.reverse_append, List.reverse_reverse] at happend
    rw [zeros, ← List.reverse_replicate, ← zeros, ← hzeros]
    exact happend.symm
  have hvalue : decimal kept * 10 ^ k = n := by
    have hdecimal := decimal_toDigits n
    rw [← hrow, hsplit, decimal_append, decimal_zeros, add_zero, length_zeros] at hdecimal
    exact hdecimal
  have hne : kept ≠ [] := by
    intro hnil
    rw [hnil] at hvalue
    exact hn.ne' (hvalue.symm.trans (Nat.zero_mul _))
  have hdigit : ∀ c ∈ kept, c.isDigit = true := fun c hc =>
    Nat.isDigit_of_mem_toDigits (by decide) (by decide) (hsplit ▸ List.mem_append_left _ hc)
  refine ⟨⟨kept, hne, hdigit⟩, k, ?_, hvalue⟩
  have hlength : row.length - kept.length = k := by
    rw [hsplit, List.length_append, length_zeros, Nat.add_sub_cancel_left]
  simp only [ofNat, ← hrow, ← hkept, hlength]

/-- Digits with zeros before or after them. -/
def padded (before : ℕ) (digits : Digits) (after : ℕ) : Digits where
  chars := zeros before ++ digits.chars ++ zeros after
  ne_nil := by simp [digits.ne_nil]
  isDigit := by
    simp only [List.mem_append]
    rintro c ((hc | hc) | hc)
    · exact isDigit_of_mem_zeros hc
    · exact digits.isDigit c hc
    · exact isDigit_of_mem_zeros hc

@[simp]
theorem decimal_padded (before : ℕ) (digits : Digits) (after : ℕ) :
    decimal (padded before digits after).chars = decimal digits.chars * 10 ^ after := by
  simp [padded, decimal_append, decimal_zeros]

theorem point_notMem (digits : Digits) : '.' ∉ digits.chars := fun h =>
  absurd (digits.isDigit _ h) (by decide)

/-- The digits around the point. -/
theorem Shortest.exists_positional (digits : Digits) (exponent : ℤ) :
    ∃ whole fraction : Digits,
      ((if (Shortest.mk digits.chars exponent).positional.contains '.'
          then (Shortest.mk digits.chars exponent).positional
          else (Shortest.mk digits.chars exponent).positional ++ ['.', '0']) =
        whole.chars ++ '.' :: fraction.chars) ∧
      (decimal (whole.chars ++ fraction.chars) : ℚ) / 10 ^ fraction.chars.length =
        decimal digits.chars * 10 ^ exponent := by
  simp only [positional]
  split
  next hwhole =>
    obtain ⟨k, rfl⟩ := Int.eq_ofNat_of_zero_le hwhole
    refine ⟨padded 0 digits k, Digits.single '0' rfl, ?_, ?_⟩
    · rw [if_neg]
      · rfl
      · rw [List.contains_iff_mem]
        exact point_notMem (padded 0 digits k)
    · have hzero : decimal (Digits.single '0' rfl).chars = 0 := rfl
      have hlength : (Digits.single '0' rfl).chars.length = 1 := rfl
      rw [decimal_append, decimal_padded, hzero, hlength, zpow_natCast]
      push_cast
      ring
  next hnegative =>
    have hfraction : ∀ {whole fraction : Digits},
        decimal (whole.chars ++ fraction.chars) = decimal digits.chars →
        exponent = -(fraction.chars.length : ℤ) →
        (decimal (whole.chars ++ fraction.chars) : ℚ) / 10 ^ fraction.chars.length =
          decimal digits.chars * 10 ^ exponent := by
      intro whole fraction hdecimal hexponent
      rw [hdecimal, hexponent, zpow_neg, zpow_natCast, div_eq_mul_inv]
    split
    next hpos =>
      have hlt : (digits.chars.length + exponent).toNat < digits.chars.length := by omega
      refine ⟨⟨digits.chars.take (digits.chars.length + exponent).toNat, ?_, ?_⟩,
        ⟨digits.chars.drop (digits.chars.length + exponent).toNat, ?_, ?_⟩, ?_,
        hfraction ?_ ?_⟩
      · simp only [ne_eq, List.take_eq_nil_iff, digits.ne_nil, or_false]
        omega
      · exact fun c hc => digits.isDigit c (List.mem_of_mem_take hc)
      · simp only [ne_eq, List.drop_eq_nil_iff]
        omega
      · exact fun c hc => digits.isDigit c (List.mem_of_mem_drop hc)
      · rw [if_pos (by simp)]
      · rw [List.take_append_drop]
      · simp only [List.length_drop]
        omega
    next hle =>
      refine ⟨Digits.single '0' rfl,
        padded (-(digits.chars.length + exponent)).toNat digits 0, ?_,
        hfraction ?_ ?_⟩
      · rw [if_pos (by simp)]
        simp [padded, Digits.single, zeros]
      · rw [decimal_append, decimal_padded]
        simp [Digits.single, decimal]
      · simp only [padded, List.length_append, length_zeros]
        omega

/-! ### Plain text -/

theorem isNaN_of_isFinite {x : Float} (h : x.isFinite = true) :
    x.isNaN = false ∧ x.isInf = false := by
  have hunpacked : ∀ u : Float.Model.UnpackedFloat, u.isFinite = true →
      u.isNaN = false ∧ u.isInf = false := by
    intro u hu
    cases u with
    | infinity _ => cases hu
    | notANumber => cases hu
    | zero _ => exact ⟨rfl, rfl⟩
    | finite _ _ _ _ => exact ⟨rfl, rfl⟩
  exact hunpacked _ h

/-- The text of a double, with a point, reads back as the double. -/
theorem exists_plain {x : Float} (hfinite : x.isFinite = true) (hsign : isNegative x = false) :
    ∃ whole fraction : Digits,
      ((if (plain x).toList.contains '.' then (plain x).toList
        else (plain x).toList ++ ['.', '0']) = whole.chars ++ '.' :: fraction.chars) ∧
      Float.ofScientific (decimal (whole.chars ++ fraction.chars)) true
        fraction.chars.length = x := by
  obtain ⟨hnan, hinf⟩ := isNaN_of_isFinite hfinite
  have hplain : (plain x).toList = if (Binary.ofFloat x).mantissa = 0 then ['0']
      else ((Binary.ofFloat x).shortest .up).positional := by
    simp only [plain, signed, hnan, hinf, hsign, Bool.false_eq_true, if_false,
      String.toList_ofList]
  rw [hplain]
  by_cases hzero : (Binary.ofFloat x).mantissa = 0
  · rw [if_pos hzero]
    refine ⟨Digits.single '0' rfl, Digits.single '0' rfl, rfl, eq_of_toNat_toBits ?_⟩
    rw [toNat_toBits_of_zero hsign hzero]
    decide +kernel
  · rw [if_neg hzero]
    have hpos := Nat.pos_of_ne_zero hzero
    obtain ⟨hb, -⟩ := Binary.canonical_ofFloat hfinite hpos
    obtain ⟨n, place, hshortest, hnearest⟩ := hb.exists_shortest .up
    have hn : 0 < n := by
      refine Nat.pos_of_ne_zero fun hn => ?_
      have hbound := hb.le_of_nearest hnearest
      rw [hn, Nat.cast_zero, zero_mul] at hbound
      exact absurd hbound (not_le.mpr (by positivity))
    obtain ⟨digits, k, hofNat, hvalue⟩ := Shortest.exists_ofNat hn place
    obtain ⟨whole, fraction, htext, hquotient⟩ := Shortest.exists_positional digits (place + k)
    rw [hshortest, hofNat]
    refine ⟨whole, fraction, htext, ofScientific_eq hfinite hsign hpos ?_ ?_⟩
    · exact List.length_pos_of_ne_nil fraction.ne_nil
    · rw [← hvalue, Nat.cast_mul, Nat.cast_pow, mul_assoc] at hnearest
      rwa [hquotient, zpow_add₀ (by norm_num), zpow_natCast, mul_comm (10 ^ place)]

end MiniPascal.Decimal
