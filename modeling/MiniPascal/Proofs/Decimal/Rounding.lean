import Mathlib.Algebra.Order.Field.Power
import Mathlib.Data.Nat.Log
import Mathlib.Tactic.FieldSimp
import Mathlib.Tactic.Linarith
import Mathlib.Tactic.Positivity
import Mathlib.Tactic.Ring
import MiniPascal.Decimal.Shortest

/-!
Rounding to doubles. A double is nearest to the numbers between the midpoints to its
neighbours, and to the midpoints themselves if its mantissa is even. The main statement is that
a quotient is rounded to the double that is nearest to it.
-/

namespace MiniPascal.Decimal

open Float.Model Float.Model.UnpackedFloat

/-- The form of a positive double: the mantissa has 53 bits, or fewer at the least exponent. -/
structure Binary.Canonical (b : Binary) : Prop where
  pos : 0 < b.mantissa
  lt : b.mantissa < 2 ^ 53
  least : -1074 ≤ b.exponent
  normal : -1074 < b.exponent → 2 ^ 52 ≤ b.mantissa

/-- The number lies between the midpoints. -/
def Binary.Nearest (b : Binary) (q : ℚ) : Prop :=
  let quarter : ℚ := 2 ^ (b.exponent - 2)
  if b.mantissa % 2 = 0 then b.lowerMidpoint * quarter ≤ q ∧ q ≤ b.upperMidpoint * quarter
  else b.lowerMidpoint * quarter < q ∧ q < b.upperMidpoint * quarter

/-! ### Mantissas with two more bits -/

/-- The mantissa and the bit after it. -/
def halves (em : ExtendedMantissa) : ℕ := 2 * em.mantissa + em.roundBit.toNat

/-- The bits are those of `x`, and the last one tells whether more would follow. -/
structure Approximates (em : ExtendedMantissa) (x : ℚ) : Prop where
  le : halves em ≤ 2 * x
  lt : 2 * x < halves em + 1
  sticky : em.stickyBit = false ↔ 2 * x = halves em

theorem halves_cast (m : ℕ) (round sticky : Bool) :
    (halves ⟨m, round, sticky⟩ : ℚ) = 2 * m + round.toNat := by
  simp [halves]

theorem Approximates.of_eq {m : ℕ} {round : Bool} {x : ℚ} (h : 2 * x = 2 * m + round.toNat) :
    Approximates ⟨m, round, false⟩ x := by
  rw [← halves_cast m round false] at h
  exact ⟨h.ge, by linarith, by simp [h]⟩

theorem Approximates.of_lt {m : ℕ} {round : Bool} {x : ℚ} (hl : 2 * m + round.toNat < 2 * x)
    (hu : 2 * x < 2 * m + round.toNat + 1) : Approximates ⟨m, round, true⟩ x := by
  rw [← halves_cast m round true] at hl hu
  exact ⟨hl.le, hu, by simp [hl.ne']⟩

theorem halves_shiftRightOne (em : ExtendedMantissa) :
    halves em.shiftRightOne = em.mantissa := by
  rcases Nat.mod_two_eq_zero_or_one em.mantissa with h | h
  · simp [halves, ExtendedMantissa.shiftRightOne, h]
    omega
  · simp [halves, ExtendedMantissa.shiftRightOne, h]
    omega

theorem Approximates.shiftRightOne {em : ExtendedMantissa} {x : ℚ} (h : Approximates em x) :
    Approximates em.shiftRightOne (x / 2) := by
  obtain ⟨m, round, sticky⟩ := em
  obtain ⟨hle, hlt, hsticky⟩ := h
  have hhalf : 2 * (x / 2) = x := by ring
  cases round with
  | false =>
      simp only [halves, Bool.toNat_false, add_zero, Nat.cast_mul, Nat.cast_ofNat]
        at hle hlt hsticky
      refine ⟨?_, ?_, ?_⟩ <;> rw [halves_shiftRightOne, hhalf]
      · linarith
      · linarith
      · simp [ExtendedMantissa.shiftRightOne, hsticky]
  | true =>
      simp only [halves, Bool.toNat_true, Nat.cast_add, Nat.cast_mul, Nat.cast_ofNat,
        Nat.cast_one] at hle hlt hsticky
      refine ⟨?_, ?_, ?_⟩ <;> rw [halves_shiftRightOne, hhalf]
      · linarith
      · linarith
      · have hne : x ≠ m := by
          rintro rfl
          linarith
        simp [ExtendedMantissa.shiftRightOne, hne]

theorem Approximates.shiftRight {em : ExtendedMantissa} {x : ℚ}
    (h : Approximates em x) (n : ℕ) :
    Approximates (em >>> n) (x / 2 ^ n) := by
  induction n with
  | zero =>
      rw [pow_zero, div_one]
      exact h
  | succ n ih =>
      rw [pow_succ, ← div_div]
      exact ih.shiftRightOne

/-- Rounding takes the nearest mantissa, and of two that are equally near the even one. -/
theorem Approximates.roundedMantissa_eq {em : ExtendedMantissa} {x : ℚ}
    (h : Approximates em x) {m : ℕ} (hlow : 2 * (m : ℚ) - 1 ≤ 2 * x)
    (hhigh : 2 * x ≤ 2 * m + 1)
    (hodd : m % 2 = 1 → 2 * (m : ℚ) - 1 < 2 * x ∧ 2 * x < 2 * m + 1) :
    em.roundedMantissa = m := by
  obtain ⟨hle, hlt, hsticky⟩ := h
  have hlow' : (2 * m : ℚ) < halves em + 2 := by linarith
  have hhigh' : (halves em : ℚ) ≤ 2 * m + 1 := by linarith
  have hcases : halves em + 1 = 2 * m ∨ halves em = 2 * m ∨ halves em = 2 * m + 1 := by
    have hlowNat : 2 * m < halves em + 2 := by exact_mod_cast hlow'
    have hhighNat : halves em ≤ 2 * m + 1 := by exact_mod_cast hhigh'
    omega
  obtain ⟨k, round, sticky⟩ := em
  cases round with
  | false =>
      have hk : k = m := by
        simp only [halves, Bool.toNat_false] at hcases
        omega
      cases sticky <;> exact hk
  | true =>
      have hhalves : (halves ⟨k, true, sticky⟩ : ℚ) = 2 * k + 1 := by simp [halves]
      rw [hhalves] at hle hsticky
      have hk : k + 1 = m ∨ k = m := by
        simp only [halves, Bool.toNat_true] at hcases
        omega
      -- At a midpoint the mantissa is even, so what is rounded is even, or odd and
      -- one below it.
      have heven : 2 * x = 2 * k + 1 → m % 2 = 0 := by
        intro hx
        rcases Nat.mod_two_eq_zero_or_one m with hm | hm
        · exact hm
        · obtain ⟨hlow, hhigh⟩ := hodd hm
          rcases hk with rfl | rfl
          · push_cast at hlow
            linarith
          · linarith
      cases sticky with
      | false =>
          have hm := heven (hsticky.mp rfl)
          show k + k % 2 = m
          omega
      | true =>
          rcases hk with hk | rfl
          · exact hk
          · have hx : 2 * x = 2 * k + 1 := le_antisymm hhigh hle
            cases hsticky.mpr hx

/-! ### Exponents -/

theorem two_zpow_eq {d e : ℤ} {n : ℕ} (h : e = d + n) : (2 : ℚ) ^ e = 2 ^ n * 2 ^ d := by
  rw [h, zpow_add₀ two_ne_zero, zpow_natCast, mul_comm]

theorem lt_of_two_zpow_lt {d e : ℤ} (h : (2 : ℚ) ^ d < 2 ^ e) : d < e :=
  (zpow_lt_zpow_iff_right₀ one_lt_two).mp h

theorem targetExponent_binary64 (e : ℤ) :
    Format.binary64.targetExponent e = max (e - 53) (-1074) :=
  rfl

section Nearest

variable {b : Binary} {q : ℚ}

theorem Binary.Nearest.le (h : b.Nearest q) :
    b.lowerMidpoint * 2 ^ (b.exponent - 2) ≤ q ∧
    q ≤ b.upperMidpoint * 2 ^ (b.exponent - 2) := by
  unfold Nearest at h
  split at h
  · exact h
  · exact ⟨h.1.le, h.2.le⟩

theorem Binary.Nearest.lt (h : b.Nearest q) (hodd : b.mantissa % 2 = 1) :
    b.lowerMidpoint * 2 ^ (b.exponent - 2) < q ∧
    q < b.upperMidpoint * 2 ^ (b.exponent - 2) := by
  unfold Nearest at h
  rwa [if_neg (by omega)] at h

theorem Binary.upperMidpoint_cast (b : Binary) :
    (b.upperMidpoint : ℚ) = 4 * b.mantissa + 2 := by
  simp [upperMidpoint, quarters]

/-- The gap below a power of two is half as wide. -/
theorem Binary.Canonical.lowerMidpoint_cast (h : b.Canonical) :
    (b.mantissa = 2 ^ 52 ∧ -1074 < b.exponent ∧ (b.lowerMidpoint : ℚ) = 4 * b.mantissa - 1) ∨
      ((b.exponent = -1074 ∨ b.mantissa ≠ 2 ^ 52) ∧
        (b.lowerMidpoint : ℚ) = 4 * b.mantissa - 2) := by
  have hpos := h.pos
  have hleast := h.least
  have hlower : b.lowerMidpoint = if b.mantissa = 2 ^ 52 ∧ -1074 < b.exponent
      then 4 * b.mantissa - 1 else 4 * b.mantissa - 2 := rfl
  by_cases hpower : b.mantissa = 2 ^ 52 ∧ -1074 < b.exponent
  · refine .inl ⟨hpower.1, hpower.2, ?_⟩
    rw [hlower, if_pos hpower, Nat.cast_sub (by omega)]
    simp
  · refine .inr ⟨by omega, ?_⟩
    rw [hlower, if_neg hpower, Nat.cast_sub (by omega)]
    simp

/-- A number that is not rounded to zero. -/
theorem Binary.Canonical.le_of_nearest (hb : b.Canonical) (hq : b.Nearest q) :
    (2 : ℚ) ^ (-1075 : ℤ) ≤ q := by
  have hleast := hb.least
  have hpos : (1 : ℚ) ≤ b.mantissa := by exact_mod_cast hb.pos
  have hquarter : (2 : ℚ) ^ (-1076 : ℤ) ≤ 2 ^ (b.exponent - 2) :=
    zpow_le_zpow_right₀ one_le_two (by omega)
  have hlower : (2 : ℚ) ≤ b.lowerMidpoint := by
    rcases hb.lowerMidpoint_cast with ⟨-, -, hcast⟩ | ⟨-, hcast⟩ <;> linarith
  calc (2 : ℚ) ^ (-1075 : ℤ) = 2 * 2 ^ (-1076 : ℤ) := by
        rw [two_zpow_eq (d := -1076) (n := 1) (by norm_num), pow_one]
    _ ≤ b.lowerMidpoint * 2 ^ (b.exponent - 2) :=
      mul_le_mul hlower hquarter (by positivity) (by positivity)
    _ ≤ q := hq.le.1

/-- The exponent at which a number is rounded is that of the nearest double, or one less right
below a power of two. -/
theorem Binary.Canonical.targetExponent_eq {t : ℤ} (hb : b.Canonical) (hq : b.Nearest q)
    (hhigh : q < 2 ^ t) (hlow : 2 ^ (t - 1) ≤ q ∨ t ≤ -1073) :
    Format.binary64.targetExponent t = b.exponent ∨
      Format.binary64.targetExponent t = b.exponent - 1 ∧ b.mantissa = 2 ^ 52 ∧
        (b.lowerMidpoint : ℚ) = 4 * b.mantissa - 1 ∧ q < b.mantissa * 2 ^ b.exponent := by
  rw [targetExponent_binary64]
  obtain ⟨hl, hu⟩ := hq.le
  rw [upperMidpoint_cast] at hu
  have hquarter : (0 : ℚ) < 2 ^ (b.exponent - 2) := by positivity
  have hlt : (b.mantissa : ℚ) + 1 ≤ 2 ^ 53 := by exact_mod_cast hb.lt
  have hbelow : q < 2 ^ (b.exponent + 53) := by
    rw [two_zpow_eq (n := 55) (show b.exponent + 53 = b.exponent - 2 + 55 by ring)]
    refine lt_of_le_of_lt hu ((mul_lt_mul_iff_left₀ hquarter).mpr ?_)
    linarith
  by_cases hleast : b.exponent = -1074
  · left
    rcases hlow with hlow | hlow
    · have ht := lt_of_two_zpow_lt (lt_of_le_of_lt hlow hbelow)
      omega
    · omega
  · have hexponent : -1074 < b.exponent := lt_of_le_of_ne hb.least (Ne.symm hleast)
    have hmantissa : (2 : ℚ) ^ 52 ≤ b.mantissa := by exact_mod_cast hb.normal hexponent
    have habove : (2 : ℚ) ^ (b.exponent + 51) < q := by
      rw [two_zpow_eq (n := 53) (show b.exponent + 51 = b.exponent - 2 + 53 by ring)]
      refine lt_of_lt_of_le ((mul_lt_mul_iff_left₀ hquarter).mpr ?_) hl
      rcases hb.lowerMidpoint_cast with ⟨-, -, hcast⟩ | ⟨-, hcast⟩ <;> linarith
    have ht := lt_of_two_zpow_lt (habove.trans hhigh)
    have ht' := lt_of_two_zpow_lt (lt_of_le_of_lt (hlow.resolve_right (by omega)) hbelow)
    rcases (show t = b.exponent + 53 ∨ t = b.exponent + 52 by omega) with rfl | rfl
    · left
      omega
    · right
      have hvalue : (2 : ℚ) ^ (b.exponent + 52) = 2 ^ 54 * 2 ^ (b.exponent - 2) :=
        two_zpow_eq (by push_cast; ring)
      rw [hvalue] at hhigh
      have hunder := (mul_lt_mul_iff_left₀ hquarter).mp (lt_of_le_of_lt hl hhigh)
      rcases hb.lowerMidpoint_cast with ⟨hm, -, hcast⟩ | ⟨hne, hcast⟩
      · refine ⟨by omega, hm, hcast, ?_⟩
        rw [hm, two_zpow_eq (n := 2) (show b.exponent = b.exponent - 2 + 2 by ring)]
        push_cast
        linarith
      · rw [hcast] at hunder
        have hle : b.mantissa ≤ 2 ^ 52 := by
          have hlt : (b.mantissa : ℚ) < 2 ^ 52 + 1 := by linarith
          exact Nat.lt_succ_iff.mp (by exact_mod_cast hlt)
        exact absurd (le_antisymm hle (hb.normal hexponent)) (by omega)

end Nearest

/-! ### Rounding -/

theorem mantissa_ofMantissaAndAccuracy (m : ℕ) (acc : Accuracy) :
    (ExtendedMantissa.ofMantissaAndAccuracy m acc).mantissa = m := by
  cases acc with
  | exact => rfl
  | inexact o => cases o <;> rfl

theorem Approximates.mantissa_le {em : ExtendedMantissa} {x : ℚ} (h : Approximates em x) :
    em.mantissa ≤ x ∧ x < em.mantissa + 1 := by
  obtain ⟨hle, hlt, -⟩ := h
  have hhalves : (halves em : ℚ) = 2 * em.mantissa + em.roundBit.toNat := by simp [halves]
  rw [hhalves] at hle hlt
  have hbit : (em.roundBit.toNat : ℚ) ≤ 1 := by exact_mod_cast Bool.toNat_le em.roundBit
  have hbit' : (0 : ℚ) ≤ em.roundBit.toNat := Nat.cast_nonneg _
  constructor <;> linarith

/-- The leading bit of the mantissa is the leading bit of the number. -/
theorem Approximates.totalExponent_bounds {q : ℚ} {m : ℕ} {e : ℤ} {acc : Accuracy}
    (h : Approximates (.ofMantissaAndAccuracy m acc) (q / 2 ^ e)) (hzero : m = 0 → e ≤ -1074) :
    q < 2 ^ totalExponent m e ∧ (2 ^ (totalExponent m e - 1) ≤ q ∨
      totalExponent m e ≤ -1073) := by
  have hpower : (0 : ℚ) < 2 ^ e := by positivity
  obtain ⟨hle, hlt⟩ := h.mantissa_le
  rw [mantissa_ofMantissaAndAccuracy] at hle hlt
  rw [le_div_iff₀ hpower] at hle
  rw [div_lt_iff₀ hpower] at hlt
  constructor
  · have hlog : (m : ℚ) + 1 ≤ 2 ^ (m.log2 + 1) := by exact_mod_cast Nat.lt_log2_self
    rw [two_zpow_eq (d := e) (n := m.log2 + 1) (by rw [totalExponent]; push_cast; ring)]
    exact lt_of_lt_of_le hlt (mul_le_mul_of_nonneg_right hlog hpower.le)
  · by_cases hm : m = 0
    · right
      have hleast := hzero hm
      rw [totalExponent, hm, Nat.log2_zero]
      omega
    · left
      have hlog : (2 : ℚ) ^ m.log2 ≤ m := by exact_mod_cast Nat.log2_self_le hm
      rw [two_zpow_eq (d := e) (n := m.log2) (by rw [totalExponent]; ring)]
      exact (mul_le_mul_of_nonneg_right hlog hpower.le).trans hle

theorem shiftToTargetExponent_eq {m : ℕ} {e : ℤ} (acc : Accuracy)
    (h : e ≤ Format.binary64.targetExponent (totalExponent m e)) :
    shiftToTargetExponent .binary64 m e acc =
      (ExtendedMantissa.ofMantissaAndAccuracy m acc >>>
        (Format.binary64.targetExponent (totalExponent m e) - e).toNat,
        Format.binary64.targetExponent (totalExponent m e)) := by
  simp only [shiftToTargetExponent, shiftToExponent, Prod.mk.injEq, true_and]
  omega

/-- A canonical mantissa stays where it is. -/
theorem Binary.Canonical.shiftToTargetExponent_exact {b : Binary} (h : b.Canonical) :
    shiftToTargetExponent .binary64 b.mantissa b.exponent .exact =
      (⟨b.mantissa, false, false⟩, b.exponent) := by
  have hlog : (b.mantissa.log2 : ℤ) ≤ 52 := by
    have := (Nat.log2_lt h.pos.ne').mpr h.lt
    omega
  have ht : Format.binary64.targetExponent (totalExponent b.mantissa b.exponent) =
      b.exponent := by
    rw [targetExponent_binary64, totalExponent]
    by_cases hleast : b.exponent = -1074
    · omega
    · have hexponent := lt_of_le_of_ne h.least (Ne.symm hleast)
      have := (Nat.le_log2 h.pos.ne').mpr (h.normal hexponent)
      omega
  rw [shiftToTargetExponent_eq _ (le_of_eq ht.symm), ht, sub_self]
  rfl

/-- A mantissa that has grown by one bit. -/
theorem shiftToTargetExponent_power {e : ℤ} (h : -1074 ≤ e) :
    shiftToTargetExponent .binary64 (2 ^ 53) e .exact = (⟨2 ^ 52, false, false⟩, e + 1) := by
  have ht : Format.binary64.targetExponent (totalExponent (2 ^ 53) e) = e + 1 := by
    rw [targetExponent_binary64, totalExponent, Nat.log2_two_pow]
    omega
  rw [shiftToTargetExponent_eq _ (by omega), ht, add_sub_cancel_left]
  rfl

theorem roundWithAccuracy_of_shifts {m k : ℕ} {e e₁ e₂ : ℤ} {acc : Accuracy}
    {em : ExtendedMantissa} (h₁ : shiftToTargetExponent .binary64 m e acc = (em, e₁))
    (h₂ : shiftToTargetExponent .binary64 em.roundedMantissa e₁ .exact =
      (⟨k, false, false⟩, e₂))
    (hk : 0 < k) (sign : Sign) :
    roundWithAccuracy .binary64 sign m e acc = .finite sign k e₂ hk := by
  rw [roundWithAccuracy, h₁]
  dsimp only
  rw [h₂]
  exact dif_neg hk.ne'

theorem Binary.Canonical.roundWithAccuracy_exact {b : Binary} (h : b.Canonical) (sign : Sign) :
    roundWithAccuracy .binary64 sign b.mantissa b.exponent .exact =
      .finite sign b.mantissa b.exponent h.pos :=
  roundWithAccuracy_of_shifts h.shiftToTargetExponent_exact
    h.shiftToTargetExponent_exact h.pos sign

/-- A number is rounded to a multiple of two halves. -/
theorem Approximates.roundedMantissa_of_halves {em : ExtendedMantissa} {q half : ℚ} {m : ℕ}
    (h : Approximates em (q / (2 * half))) (hhalf : 0 < half) (hlow : (2 * m - 1) * half ≤ q)
    (hhigh : q ≤ (2 * m + 1) * half)
    (hodd : m % 2 = 1 → (2 * m - 1) * half < q ∧ q < (2 * m + 1) * half) :
    em.roundedMantissa = m := by
  have hx : 2 * (q / (2 * half)) = q / half := by field_simp
  apply h.roundedMantissa_eq
  · rwa [hx, le_div_iff₀ hhalf]
  · rwa [hx, div_le_iff₀ hhalf]
  · rwa [hx, lt_div_iff₀ hhalf, div_lt_iff₀ hhalf]

/-- A number is rounded to the double that is nearest to it. -/
theorem roundWithAccuracy_eq {b : Binary} {q : ℚ} {m : ℕ} {e : ℤ} {acc : Accuracy}
    (hb : b.Canonical) (hq : b.Nearest q)
    (h : Approximates (.ofMantissaAndAccuracy m acc) (q / 2 ^ e))
    (he : e ≤ Format.binary64.targetExponent (totalExponent m e)) (hzero : m = 0 → e ≤ -1074)
    (sign : Sign) :
    roundWithAccuracy .binary64 sign m e acc = .finite sign b.mantissa b.exponent hb.pos := by
  obtain ⟨hhigh, hlow⟩ := h.totalExponent_bounds hzero
  have hfirst := shiftToTargetExponent_eq acc he
  have hshift := h.shiftRight (Format.binary64.targetExponent (totalExponent m e) - e).toNat
  rw [div_div, mul_comm,
    ← two_zpow_eq (e := Format.binary64.targetExponent (totalExponent m e))
    (by omega)] at hshift
  have hquarter : (0 : ℚ) < 2 ^ (b.exponent - 2) := by positivity
  obtain ⟨hl, hu⟩ := hq.le
  rw [b.upperMidpoint_cast] at hu
  rcases hb.targetExponent_eq hq hhigh hlow with ht | ⟨ht, hm, hcast, hbelow⟩
  · rw [ht] at hshift hfirst
    rw [two_zpow_eq (d := b.exponent - 2) (n := 2) (by push_cast; ring),
      show (2 : ℚ) ^ 2 * 2 ^ (b.exponent - 2) = 2 * (2 * 2 ^ (b.exponent - 2)) by
        ring] at hshift
    have hlower : (4 * b.mantissa - 2 : ℚ) * 2 ^ (b.exponent - 2) ≤
        b.lowerMidpoint * 2 ^ (b.exponent - 2) := by
      refine mul_le_mul_of_nonneg_right ?_ hquarter.le
      rcases hb.lowerMidpoint_cast with ⟨-, -, hcast⟩ | ⟨-, hcast⟩ <;> linarith
    have hrounded :=
      hshift.roundedMantissa_of_halves (m := b.mantissa) (by linarith) (by linarith)
        (by linarith) fun hodd => by
          obtain ⟨hl', hu'⟩ := hq.lt hodd
          rw [b.upperMidpoint_cast] at hu'
          constructor <;> linarith
    refine roundWithAccuracy_of_shifts hfirst ?_ hb.pos sign
    rw [hrounded, hb.shiftToTargetExponent_exact]
  · rw [ht] at hshift hfirst
    rw [two_zpow_eq (d := b.exponent - 2) (n := 1) (by push_cast; ring), pow_one] at hshift
    rw [hcast, hm] at hl
    rw [hm, two_zpow_eq (d := b.exponent - 2) (n := 2) (by push_cast; ring)] at hbelow
    push_cast at hl hbelow
    have hrounded := hshift.roundedMantissa_of_halves (m := 2 ^ 53) hquarter
      (by push_cast; linarith) (by push_cast; linarith) fun hodd => absurd hodd (by decide)
    have hleast : -1074 ≤ b.exponent - 1 := by
      rw [← ht, targetExponent_binary64]
      exact le_max_right _ _
    have hsecond := shiftToTargetExponent_power hleast
    rw [← hrounded, sub_add_cancel, ← hm] at hsecond
    exact roundWithAccuracy_of_shifts hfirst hsecond hb.pos sign

/-! ### Quotients -/

theorem approximates_div (n : ℕ) {d : ℕ} (hd : 0 < d) :
    Approximates (.ofMantissaAndAccuracy (n / d) (accuracyOfFraction (n % d) d))
      (n / d : ℚ) := by
  have hpos : (0 : ℚ) < d := by exact_mod_cast hd
  have hn : (n : ℚ) = d * (n / d : ℕ) + (n % d : ℕ) := by
    exact_mod_cast (Nat.div_add_mod n d).symm
  have hx : 2 * ((n : ℚ) / d) = 2 * (n / d : ℕ) + (2 * (n % d) : ℕ) / d := by
    rw [hn]
    push_cast
    field_simp
  rw [accuracyOfFraction]
  split
  next hzero =>
    rw [hzero, mul_zero, Nat.cast_zero, zero_div, add_zero] at hx
    exact .of_eq (by simpa using hx)
  next hne =>
    have hrest : (0 : ℚ) < (2 * (n % d) : ℕ) / d := by
      have hpos' : 0 < 2 * (n % d) := by omega
      positivity
    have hrest' : ((2 * (n % d) : ℕ) : ℚ) / d < 2 := by
      have hlt := Nat.mod_lt n hd
      rw [div_lt_iff₀ hpos]
      exact_mod_cast (by omega)
    rcases lt_trichotomy (2 * (n % d)) d with h | h | h
    · rw [Nat.compare_eq_lt.mpr h]
      have hy : ((2 * (n % d) : ℕ) : ℚ) / d < 1 := (div_lt_one hpos).mpr (by exact_mod_cast h)
      refine .of_lt ?_ ?_ <;> rw [hx, Bool.toNat_false, Nat.cast_zero] <;> linarith
    · rw [Nat.compare_eq_eq.mpr h]
      have hy : ((2 * (n % d) : ℕ) : ℚ) / d = 1 := by rw [h, div_self hpos.ne']
      refine .of_eq ?_
      rw [hx, hy, Bool.toNat_true, Nat.cast_one]
    · rw [Nat.compare_eq_gt.mpr h]
      have hy : 1 < ((2 * (n % d) : ℕ) : ℚ) / d := (one_lt_div hpos).mpr (by exact_mod_cast h)
      refine .of_lt ?_ ?_ <;> rw [hx, Bool.toNat_true, Nat.cast_one] <;> linarith

/-- How many bits a quotient has at least. -/
theorem le_log2_div {m d k : ℕ} (hd : 0 < d) (hm : 2 ^ k ≤ m) :
    k ≤ (m / d).log2 + 1 + d.log2 := by
  have hdiv : m / d < 2 ^ ((m / d).log2 + 1) := Nat.lt_log2_self
  have hlog : d < 2 ^ (d.log2 + 1) := Nat.lt_log2_self
  have hpow : 2 ^ k < 2 ^ ((m / d).log2 + 1 + (d.log2 + 1)) := by
    rw [pow_add]
    calc 2 ^ k ≤ m := hm
      _ < 2 ^ ((m / d).log2 + 1) * d := (Nat.div_lt_iff_lt_mul hd).mp hdiv
      _ ≤ 2 ^ ((m / d).log2 + 1) * 2 ^ (d.log2 + 1) := Nat.mul_le_mul_left _ hlog.le
  have hlt := (Nat.pow_lt_pow_iff_right (by decide)).mp hpow
  omega

/-- A quotient is rounded to the double that is nearest to it. -/
theorem div_eq {b : Binary} {q : ℚ} (hb : b.Canonical) (hq : b.Nearest q)
    {m₁ m₂ : ℕ} {e₁ e₂ : ℤ} {h₁ : 0 < m₁} {h₂ : 0 < m₂}
    (hquotient : q = m₁ * 2 ^ e₁ / (m₂ * 2 ^ e₂)) :
    div .binary64 (.finite .positive m₁ e₁ h₁) (.finite .positive m₂ e₂ h₂) =
      .finite .positive b.mantissa b.exponent hb.pos := by
  -- Before it is divided, the mantissa is shifted so far that the quotient has bits enough.
  set t := min (e₁ - e₂)
    (Format.binary64.targetExponent (totalExponent m₁ e₁ - totalExponent m₂ e₂)) with ht
  have hbits : 2 ^ (m₁.log2 + (e₁ - e₂ - t).toNat) ≤ m₁ <<< (e₁ - e₂ - t).toNat := by
    rw [Nat.shiftLeft_eq, pow_add]
    exact Nat.mul_le_mul_right _ (Nat.log2_self_le h₁.ne')
  rw [targetExponent_binary64, totalExponent, totalExponent] at ht
  refine roundWithAccuracy_eq hb hq (m := (m₁ <<< (e₁ - e₂ - t).toNat) / m₂)
    (e := t) ?_ ?_ ?_ .positive
  · have hpower : (2 : ℚ) ^ e₁ = 2 ^ (e₁ - e₂ - t).toNat * 2 ^ (e₂ + t) :=
      two_zpow_eq (by omega)
    have hx : q / 2 ^ t = (m₁ <<< (e₁ - e₂ - t).toNat : ℕ) / m₂ := by
      rw [hquotient, hpower, zpow_add₀ two_ne_zero, Nat.shiftLeft_eq]
      push_cast
      field_simp
    rw [hx]
    exact approximates_div _ h₂
  · have hlog := le_log2_div h₂ hbits
    rw [targetExponent_binary64, totalExponent]
    omega
  · intro hzero
    have hlt : m₁ <<< (e₁ - e₂ - t).toNat < m₂ := (Nat.div_eq_zero_iff_lt h₂).mp hzero
    have hpow := hbits.trans_lt (hlt.trans Nat.lt_log2_self)
    have hlog := (Nat.pow_lt_pow_iff_right (by decide)).mp hpow
    omega

end MiniPascal.Decimal
