import MiniPascal.Proofs.Decimal.Rounding

/-!
Doubles as bits. The bits of a positive double, read as a number, are its place among all
doubles from zero upwards. With these a decimal with digits after its point is read as the
double that is nearest to it.
-/

namespace MiniPascal.Decimal

open Float.Model Float.Model.UnpackedFloat

/-- How many doubles there are from zero up to this one. -/
def Binary.code (b : Binary) : ℕ := (b.exponent + 1074).toNat * 2 ^ 52 + b.mantissa

/-! ### Packing -/

theorem toNat_packComponents (exponent : BitVec 11) (mantissa : BitVec 52) :
    (packComponents .binary64 .positive exponent mantissa).toNat =
      exponent.toNat * 2 ^ 52 + mantissa.toNat := by
  have hmantissa := mantissa.isLt
  simp only [packComponents, BitVec.toNat_append, Sign.toBitVec]
  rw [← Nat.shiftLeft_add_eq_or_of_lt hmantissa]
  simp [Nat.shiftLeft_eq]

theorem unpackSign_packComponents (exponent : BitVec 11) (mantissa : BitVec 52) :
    unpackSign (packComponents .binary64 .positive exponent mantissa) = 0#1 := by
  apply BitVec.eq_of_toNat_eq
  have hnat := toNat_packComponents exponent mantissa
  have hexponent := exponent.isLt
  have hmantissa := mantissa.isLt
  change
    (BitVec.extractLsb 63 63 (packComponents .binary64 .positive exponent mantissa)).toNat = 0
  rw [BitVec.extractLsb_toNat, hnat, Nat.shiftRight_eq_div_pow]
  omega

theorem toNat_append_pos (mantissa : BitVec 52) : 0 < (1#1 ++ mantissa).toNat := by
  rw [BitVec.toNat_append, ← Nat.shiftLeft_add_eq_or_of_lt mantissa.isLt]
  exact Nat.add_pos_left (by decide) _

/-- How the parts of the bits make a double. -/
theorem unpack_eq (bits : BitVec 64) :
    unpack .binary64 bits =
      if @unpackExponent .binary64 bits = -1#11 then
        if @unpackMantissa .binary64 bits = 0#52 then
          .infinity (.ofBitVec (@unpackSign .binary64 bits))
        else .notANumber
      else if @unpackExponent .binary64 bits = 0#11 then
        if h : @unpackMantissa .binary64 bits = 0#52 then
          .zero (.ofBitVec (@unpackSign .binary64 bits))
        else
          .finite (.ofBitVec (@unpackSign .binary64 bits))
            (@unpackMantissa .binary64 bits).toNat
            ((@unpackExponent .binary64 bits).toNat - (1023 + 52 : ℕ) + 1)
            (Nat.pos_of_ne_zero fun hzero => h (BitVec.eq_of_toNat_eq hzero))
      else
        .finite (.ofBitVec (@unpackSign .binary64 bits))
          (1#1 ++ @unpackMantissa .binary64 bits).toNat
          ((@unpackExponent .binary64 bits).toNat - (1023 + 52 : ℕ)) (toNat_append_pos _) :=
  rfl

theorem finite_eq {sign sign' : Sign} {m m' : ℕ} {e e' : ℤ} {hm : 0 < m} {hm' : 0 < m'}
    (hsign : sign = sign') (hmantissa : m = m') (hexponent : e = e') :
    finite sign m e hm = finite sign' m' e' hm' := by
  subst hsign hmantissa hexponent
  rfl

theorem unpack_normal {exponent : BitVec 11} {mantissa : BitVec 52} {m : ℕ} {e : ℤ}
    (hm : 0 < m) (hmax : exponent ≠ -1#11) (hzero : exponent ≠ 0#11)
    (hmantissa : (1#1 ++ mantissa).toNat = m)
    (hexponent : (exponent.toNat : ℤ) - 1075 = e) :
    unpack .binary64 (packComponents .binary64 .positive exponent mantissa) =
      .finite .positive m e hm := by
  rw [unpack_eq, unpackExponent_packComponents, if_neg hmax, if_neg hzero]
  refine finite_eq ?_ ?_ hexponent
  · rw [unpackSign_packComponents]
    rfl
  · rw [unpackMantissa_packComponents]
    exact hmantissa

theorem unpack_subnormal {mantissa : BitVec 52} {m : ℕ} (hm : 0 < m)
    (hmantissa : mantissa.toNat = m) :
    unpack .binary64 (packComponents .binary64 .positive 0 mantissa) =
      .finite .positive m (-1074) hm := by
  have hne : @unpackMantissa .binary64
      (packComponents .binary64 .positive 0 mantissa) ≠ 0#52 := by
    rw [unpackMantissa_packComponents]
    rintro rfl
    rw [← hmantissa] at hm
    exact absurd hm (by decide)
  rw [unpack_eq, unpackExponent_packComponents, if_neg (by decide),
    if_pos (show (0 : BitVec 11) = 0#11 from rfl), dif_neg hne]
  refine finite_eq ?_ ?_ rfl
  · rw [unpackSign_packComponents]
    rfl
  · rw [unpackMantissa_packComponents]
    exact hmantissa

theorem pack_finite (sign : Sign) (m : ℕ) (e : ℤ) (h : 0 < m) :
    pack .binary64 (.finite sign m e h) =
      if 2 ^ 11 ≤ (e + 1075).toNat + 1 then packedInfinity .binary64 sign
      else if m.log2 + 1 = 53 then
        packComponents .binary64 sign (.ofNat 11 (e + 1075).toNat) (.ofNat 52 m)
      else packComponents .binary64 sign 0 (.ofNat 52 m) := by
  have he : e + 1075 = e + (1023 : ℕ) + (52 : ℕ) := by omega
  rw [he]
  rfl

namespace Binary.Canonical

variable {b : Binary} (hb : b.Canonical) (hmost : b.exponent ≤ 971)

include hb in
theorem exponent_of_lt (hsubnormal : b.mantissa < 2 ^ 52) : b.exponent = -1074 := by
  have hleast := hb.least
  have hnormal := hb.normal
  omega

include hmost

/-- How a double with all bits of the mantissa is packed. -/
theorem pack_normal (hnormal : 2 ^ 52 ≤ b.mantissa) :
    pack .binary64 (.finite .positive b.mantissa b.exponent hb.pos) =
      packComponents .binary64 .positive (.ofNat 11 (b.exponent + 1075).toNat)
        (.ofNat 52 b.mantissa) := by
  have hlt := (Nat.log2_lt hb.pos.ne').mpr hb.lt
  have hle := (Nat.le_log2 hb.pos.ne').mpr hnormal
  rw [pack_finite, if_neg (by omega), if_pos (by omega)]

/-- How a double next to zero is packed. -/
theorem pack_subnormal (hsubnormal : b.mantissa < 2 ^ 52) :
    pack .binary64 (.finite .positive b.mantissa b.exponent hb.pos) =
      packComponents .binary64 .positive 0 (.ofNat 52 b.mantissa) := by
  have hlt := (Nat.log2_lt hb.pos.ne').mpr hsubnormal
  rw [pack_finite, if_neg (by omega), if_neg (by omega)]

theorem toNat_pack :
    (pack .binary64 (.finite .positive b.mantissa b.exponent hb.pos)).toNat = b.code := by
  have hlt := hb.lt
  have hleast := hb.least
  by_cases hsubnormal : b.mantissa < 2 ^ 52
  · rw [hb.pack_subnormal hmost hsubnormal, toNat_packComponents, code,
      hb.exponent_of_lt hsubnormal, BitVec.toNat_ofNat, Nat.mod_eq_of_lt hsubnormal]
    rfl
  · rw [hb.pack_normal hmost (by omega), toNat_packComponents, code, BitVec.toNat_ofNat,
      BitVec.toNat_ofNat]
    omega

theorem unpack_pack :
    unpack .binary64 (pack .binary64 (.finite .positive b.mantissa b.exponent hb.pos)) =
      .finite .positive b.mantissa b.exponent hb.pos := by
  have hlt := hb.lt
  have hleast := hb.least
  by_cases hsubnormal : b.mantissa < 2 ^ 52
  · have hmantissa : (BitVec.ofNat 52 b.mantissa).toNat = b.mantissa := by
      rw [BitVec.toNat_ofNat, Nat.mod_eq_of_lt hsubnormal]
    rw [hb.pack_subnormal hmost hsubnormal, unpack_subnormal hb.pos hmantissa]
    exact finite_eq rfl rfl (hb.exponent_of_lt hsubnormal).symm
  · have hexponent : (BitVec.ofNat 11 (b.exponent + 1075).toNat).toNat =
        (b.exponent + 1075).toNat := by
      rw [BitVec.toNat_ofNat, Nat.mod_eq_of_lt (by omega)]
    have hmantissa : (1#1 ++ BitVec.ofNat 52 b.mantissa).toNat = b.mantissa := by
      rw [BitVec.toNat_append, ← Nat.shiftLeft_add_eq_or_of_lt (BitVec.isLt _),
        BitVec.toNat_ofNat]
      simp only [BitVec.toNat_ofNat, Nat.shiftLeft_eq]
      omega
    rw [hb.pack_normal hmost (by omega)]
    refine unpack_normal hb.pos ?_ ?_ hmantissa (by omega)
    · intro hmax
      rw [hmax] at hexponent
      revert hexponent
      simp
      omega
    · intro hzero
      rw [hzero] at hexponent
      simp at hexponent
      omega

end Binary.Canonical

/-! ### The bits of a double -/

section Bits

variable {x : Float}

theorem toNat_toBits_lt (hsign : isNegative x = false) : x.toBits.toNat < 2 ^ 63 := by
  have hlt := x.toBits.toNat_lt
  have hne : x.toBits.toNat / 2 ^ 63 ≠ 1 := of_decide_eq_false hsign
  omega

theorem Binary.ofFloat_eq (x : Float) :
    ofFloat x =
      if x.toBits.toNat / 2 ^ 52 % 2 ^ 11 = 0 then ⟨x.toBits.toNat % 2 ^ 52, -1074⟩
      else ⟨2 ^ 52 + x.toBits.toNat % 2 ^ 52,
        -1074 + (x.toBits.toNat / 2 ^ 52 % 2 ^ 11 - 1 : ℕ)⟩ :=
  rfl

theorem Binary.code_ofFloat (hsign : isNegative x = false) :
    (Binary.ofFloat x).code = x.toBits.toNat := by
  have hlt := toNat_toBits_lt hsign
  rw [ofFloat_eq]
  split <;> simp only [code] <;> omega

/-- The largest exponent is that of the numbers that are not finite. -/
theorem biased_of_isFinite (h : x.isFinite = true) :
    x.toBits.toNat / 2 ^ 52 % 2 ^ 11 < 2047 := by
  by_contra hge
  have hexponent : @unpackExponent .binary64 x.toBits.toBitVec = -1#11 := by
    apply BitVec.eq_of_toNat_eq
    have hnat : x.toBits.toBitVec.toNat = x.toBits.toNat := rfl
    simp [unpackExponent, hnat, Nat.shiftRight_eq_div_pow]
    omega
  have hunpack : (UnpackedFloat.unpack .binary64 x.toBits.toBitVec).isFinite = true := h
  rw [unpack_eq, if_pos hexponent] at hunpack
  split at hunpack <;> cases hunpack

theorem Binary.canonical_ofFloat (h : x.isFinite = true)
    (hpos : 0 < (Binary.ofFloat x).mantissa) :
    (Binary.ofFloat x).Canonical ∧ (Binary.ofFloat x).exponent ≤ 971 := by
  have hbiased := biased_of_isFinite h
  rw [ofFloat_eq] at hpos ⊢
  split at hpos
  next hzero =>
    rw [if_pos hzero]
    refine ⟨⟨hpos, ?_, ?_, ?_⟩, ?_⟩ <;> simp only <;> omega
  next hne =>
    rw [if_neg hne]
    refine ⟨⟨hpos, ?_, ?_, ?_⟩, ?_⟩ <;> simp only <;> omega

theorem eq_of_toNat_toBits {y : Float} (h : x.toBits.toNat = y.toBits.toNat) : x = y := by
  obtain ⟨⟨bits, hbits⟩⟩ := x
  obtain ⟨⟨bits', hbits'⟩⟩ := y
  obtain rfl : bits = bits' := UInt64.toNat_inj.mp h
  rfl

/-- A double is packed from its mantissa and its exponent. -/
theorem eq_pack_ofFloat (hsign : isNegative x = false) (h : (Binary.ofFloat x).Canonical)
    (hmost : (Binary.ofFloat x).exponent ≤ 971) :
    Float.ofModel (.pack (.finite .positive (Binary.ofFloat x).mantissa
      (Binary.ofFloat x).exponent h.pos)) = x :=
  eq_of_toNat_toBits ((h.toNat_pack hmost).trans (Binary.code_ofFloat hsign))

/-- The double without a mantissa is zero. -/
theorem toNat_toBits_of_zero (hsign : isNegative x = false)
    (h : (Binary.ofFloat x).mantissa = 0) :
    x.toBits.toNat = 0 := by
  have hlt := toNat_toBits_lt hsign
  rw [Binary.ofFloat_eq] at h
  split at h
  · simp only at h
    omega
  · simp only at h
    omega

end Bits

theorem isNegative_packComponents (exponent : BitVec 11) (mantissa : BitVec 52)
    {u : UnpackedFloat}
    (h : UnpackedFloat.pack .binary64 u = packComponents .binary64 .positive
      exponent mantissa) :
    isNegative (.ofModel (.pack u)) = false := by
  have hbits : (Float.ofModel (.pack u)).toBits.toNat =
      exponent.toNat * 2 ^ 52 + mantissa.toNat := by
    rw [← toNat_packComponents, ← h]
    rfl
  have hexponent := exponent.isLt
  have hmantissa := mantissa.isLt
  refine decide_eq_false ?_
  rw [hbits]
  show ¬_ / 2 ^ 63 = 1
  omega

theorem isNegative_finite (m : ℕ) (e : ℤ) (h : 0 < m) :
    isNegative (.ofModel (.pack (.finite .positive m e h))) = false := by
  have hpack := pack_finite .positive m e h
  generalize UnpackedFloat.finite .positive m e h = u at hpack ⊢
  split at hpack
  · exact isNegative_packComponents _ _ hpack
  · split at hpack <;> exact isNegative_packComponents _ _ hpack

/-- What is rounded from a positive number has no sign. -/
theorem isNegative_roundWithAccuracy (m : ℕ) (e : ℤ) (acc : Accuracy) :
    isNegative (.ofModel (.pack (roundWithAccuracy .binary64 .positive m e acc))) = false := by
  rw [roundWithAccuracy]
  dsimp only
  generalize shiftToTargetExponent .binary64 _ _ .exact = r
  by_cases hzero : r.1.mantissa = 0
  · rw [dif_pos hzero]
    exact isNegative_packComponents 0 0 rfl
  · rw [dif_neg hzero]
    exact isNegative_finite _ _ _

/-! ### Decimals with digits after the point -/

theorem zpow_eq_div {a : ℚ} (ha : a ≠ 0) (e : ℤ) : a ^ e = a ^ e.toNat / a ^ (-e).toNat := by
  rw [← zpow_natCast, ← zpow_natCast, ← zpow_sub₀ ha]
  congr 1
  omega

/-- A whole number below `2 ^ 53`, with all bits of the mantissa. -/
def Binary.ofNat (m : ℕ) : Binary := ⟨m <<< (52 - m.log2), -(52 - m.log2 : ℕ)⟩

theorem Binary.canonical_ofNat {m : ℕ} (hm : 0 < m) (hlt : m < 2 ^ 53) :
    (ofNat m).Canonical := by
  have hlog := (Nat.log2_lt hm.ne').mpr hlt
  have hlow : 2 ^ 52 ≤ m <<< (52 - m.log2) := by
    calc 2 ^ 52 = 2 ^ m.log2 * 2 ^ (52 - m.log2) := by rw [← pow_add]; congr 1; omega
      _ ≤ m * 2 ^ (52 - m.log2) := Nat.mul_le_mul_right _ (Nat.log2_self_le hm.ne')
      _ = m <<< (52 - m.log2) := (Nat.shiftLeft_eq ..).symm
  have hhigh : m <<< (52 - m.log2) < 2 ^ 53 := by
    calc m <<< (52 - m.log2) = m * 2 ^ (52 - m.log2) := Nat.shiftLeft_eq ..
      _ < 2 ^ (m.log2 + 1) * 2 ^ (52 - m.log2) :=
        Nat.mul_lt_mul_of_pos_right Nat.lt_log2_self (by positivity)
      _ = 2 ^ 53 := by rw [← pow_add]; congr 1; omega
  refine ⟨lt_of_lt_of_le (by positivity) hlow, hhigh, ?_, fun _ => hlow⟩
  simp only [ofNat]
  omega

theorem unpack_toFloat {m : ℕ} (hm : 0 < m) (hlt : m < 2 ^ 53) :
    m.toUInt64.toFloat.toModel.unpack = .finite .positive (Binary.ofNat m).mantissa
      (Binary.ofNat m).exponent (Binary.canonical_ofNat hm hlt).pos := by
  have hb := Binary.canonical_ofNat hm hlt
  have hlog := (Nat.log2_lt hm.ne').mpr hlt
  have hnat : m.toUInt64.toNat = m := by
    rw [UInt64.toNat_ofNat', Nat.mod_eq_of_lt (by omega)]
  have hcompare : compare (m : ℤ) 0 = .gt := Int.compare_eq_gt.mpr (by omega)
  have htarget : Format.binary64.targetExponent (totalExponent m 0) =
      (Binary.ofNat m).exponent := by
    rw [targetExponent_binary64, totalExponent]
    simp only [Binary.ofNat]
    omega
  have hshift : decreaseExponent m 0 (Binary.ofNat m).exponent =
      ((Binary.ofNat m).mantissa, (Binary.ofNat m).exponent) := by
    simp [decreaseExponent, Binary.ofNat]
  have hround : UnpackedFloat.ofNat .binary64 m.toUInt64.toNat =
      roundWithAccuracy .binary64 .positive (Binary.ofNat m).mantissa
        (Binary.ofNat m).exponent .exact := by
    simp only [UnpackedFloat.ofNat, UnpackedFloat.ofInt, UnpackedFloat.normalize,
      hnat, hcompare, UnpackedFloat.round, Int.toNat_natCast, htarget, hshift]
  have hmost : (Binary.ofNat m).exponent ≤ 971 := by
    simp only [Binary.ofNat]
    omega
  rw [← hb.unpack_pack hmost, ← hb.roundWithAccuracy_exact, ← hround]
  rfl

theorem value_ofNat (m : ℕ) :
    ((Binary.ofNat m).mantissa : ℚ) * 2 ^ (Binary.ofNat m).exponent = m := by
  simp only [Binary.ofNat, Nat.shiftLeft_eq, zpow_neg, zpow_natCast]
  push_cast
  field_simp

/-- The unpacked float is the power of ten. -/
def isTenTo (n : ℕ) : UnpackedFloat → Bool
  | .finite .positive m e _ => m * 2 ^ e.toNat = 10 ^ n * 2 ^ (-e).toNat
  | _ => false

theorem exists_of_isTenTo {n : ℕ} {u : UnpackedFloat} (h : isTenTo n u = true) :
    ∃ (m : ℕ) (e : ℤ) (hm : 0 < m), u = .finite .positive m e hm ∧
    (m : ℚ) * 2 ^ e = 10 ^ n := by
  cases u with
  | finite sign m e hm =>
      cases sign with
      | positive =>
          refine ⟨m, e, hm, rfl, ?_⟩
          have hnat : (m : ℚ) * 2 ^ e.toNat = 10 ^ n * 2 ^ (-e).toNat := by
            exact_mod_cast of_decide_eq_true h
          rw [zpow_eq_div two_ne_zero, ← mul_div_assoc, hnat,
            mul_div_cancel_right₀ _ (by positivity)]
      | negative => cases h
  | _ => cases h

theorem isTenTo_powersOfTen (e : Fin Float.exactlyRepresentablePowersOfTen.size) :
    isTenTo e (Float.exactlyRepresentablePowersOfTen[e].toModel.unpack) = true := by
  revert e
  decide +kernel

theorem ofScientific_of_slow {m e : ℕ} (h : ¬(m < 2 ^ 53 ∧ e ≤ 22)) :
    Float.ofScientific m true e =
      .ofModel (.pack (UnpackedFloat.ofScientific .binary64 m (-e))) := by
  rw [Float.ofScientific, dif_neg h, if_pos rfl, Int.negOfNat_eq]
  rfl

/-- A decimal is read as a quotient of doubles, or of a whole number and a power of ten. -/
theorem exists_quotient {m e : ℕ} (hm : 0 < m) (he : 0 < e) (hsmall : e ≤ 2048 + m.log2) :
    ∃ (m₁ m₂ : ℕ) (e₁ e₂ : ℤ) (h₁ : 0 < m₁) (h₂ : 0 < m₂),
      (m : ℚ) / 10 ^ e = m₁ * 2 ^ e₁ / (m₂ * 2 ^ e₂) ∧
        Float.ofScientific m true e = .ofModel (.pack (div .binary64
          (.finite .positive m₁ e₁ h₁) (.finite .positive m₂ e₂ h₂))) := by
  by_cases hfast : m < 2 ^ 53 ∧ e ≤ 22
  · have hten := isTenTo_powersOfTen ⟨e, Nat.lt_succ_of_le hfast.2⟩
    obtain ⟨m₂, e₂, h₂, hunpack, hvalue⟩ := exists_of_isTenTo hten
    have hb := Binary.canonical_ofNat hm hfast.1
    refine ⟨(Binary.ofNat m).mantissa, m₂, (Binary.ofNat m).exponent, e₂, hb.pos, h₂, ?_, ?_⟩
    · rw [value_ofNat, hvalue]
    · rw [Float.ofScientific, dif_pos hfast, if_pos rfl,
        ← unpack_toFloat hm hfast.1, ← hunpack]
      rfl
  · have hpow : 0 < 10 ^ e := by positivity
    have hbits : (2 : ℤ) ^ Format.binary64.exponentBits = 2048 := rfl
    refine ⟨m, 10 ^ e, 0, 0, hm, hpow, by simp, ?_⟩
    rw [ofScientific_of_slow hfast, UnpackedFloat.ofScientific, dif_neg hm.ne',
      if_neg (by omega), if_neg (by omega), if_neg (by omega)]
    refine congrArg
      (fun u => Float.ofModel (.pack (div .binary64 (.finite .positive m 0 hm) u))) ?_
    refine finite_eq rfl ?_ rfl
    rw [neg_neg, Int.toNat_natCast]

/-- What is read as zero without a look at its digits. -/
theorem ofScientific_of_zero_or_tiny {m e : ℕ} (he : 0 < e) (h : m = 0 ∨ 2048 + m.log2 < e) :
    Float.ofScientific m true e = .ofModel (.pack (.zero .positive)) := by
  by_cases hfast : m < 2 ^ 53 ∧ e ≤ 22
  · obtain rfl : m = 0 := h.resolve_right (by omega)
    have hten := isTenTo_powersOfTen ⟨e, Nat.lt_succ_of_le hfast.2⟩
    obtain ⟨m₂, e₂, h₂, hunpack, -⟩ := exists_of_isTenTo hten
    have hquotient : UnpackedFloat.div .binary64 (.zero .positive)
        (.finite .positive m₂ e₂ h₂) =
        .zero .positive := rfl
    rw [Float.ofScientific, dif_pos hfast, if_pos rfl, ← hquotient, ← hunpack]
    rfl
  · have hbits : (2 : ℤ) ^ Format.binary64.exponentBits = 2048 := rfl
    rw [ofScientific_of_slow hfast, UnpackedFloat.ofScientific]
    by_cases hzero : m = 0
    · rw [dif_pos hzero]
    · rw [dif_neg hzero, if_neg (by omega), if_pos (by omega)]

theorem isNegative_ofScientific (m : ℕ) {e : ℕ} (he : 0 < e) :
    isNegative (Float.ofScientific m true e) = false := by
  by_cases h : m = 0 ∨ 2048 + m.log2 < e
  · rw [ofScientific_of_zero_or_tiny he h]
    exact isNegative_packComponents 0 0 rfl
  · obtain ⟨m₁, m₂, e₁, e₂, h₁, h₂, -, hread⟩ :=
      exists_quotient (m := m) (by omega) he (by omega)
    rw [hread]
    exact isNegative_roundWithAccuracy _ _ _

theorem lt_of_tiny {m e : ℕ} (h : 2048 + m.log2 < e) : (m : ℚ) / 10 ^ e < 2 ^ (-1075 : ℤ) := by
  rw [div_lt_iff₀ (by positivity)]
  calc (m : ℚ) < 2 ^ (m.log2 + 1) := by exact_mod_cast Nat.lt_log2_self
    _ = 2 ^ (-1075 : ℤ) * 2 ^ (m.log2 + 1 + 1075) := by
        rw [mul_comm, ← two_zpow_eq (e := (m.log2 + 1 : ℕ)) (by push_cast; ring), zpow_natCast]
    _ ≤ 2 ^ (-1075 : ℤ) * 2 ^ e := by
        gcongr
        · exact one_le_two
        · omega
    _ ≤ 2 ^ (-1075 : ℤ) * 10 ^ e := by gcongr; norm_num

/-- A decimal with digits after its point is read as the double that is nearest to it. -/
theorem ofScientific_eq {x : Float} {m e : ℕ} (hfinite : x.isFinite = true)
    (hsign : isNegative x = false) (hpos : 0 < (Binary.ofFloat x).mantissa) (he : 0 < e)
    (h : (Binary.ofFloat x).Nearest (m / 10 ^ e)) : Float.ofScientific m true e = x := by
  obtain ⟨hb, hmost⟩ := Binary.canonical_ofFloat hfinite hpos
  have hbound := hb.le_of_nearest h
  have hm : 0 < m := by
    refine Nat.pos_of_ne_zero fun hzero => ?_
    rw [hzero, Nat.cast_zero, zero_div] at hbound
    exact absurd hbound (not_le.mpr (by positivity))
  have hsmall : e ≤ 2048 + m.log2 :=
    not_lt.mp fun htiny => absurd hbound (not_le.mpr (lt_of_tiny htiny))
  obtain ⟨m₁, m₂, e₁, e₂, h₁, h₂, hquotient, hread⟩ := exists_quotient hm he hsmall
  rw [hread, div_eq hb h hquotient, eq_pack_ofFloat hsign hb hmost]

end MiniPascal.Decimal
