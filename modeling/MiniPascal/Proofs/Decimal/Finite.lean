import MiniPascal.Proofs.Decimal.ReadBack

/-!
Doubles that are finite. A double with another sign is finite too, and so is every whole number
of 64 bits: it is far below the largest exponent, however it is rounded. The text of a finite
double has nothing in it but digits, a sign and a point.
-/

namespace MiniPascal.Decimal

open Float.Model Float.Model.UnpackedFloat

/-! ### Packed doubles -/

theorem isFinite_unpack {bits : BitVec 64} (h : @unpackExponent .binary64 bits ≠ -1#11) :
    (unpack .binary64 bits).isFinite = true := by
  rw [unpack_eq, if_neg h]
  by_cases hzero : @unpackExponent .binary64 bits = 0#11
  · rw [if_pos hzero]
    by_cases hmantissa : @unpackMantissa .binary64 bits = 0#52
    · rw [dif_pos hmantissa]
      rfl
    · rw [dif_neg hmantissa]
      rfl
  · rw [if_neg hzero]
    rfl

theorem isFinite_pack_zero (sign : Sign) :
    (Float.ofModel (.pack (.zero sign))).isFinite = true := by
  apply isFinite_unpack
  change @unpackExponent .binary64 (packComponents .binary64 sign 0 0) ≠ -1#11
  rw [unpackExponent_packComponents]
  decide

/-- Only an exponent that is too large makes a number infinite. -/
theorem isFinite_pack_finite (sign : Sign) {m : ℕ} {e : ℤ} (h : 0 < m) (he : e ≤ 971) :
    (Float.ofModel (.pack (.finite sign m e h))).isFinite = true := by
  apply isFinite_unpack
  change @unpackExponent .binary64 (pack .binary64 (.finite sign m e h)) ≠ -1#11
  rw [pack_finite, if_neg (by omega)]
  split
  · rw [unpackExponent_packComponents]
    intro hmax
    have hnat := congrArg BitVec.toNat hmax
    rw [BitVec.toNat_ofNat, Nat.mod_eq_of_lt (by omega)] at hnat
    simp at hnat
    omega
  · rw [unpackExponent_packComponents]
    decide

theorem exponent_le_of_unpack {bits : BitVec 64} {sign : Sign} {m : ℕ} {e : ℤ} {h : 0 < m}
    (hunpack : unpack .binary64 bits = .finite sign m e h) : e ≤ 971 := by
  have hlt : (@unpackExponent .binary64 bits).toNat < 2048 := BitVec.isLt _
  rw [unpack_eq] at hunpack
  by_cases hmax : @unpackExponent .binary64 bits = -1#11
  · -- The largest exponent is that of an infinity or of no number at all.
    rw [if_pos hmax] at hunpack
    by_cases hmantissa : @unpackMantissa .binary64 bits = 0#52
    · rw [if_pos hmantissa] at hunpack
      cases hunpack
    · rw [if_neg hmantissa] at hunpack
      cases hunpack
  rw [if_neg hmax] at hunpack
  by_cases hzero : @unpackExponent .binary64 bits = 0#11
  · rw [if_pos hzero] at hunpack
    by_cases hmantissa : @unpackMantissa .binary64 bits = 0#52
    · rw [dif_pos hmantissa] at hunpack
      cases hunpack
    · rw [dif_neg hmantissa] at hunpack
      cases hunpack
      rw [hzero]
      decide
  · rw [if_neg hzero] at hunpack
    cases hunpack
    have hne : (@unpackExponent .binary64 bits).toNat ≠ 2047 := fun heq =>
      hmax (BitVec.eq_of_toNat_eq heq)
    omega

theorem isFinite_neg {x : Float} (h : x.isFinite = true) : (-x).isFinite = true := by
  have hpacked : ∀ u : UnpackedFloat, x.toModel.unpack = u →
      (Float.ofModel (.pack u.neg)).isFinite = true := by
    intro u hu
    have hfinite : u.isFinite = true := hu ▸ h
    cases u with
    | infinity _ => cases hfinite
    | notANumber => cases hfinite
    | zero sign => exact isFinite_pack_zero _
    | finite sign m e hm => exact isFinite_pack_finite _ hm (exponent_le_of_unpack hu)
  exact hpacked _ rfl

/-! ### Whole numbers -/

theorem mantissa_shiftRight_le (em : ExtendedMantissa) (n : ℕ) :
    (em >>> n).mantissa ≤ em.mantissa := by
  induction n with
  | zero => exact le_rfl
  | succ n ih => exact (Nat.div_le_self _ 2).trans ih

theorem roundedMantissa_le (em : ExtendedMantissa) : em.roundedMantissa ≤ em.mantissa + 1 := by
  obtain ⟨m, round, sticky⟩ := em
  have hmod := Nat.mod_lt m two_pos
  cases round <;> cases sticky <;> simp [ExtendedMantissa.roundedMantissa,
    ExtendedMantissa.accuracy, Accuracy.roundToNearestEven]
  omega

/-- How far a mantissa is shifted. -/
theorem shiftToTargetExponent_snd (m : ℕ) (e : ℤ) (acc : Accuracy) :
    (shiftToTargetExponent .binary64 m e acc).2 = max e
      (max (m.log2 + 1 + e - 53) (-1074)) := by
  simp only [shiftToTargetExponent, shiftToExponent, targetExponent_binary64, totalExponent]
  omega

theorem shiftToTargetExponent_mantissa_le (m : ℕ) (e : ℤ) (acc : Accuracy) :
    (shiftToTargetExponent .binary64 m e acc).1.mantissa ≤ m :=
  (mantissa_shiftRight_le _ _).trans_eq (mantissa_ofMantissaAndAccuracy m acc)

theorem log2_le_of_lt {m k : ℕ} (h : m < 2 ^ (k + 1)) : m.log2 ≤ k := by
  by_cases hm : m = 0
  · rw [hm, Nat.log2_zero]
    exact k.zero_le
  · exact Nat.lt_succ_iff.mp ((Nat.log2_lt hm).mpr h)

/-- Rounding makes the exponent of a whole number, or of one with binary places, no larger than
its bits ask for. -/
theorem isFinite_roundWithAccuracy (sign : Sign) {m : ℕ} {e : ℤ} (acc : Accuracy)
    (hm : m < 2 ^ 128) (he : e ≤ 0) :
    (Float.ofModel (.pack (roundWithAccuracy .binary64 sign m e acc))).isFinite = true := by
  have hfirst := shiftToTargetExponent_snd m e acc
  have hmantissa := shiftToTargetExponent_mantissa_le m e acc
  have hrounded := roundedMantissa_le (shiftToTargetExponent .binary64 m e acc).1
  have hsecond := shiftToTargetExponent_snd
    (shiftToTargetExponent .binary64 m e acc).1.roundedMantissa
    (shiftToTargetExponent .binary64 m e acc).2 .exact
  have hlog : m.log2 ≤ 128 := log2_le_of_lt (by omega)
  have hlog' : (shiftToTargetExponent .binary64 m e acc).1.roundedMantissa.log2 ≤ 128 :=
    log2_le_of_lt (by omega)
  rw [roundWithAccuracy]
  dsimp only
  by_cases hzero : (shiftToTargetExponent .binary64
      (shiftToTargetExponent .binary64 m e acc).1.roundedMantissa
      (shiftToTargetExponent .binary64 m e acc).2 .exact).1.mantissa = 0
  · rw [dif_pos hzero]
    exact isFinite_pack_zero sign
  · rw [dif_neg hzero]
    exact isFinite_pack_finite sign _ (by omega)

/-- A product with the number one, as whole numbers are read. -/
theorem isFinite_mul {m k : ℕ} {e d : ℤ} (hm : 0 < m) (hk : 0 < k) (hlt : m * k < 2 ^ 128)
    (he : e + d ≤ 0) :
    (Float.ofModel (.pack (mul .binary64 (.finite .positive m e hm)
      (.finite .positive k d hk)))).isFinite = true :=
  isFinite_roundWithAccuracy _ .exact hlt he

theorem unpack_one : ∃ hpos, Float.exactlyRepresentablePowersOfTen[0].toModel.unpack =
    .finite .positive (2 ^ 52) (-52) hpos := ⟨by decide, rfl⟩

theorem isFinite_ofNat {n : ℕ} (hn : n < 2 ^ 64) : (Float.ofNat n).isFinite = true := by
  by_cases hfast : n < 2 ^ 53
  · obtain ⟨hpos, hone⟩ := unpack_one
    have hread : Float.ofNat n =
        .ofModel (.pack (mul .binary64 n.toUInt64.toFloat.toModel.unpack
          (.finite .positive (2 ^ 52) (-52) hpos))) := by
      rw [← hone]
      exact (dif_pos ⟨hfast, by decide⟩).trans rfl
    rw [hread]
    rcases Nat.eq_zero_or_pos n with rfl | hn₀
    · exact isFinite_pack_zero _
    · have hb := Binary.canonical_ofNat hn₀ hfast
      rw [unpack_toFloat hn₀ hfast]
      refine isFinite_mul hb.pos hpos ?_ ?_
      · have hlt := hb.lt
        omega
      · simp only [Binary.ofNat]
        omega
  · have hslow : ¬(n < 2 ^ 53 ∧ 0 ≤ 22) := fun h => hfast h.1
    have hn₀ : 0 < n := by omega
    have hread : Float.ofNat n = .ofModel (.pack (mul .binary64
        (.finite .positive (n <<< 53) (-53) (by rw [Nat.shiftLeft_eq]; omega))
        (.finite .positive 1 0 one_pos))) := by
      have hbits : (2 : ℤ) ^ Format.binary64.exponentBits = 2048 := rfl
      have hscientific : Float.ofNat n =
          .ofModel (.pack (UnpackedFloat.ofScientific .binary64 n 0)) :=
        (dif_neg hslow).trans rfl
      rw [hscientific, UnpackedFloat.ofScientific, dif_neg hn₀.ne', if_neg (by omega),
        if_neg (by omega), if_pos le_rfl]
      rfl
    rw [hread]
    refine isFinite_mul _ one_pos ?_ (by decide)
    rw [Nat.shiftLeft_eq]
    omega

theorem isFinite_ofInt (n : Int64) : (Float.ofInt n.toInt).isFinite = true := by
  have hlt := n.toInt_lt
  have hle := n.le_toInt
  cases h : n.toInt with
  | ofNat k =>
      rw [h, Int.ofNat_eq_natCast] at hlt
      exact isFinite_ofNat (by omega)
  | negSucc k => exact isFinite_neg (isFinite_ofNat (by omega))

/-! ### Text -/

theorem Shortest.isDigit_ofNat (n : ℕ) (place : ℤ) :
    ∀ c ∈ (Shortest.ofNat n place).digits, c.isDigit = true := by
  intro c hc
  have hmem : c ∈ Nat.toDigits 10 n :=
    List.mem_reverse.mp ((List.dropWhile_suffix _).subset (List.mem_reverse.mp hc))
  exact Nat.isDigit_of_mem_toDigits (by decide) (by decide) hmem

theorem Binary.isDigit_shortest (b : Binary) (tie : Tie) :
    ∀ c ∈ (b.shortest tie).digits, c.isDigit = true := by
  simp only [shortest]
  split
  next found hfound =>
    obtain ⟨place, -, hplace⟩ := List.exists_of_findSome?_eq_some hfound
    obtain ⟨n, -, rfl⟩ := Option.map_eq_some_iff.mp hplace
    exact Shortest.isDigit_ofNat n place
  next => simp

theorem Shortest.mem_positional {d : Shortest}
    (hd : ∀ c ∈ d.digits, c.isDigit = true) {c : Char} (hc : c ∈ d.positional) :
    c.isDigit = true ∨ c = '.' := by
  simp only [positional] at hc
  split at hc
  · rcases List.mem_append.mp hc with hc | hc
    · exact .inl (hd c hc)
    · exact .inl (isDigit_of_mem_zeros hc)
  · split at hc
    · rcases List.mem_append.mp hc with hc | hc
      · exact .inl (hd c (List.mem_of_mem_take hc))
      · rcases List.mem_cons.mp hc with hc | hc
        · exact .inr hc
        · exact .inl (hd c (List.mem_of_mem_drop hc))
    · rcases List.mem_append.mp hc with hc | hc
      · rcases List.mem_cons.mp hc with rfl | hc
        · exact .inl rfl
        · rcases List.mem_cons.mp hc with hc | hc
          · exact .inr hc
          · exact .inl (isDigit_of_mem_zeros hc)
      · exact .inl (hd c hc)

theorem mem_plain {x : Float} (h : x.isFinite = true) {c : Char} (hc : c ∈ (plain x).toList) :
    c.isDigit = true ∨ c = '-' ∨ c = '.' := by
  obtain ⟨hnan, hinf⟩ := isNaN_of_isFinite h
  simp only [plain, hnan, hinf, Bool.false_eq_true, if_false, signed,
    String.toList_ofList] at hc
  have hmagnitude : ∀ c' ∈ if (Binary.ofFloat x).mantissa = 0 then ['0']
      else ((Binary.ofFloat x).shortest .up).positional, c'.isDigit = true ∨ c' = '.' := by
    intro c' hc'
    split at hc'
    · rw [List.mem_singleton.mp hc']
      exact .inl rfl
    · exact Shortest.mem_positional (Binary.isDigit_shortest _ _) hc'
  split at hc
  · rcases List.mem_cons.mp hc with hc | hc
    · exact .inr (.inl hc)
    · exact (hmagnitude c hc).imp_right .inr
  · exact (hmagnitude c hc).imp_right .inr

end MiniPascal.Decimal
