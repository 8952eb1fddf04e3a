import Mathlib
import Scheme.Number.Numeral
/-!
# Doubles and their bits

A finite double other than zero is a sign, a significand and an exponent in canonical form. The
bits of a double determine these, and are determined by them.
-/

namespace Scheme.Number

open Float.Model Float.Model.UnpackedFloat

/-! ## Words -/

theorem toNat_unpackMantissa (b : BitVec 64) :
    (@unpackMantissa Format.binary64 b).toNat = b.toNat % 2 ^ 52 := by
  simp [unpackMantissa]

theorem toNat_unpackExponent (b : BitVec 64) :
    (@unpackExponent Format.binary64 b).toNat = b.toNat / 2 ^ 52 % 2 ^ 11 := by
  simp [unpackExponent, Nat.shiftRight_eq_div_pow]

theorem toNat_unpackSign (b : BitVec 64) :
    (@unpackSign Format.binary64 b).toNat = b.toNat / 2 ^ 63 := by
  have hb := b.isLt
  simp only [unpackSign, BitVec.toNat_cast, BitVec.extractLsb_toNat, Nat.shiftRight_eq_div_pow]
  omega

theorem toNat_packComponents (s : Sign) (field : BitVec 11) (fraction : BitVec 52) :
    (packComponents Format.binary64 s field fraction).toNat =
      s.toBitVec.toNat * 2 ^ 63 + field.toNat * 2 ^ 52 + fraction.toNat := by
  simp only [packComponents, BitVec.toNat_append, Nat.shiftLeft_eq]
  rw [Nat.mul_comm _ (2 ^ 11), ← Nat.two_pow_add_eq_or_of_lt field.isLt, Nat.mul_comm _ (2 ^ 52),
    ← Nat.two_pow_add_eq_or_of_lt fraction.isLt]
  omega

/-- The sign of a number that is negative or not. -/
def signOf (negative : Bool) : Sign :=
  if negative then .negative else .positive

theorem toNat_signOf (negative : Bool) : (signOf negative).toBitVec.toNat = negative.toNat := by
  cases negative <;> rfl

theorem ofBitVec_unpackSign (b : BitVec 64) :
    Sign.ofBitVec (@unpackSign Format.binary64 b) = signOf (b.toNat / 2 ^ 63 != 0) := by
  have hsign := toNat_unpackSign b
  by_cases hb : b.toNat / 2 ^ 63 = 0
  · have hzero : @unpackSign Format.binary64 b = 0#1 := BitVec.eq_of_toNat_eq (hsign.trans hb)
    rw [hzero, hb]
    rfl
  · have hone : @unpackSign Format.binary64 b ≠ 0#1 := by
      intro hzero
      rw [hzero] at hsign
      exact hb hsign.symm
    rw [Sign.ofBitVec, if_neg hone, signOf, if_pos (bne_iff_ne.2 hb)]

/-! ## Canonical form -/

/-- A significand and an exponent that some double has. -/
structure Canonical (m : Nat) (e : Int) : Prop where
  pos : 0 < m
  fits : m < 2 ^ 53
  least : -1074 ≤ e
  most : e ≤ 971
  normal : 2 ^ 52 ≤ m ∨ e = -1074

/-- The bits of a double below the sign, as a number. -/
def magnitudeBits (m : Nat) (e : Int) : Nat :=
  if 2 ^ 52 ≤ m then (e + 1075).toNat * 2 ^ 52 + (m - 2 ^ 52) else m

theorem toNat_pack {m : Nat} {e : Int} (hc : Canonical m e) (negative : Bool) :
    (UnpackedFloat.pack Format.binary64 (.finite (signOf negative) m e hc.pos)).toNat =
      negative.toNat * 2 ^ 63 + magnitudeBits m e := by
  obtain ⟨hpos, hfits, hleast, hmost, hnormal⟩ := hc
  have hbits : Format.mantissaBits Format.binary64 = 53 := rfl
  have hbias : (e + (Format.exponentBias Format.binary64 : Int) + (52 : Nat)).toNat =
      (e + 1075).toNat := by
    have hbias : (Format.exponentBias Format.binary64 : Int) = 1023 := rfl
    omega
  unfold UnpackedFloat.pack
  simp only [hbias, hbits]
  rw [if_neg (by omega)]
  by_cases hlarge : 2 ^ 52 ≤ m
  · have hlog : m.log2 = 52 := (Nat.log2_eq_iff (Nat.ne_of_gt hpos)).2 ⟨hlarge, hfits⟩
    rw [if_pos (by omega), toNat_packComponents, toNat_signOf, BitVec.toNat_ofNat,
      BitVec.toNat_ofNat, magnitudeBits, if_pos hlarge]
    omega
  · have hlog : m.log2 < 52 := (Nat.log2_lt (Nat.ne_of_gt hpos)).2 (by omega)
    rw [if_neg (by omega), toNat_packComponents, toNat_signOf, BitVec.toNat_ofNat,
      BitVec.toNat_ofNat, magnitudeBits, if_neg hlarge]
    omega

theorem unpackExponent_eq_zero_iff (b : BitVec 64) :
    @unpackExponent Format.binary64 b = 0#11 ↔ b.toNat / 2 ^ 52 % 2 ^ 11 = 0 := by
  rw [← toNat_unpackExponent]
  exact ⟨fun h => by rw [h]; rfl, fun h => BitVec.eq_of_toNat_eq h⟩

theorem unpackExponent_eq_max_iff (b : BitVec 64) :
    @unpackExponent Format.binary64 b = -1#11 ↔ b.toNat / 2 ^ 52 % 2 ^ 11 = 2047 := by
  rw [← toNat_unpackExponent]
  exact ⟨fun h => by rw [h]; rfl, fun h => BitVec.eq_of_toNat_eq h⟩

theorem unpackMantissa_eq_zero_iff (b : BitVec 64) :
    @unpackMantissa Format.binary64 b = 0#52 ↔ b.toNat % 2 ^ 52 = 0 := by
  rw [← toNat_unpackMantissa]
  exact ⟨fun h => by rw [h]; rfl, fun h => BitVec.eq_of_toNat_eq h⟩

theorem unpack_normal {b : BitVec 64} (hfield : b.toNat / 2 ^ 52 % 2 ^ 11 ≠ 0)
    (hfinite : b.toNat / 2 ^ 52 % 2 ^ 11 ≠ 2047) :
    UnpackedFloat.unpack Format.binary64 b =
      .finite (signOf (b.toNat / 2 ^ 63 != 0)) (2 ^ 52 + b.toNat % 2 ^ 52)
        ((b.toNat / 2 ^ 52 % 2 ^ 11 : Nat) - 1075) (by omega) := by
  have hmantissa : (1#1 ++ @unpackMantissa Format.binary64 b).toNat =
      2 ^ 52 + b.toNat % 2 ^ 52 := by
    rw [BitVec.toNat_append, Nat.shiftLeft_eq, Nat.mul_comm,
      ← Nat.two_pow_add_eq_or_of_lt (@unpackMantissa Format.binary64 b).isLt, toNat_unpackMantissa]
    rfl
  unfold UnpackedFloat.unpack
  simp only
  rw [if_neg (mt (unpackExponent_eq_max_iff b).1 hfinite),
    if_neg (mt (unpackExponent_eq_zero_iff b).1 hfield)]
  simp only [UnpackedFloat.finite.injEq, ofBitVec_unpackSign, hmantissa, toNat_unpackExponent,
    true_and]
  rfl

theorem unpack_subnormal {b : BitVec 64} (hfield : b.toNat / 2 ^ 52 % 2 ^ 11 = 0)
    (hfraction : b.toNat % 2 ^ 52 ≠ 0) :
    UnpackedFloat.unpack Format.binary64 b =
      .finite (signOf (b.toNat / 2 ^ 63 != 0)) (b.toNat % 2 ^ 52) (-1074) (by omega) := by
  unfold UnpackedFloat.unpack
  simp only
  rw [if_neg (mt (unpackExponent_eq_max_iff b).1 (by omega)),
    if_pos ((unpackExponent_eq_zero_iff b).2 hfield),
    dif_neg (mt (unpackMantissa_eq_zero_iff b).1 hfraction)]
  simp only [UnpackedFloat.finite.injEq, ofBitVec_unpackSign, toNat_unpackExponent,
    toNat_unpackMantissa, hfield, true_and]
  rfl

theorem unpack_zero {b : BitVec 64} (hfield : b.toNat / 2 ^ 52 % 2 ^ 11 = 0)
    (hfraction : b.toNat % 2 ^ 52 = 0) :
    UnpackedFloat.unpack Format.binary64 b = .zero (signOf (b.toNat / 2 ^ 63 != 0)) := by
  unfold UnpackedFloat.unpack
  simp only
  rw [if_neg (mt (unpackExponent_eq_max_iff b).1 (by omega)),
    if_pos ((unpackExponent_eq_zero_iff b).2 hfield),
    dif_pos ((unpackMantissa_eq_zero_iff b).2 hfraction), ofBitVec_unpackSign]

theorem isFinite_unpack {b : BitVec 64}
    (hfinite : (UnpackedFloat.unpack Format.binary64 b).isFinite = true) :
    b.toNat / 2 ^ 52 % 2 ^ 11 ≠ 2047 := by
  intro hmax
  unfold UnpackedFloat.unpack at hfinite
  simp only at hfinite
  rw [if_pos ((unpackExponent_eq_max_iff b).2 hmax)] at hfinite
  split at hfinite <;> cases hfinite

/-- What has been packed is there again. -/
theorem unpack_pack {m : Nat} {e : Int} (hc : Canonical m e) (negative : Bool) :
    (Float.Model.pack (.finite (signOf negative) m e hc.pos)).unpack =
      .finite (signOf negative) m e hc.pos := by
  have hword := toNat_pack hc negative
  obtain ⟨hpos, hfits, hleast, hmost, hnormal⟩ := hc
  -- From here on the word is nothing but its three fields.
  change UnpackedFloat.unpack Format.binary64
    (UnpackedFloat.pack Format.binary64 (.finite (signOf negative) m e hpos)) = _
  generalize UnpackedFloat.pack Format.binary64 (.finite (signOf negative) m e hpos) = b at hword
  have hmagnitude : magnitudeBits m e < 2 ^ 63 := by
    unfold magnitudeBits
    split <;> omega
  have hsign : (b.toNat / 2 ^ 63 != 0) = negative := by
    have htop : b.toNat / 2 ^ 63 = negative.toNat := by omega
    rw [htop]
    cases negative <;> rfl
  by_cases hlarge : 2 ^ 52 ≤ m
  · rw [magnitudeBits, if_pos hlarge] at hword
    have hnegative := negative.toNat_le
    rw [unpack_normal (by omega) (by omega)]
    simp only [UnpackedFloat.finite.injEq, hsign, true_and]
    omega
  · rw [magnitudeBits, if_neg hlarge] at hword
    have hnegative := negative.toNat_le
    rw [unpack_subnormal (by omega) (by omega)]
    simp only [UnpackedFloat.finite.injEq, hsign, true_and]
    omega

/-! ## Doubles -/

/-- The double with a sign, a significand and an exponent. -/
def double (negative : Bool) {m : Nat} {e : Int} (hc : Canonical m e) : Float :=
  .ofModel (.pack (.finite (signOf negative) m e hc.pos))

theorem toNat_toBits_double (negative : Bool) {m : Nat} {e : Int} (hc : Canonical m e) :
    (double negative hc).toBits.toNat = negative.toNat * 2 ^ 63 + magnitudeBits m e :=
  toNat_pack hc negative

theorem eq_of_toBits_eq {x y : Float} (h : x.toBits.toNat = y.toBits.toNat) : x = y :=
  Float.toBits_inj.1 (UInt64.toNat_inj.1 h)

/-- The fields of a double, as numbers. -/
theorem Binary.ofFloat_eq (x : Float) :
    Binary.ofFloat x =
      if x.toBits.toNat / 2 ^ 52 % 2 ^ 11 = 2047 then
        if x.toBits.toNat % 2 ^ 52 = 0 then .infinite (x.toBits.toNat / 2 ^ 63 != 0) else .nan
      else if x.toBits.toNat / 2 ^ 52 % 2 ^ 11 = 0 then
        .finite (x.toBits.toNat / 2 ^ 63 != 0) (x.toBits.toNat % 2 ^ 52) (-1074)
      else
        .finite (x.toBits.toNat / 2 ^ 63 != 0) (2 ^ 52 + x.toBits.toNat % 2 ^ 52)
          ((x.toBits.toNat / 2 ^ 52 % 2 ^ 11 : Nat) - 1075) := by
  have hfield : (x.toBits >>> 52 &&& 0x7ff).toNat = x.toBits.toNat / 2 ^ 52 % 2 ^ 11 := by
    rw [UInt64.toNat_and, UInt64.toNat_shiftRight, Nat.shiftRight_eq_div_pow]
    exact Nat.and_two_pow_sub_one_eq_mod _ 11
  have hfraction : (x.toBits &&& 0xfffffffffffff).toNat = x.toBits.toNat % 2 ^ 52 := by
    rw [UInt64.toNat_and]
    exact Nat.and_two_pow_sub_one_eq_mod _ 52
  have htop : (x.toBits >>> 63).toNat = x.toBits.toNat / 2 ^ 63 := by
    rw [UInt64.toNat_shiftRight, Nat.shiftRight_eq_div_pow]
    rfl
  have hnegative : (x.toBits >>> 63 != 0) = (x.toBits.toNat / 2 ^ 63 != 0) := by
    rw [← htop]
    by_cases hzero : x.toBits >>> 63 = 0
    · rw [hzero]
      rfl
    · have hpositive : (x.toBits >>> 63).toNat ≠ 0 := fun h => hzero (UInt64.toNat_inj.1 h)
      rw [bne_iff_ne.2 hzero, bne_iff_ne.2 hpositive]
  unfold Binary.ofFloat
  simp only [hfield, hfraction, hnegative, Nat.shiftLeft_eq, Nat.one_mul]

theorem cases_of_isFinite {x : Float} (hx : x.isFinite = true) :
    (∃ negative, Binary.ofFloat x = .finite negative 0 (-1074) ∧
      x.toModel.unpack = .zero (signOf negative)) ∨
    ∃ negative m e, ∃ hc : Canonical m e,
      Binary.ofFloat x = .finite negative m e ∧ x = double negative hc := by
  have hfinite : x.toBits.toNat / 2 ^ 52 % 2 ^ 11 ≠ 2047 := isFinite_unpack hx
  have hbound := x.toBits.toNat_lt
  have hsign : x.toBits.toNat / 2 ^ 63 = (x.toBits.toNat / 2 ^ 63 != 0).toNat := by
    have hone : x.toBits.toNat / 2 ^ 63 ≤ 1 := by omega
    rcases Nat.le_one_iff_eq_zero_or_eq_one.1 hone with h | h <;> rw [h] <;> rfl
  rw [Binary.ofFloat_eq, if_neg hfinite]
  by_cases hfield : x.toBits.toNat / 2 ^ 52 % 2 ^ 11 = 0
  · rw [if_pos hfield]
    by_cases hfraction : x.toBits.toNat % 2 ^ 52 = 0
    · rw [hfraction]
      exact Or.inl ⟨_, rfl, unpack_zero hfield hfraction⟩
    · have hc : Canonical (x.toBits.toNat % 2 ^ 52) (-1074) :=
        ⟨by omega, by omega, by omega, by omega, Or.inr rfl⟩
      refine Or.inr ⟨_, _, _, hc, rfl, eq_of_toBits_eq ?_⟩
      rw [toNat_toBits_double, magnitudeBits, if_neg (by omega), ← hsign]
      omega
  · rw [if_neg hfield]
    have hc : Canonical (2 ^ 52 + x.toBits.toNat % 2 ^ 52)
        ((x.toBits.toNat / 2 ^ 52 % 2 ^ 11 : Nat) - 1075) :=
      ⟨by omega, by omega, by omega, by omega, Or.inl (by omega)⟩
    refine Or.inr ⟨_, _, _, hc, rfl, eq_of_toBits_eq ?_⟩
    rw [toNat_toBits_double, magnitudeBits, if_pos (by omega), ← hsign]
    omega

theorem neg_double {m : Nat} {e : Int} (hc : Canonical m e) :
    -double false hc = double true hc := by
  change Float.ofModel
    (.pack (Float.Model.unpack (.pack (.finite (signOf false) m e hc.pos))).neg) = _
  rw [unpack_pack hc false]
  rfl

end Scheme.Number
