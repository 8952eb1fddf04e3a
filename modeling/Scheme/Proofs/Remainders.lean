import Mathlib
import Scheme.Interpreter
import Scheme.Proofs.Traps
/-!
# Remainders

Both remainders of 64-bit integers are smaller than the divisor and differ from the dividend by a
multiple of it; one has the sign of the dividend, the other that of the divisor. The latter is the
former, or the sum of the former and the divisor where their signs differ, and such a sum is
between the two, so that it does not wrap. This holds in the whole range, since the remainder is
defined also where the quotient is not. The primitives take these remainders of whole parts, and
let no divisor pass, NaN apart, whose whole part is zero.
-/

namespace Scheme.Number

/-- What is left of `a` when multiples of `b` are taken away: it is smaller than `b`, and has the
sign of `s` unless it is zero. -/
structure IsRemainder (a b s r : Int) : Prop where
  small : |r| < |b|
  dvd : b ∣ a - r
  sign : r = 0 ∨ r.sign = s.sign

variable {a b : Int64}

theorem toInt_remainder (a b : Int64) : (remainder a b).toInt = a.toInt.tmod b.toInt :=
  Int64.toInt_mod a b

/-! ## The sign of the dividend -/

/-- A truncated remainder that is not zero has the sign of the dividend. -/
theorem sign_tmod (m n : Int) : m.tmod n = 0 ∨ (m.tmod n).sign = m.sign := by
  rcases lt_trichotomy m 0 with hneg | rfl | hpos
  · have hle : m.tmod n ≤ 0 := by
      have hnonneg := Int.tmod_nonneg n (show 0 ≤ -m by omega)
      rw [Int.neg_tmod] at hnonneg
      omega
    rcases Int.le_iff_lt_or_eq.1 hle with hlt | hzero
    · exact Or.inr (by rw [Int.sign_eq_neg_one_of_neg hlt, Int.sign_eq_neg_one_of_neg hneg])
    · exact Or.inl hzero
  · exact Or.inl (Int.zero_tmod n)
  · rcases Int.le_iff_lt_or_eq.1 (Int.tmod_nonneg n hpos.le) with hlt | hzero
    · exact Or.inr (by rw [Int.sign_eq_one_of_pos hlt, Int.sign_eq_one_of_pos hpos])
    · exact Or.inl hzero.symm

theorem isRemainder_tmod (m : Int) {n : Int} (hn : n ≠ 0) : IsRemainder m n m (m.tmod n) where
  small := by
    have hlt : m.natAbs % n.natAbs < n.natAbs := Nat.mod_lt _ (Int.natAbs_pos.2 hn)
    rw [Int.abs_eq_natAbs, Int.abs_eq_natAbs, Int.natAbs_tmod]
    exact Int.ofNat_lt.2 hlt
  dvd := ⟨m.tdiv n, by have := Int.mul_tdiv_add_tmod m n; omega⟩
  sign := sign_tmod m n

/-! ## The sign of the divisor -/

/-- Two numbers of which one is negative and the other is not. -/
def Opposite (m n : Int) : Prop :=
  m < 0 ∧ 0 ≤ n ∨ 0 < m ∧ n < 0

/-- Where the modulus is corrected, the remainder and the divisor are on both sides of zero. -/
theorem opposite_iff (m n : Int64) :
    (m ≠ 0 ∧ (decide (m < 0) != decide (n < 0)) = true) ↔ Opposite m.toInt n.toInt := by
  have hzero : m = 0 ↔ m.toInt = 0 := ⟨fun h => h ▸ rfl, fun h => Int64.toInt_inj.1 h⟩
  simp only [Opposite, ne_eq, hzero, Int64.lt_iff_toInt_lt, Int64.toInt_zero, bne_iff_ne,
    decide_eq_decide]
  omega

/-- A sum of numbers on both sides of zero is in range. -/
theorem Opposite.toInt_add (h : Opposite a.toInt b.toInt) :
    (a + b).toInt = a.toInt + b.toInt := by
  have hlow := a.le_toInt
  have hhigh := a.toInt_lt
  have hlow' := b.le_toInt
  have hhigh' := b.toInt_lt
  rw [Int64.toInt_add]
  unfold Opposite at h
  exact Int.bmod_eq_of_le (by omega) (by omega)

/-- A remainder on the other side of zero than the divisor is corrected by adding the divisor. -/
theorem IsRemainder.corrected {m n s r : Int} (h : IsRemainder m n s r) (hr : Opposite r n) :
    IsRemainder m n n (r + n) := by
  obtain ⟨hsmall, ⟨k, hk⟩, -⟩ := h
  have hsum : n < 0 ∧ n < r + n ∧ r + n < 0 ∨ 0 < n ∧ 0 < r + n ∧ r + n < n := by
    unfold Opposite at hr
    rcases abs_cases r with hr' | hr' <;> rcases abs_cases n with hn' | hn' <;> omega
  refine ⟨?_, ⟨k - 1, by rw [mul_sub, mul_one, ← hk]; omega⟩, Or.inr ?_⟩
  · rcases hsum with ⟨hn, hlow, hhigh⟩ | ⟨hn, hlow, hhigh⟩
    · rw [abs_of_neg hhigh, abs_of_neg hn]
      omega
    · rw [abs_of_pos hlow, abs_of_pos hn]
      exact hhigh
  · rcases hsum with ⟨hn, hlow, hhigh⟩ | ⟨hn, hlow, hhigh⟩
    · rw [Int.sign_eq_neg_one_of_neg hhigh, Int.sign_eq_neg_one_of_neg hn]
    · rw [Int.sign_eq_one_of_pos hlow, Int.sign_eq_one_of_pos hn]

/-- A remainder that is not on the other side of zero has the sign of the divisor as it is. -/
theorem IsRemainder.uncorrected {m n s r : Int} (h : IsRemainder m n s r) (hn : n ≠ 0)
    (hr : ¬ Opposite r n) : IsRemainder m n n r := by
  refine ⟨h.small, h.dvd, ?_⟩
  unfold Opposite at hr
  rcases lt_trichotomy r 0 with hneg | hzero | hpos
  · exact Or.inr (by
      rw [Int.sign_eq_neg_one_of_neg hneg, Int.sign_eq_neg_one_of_neg (show n < 0 by omega)])
  · exact Or.inl hzero
  · exact Or.inr (by
      rw [Int.sign_eq_one_of_pos hpos, Int.sign_eq_one_of_pos (show 0 < n by omega)])

end Scheme.Number

namespace Scheme.NumberOperation

open Number

/-- A remainder of two numbers that a division takes, unless the divisor is NaN. -/
theorem remaining_eq {x y : Value} {a b : Flonum} {w w' : World}
    (h : division x y w = .value (a, b) w') (hb : toInt64 b.toFloat ≠ 0)
    (rule : Int64 → Int64 → Int64) : remaining rule x y w =
      .value (.number (.ofInt64 (rule (toInt64 a.toFloat) (toInt64 b.toFloat)))) w' := by
  simp only [remaining, bind, Action.bind, h, if_neg hb]
  rfl

end Scheme.NumberOperation

namespace Scheme.Number

/-- The remainders of all 64-bit integers by all others than zero. Their laws are those of division;
where the divisor is added to correct a remainder, the sum is exact. Of two numbers that a division
takes, the divisor has a whole part other than zero if it is not NaN, and the primitives answer the
remainders of the whole parts. -/
theorem remainders_obey_division :
    (∀ a b : Int64, b ≠ 0 →
      IsRemainder a.toInt b.toInt a.toInt (remainder a b).toInt ∧
      IsRemainder a.toInt b.toInt b.toInt (modulo a b).toInt ∧
      (modulo a b = remainder a b ∨ modulo a b = remainder a b + b ∧
        (remainder a b + b).toInt = (remainder a b).toInt + b.toInt)) ∧
    ∀ (x y : Value) (a b : Flonum) (w w' : World),
      NumberOperation.division x y w = .value (a, b) w' → b.isNaN = false →
      toInt64 b.toFloat ≠ 0 ∧
      NumberOperation.remainder.perform [x, y] w =
        .value (.number (.ofInt64 (remainder (toInt64 a.toFloat) (toInt64 b.toFloat)))) w' ∧
      NumberOperation.modulo.perform [x, y] w =
        .value (.number (.ofInt64 (modulo (toInt64 a.toFloat) (toInt64 b.toFloat)))) w' := by
  constructor
  · intro a b hb
    have hb' : b.toInt ≠ 0 := fun h => hb (Int64.toInt_inj.1 h)
    have hleft : IsRemainder a.toInt b.toInt a.toInt (remainder a b).toInt :=
      toInt_remainder a b ▸ isRemainder_tmod a.toInt hb'
    by_cases hopposite : Opposite (remainder a b).toInt b.toInt
    · have hmodulo : modulo a b = remainder a b + b :=
        if_pos ((opposite_iff (remainder a b) b).2 hopposite)
      have hsum := hopposite.toInt_add
      refine ⟨hleft, ?_, Or.inr ⟨hmodulo, hsum⟩⟩
      rw [hmodulo, hsum]
      exact hleft.corrected hopposite
    · have hmodulo : modulo a b = remainder a b :=
        if_neg (mt (opposite_iff (remainder a b) b).1 hopposite)
      refine ⟨hleft, ?_, Or.inl hmodulo⟩
      rw [hmodulo]
      exact hleft.uncorrected hb' hopposite
  · intro x y a b w w' hdivision hnan
    have htruncate := (NumberOperation.division_eq_value.1 hdivision).2.2.1
    have hb := toInt64_ne_zero hnan htruncate
    exact ⟨hb, NumberOperation.remaining_eq hdivision hb remainder,
      NumberOperation.remaining_eq hdivision hb modulo⟩

/-- The smallest integer leaves nothing when it is divided by minus one, although the quotient is
out of range. Of two and a half only the two counts. -/
theorem remainders_of_minimum :
    IsRemainder (-2 ^ 63) (-1) (-2 ^ 63) (remainder Int64.minValue (-1)).toInt ∧
    IsRemainder (-2 ^ 63) (-1) (-1) (modulo Int64.minValue (-1)).toInt ∧
    NumberOperation.modulo.perform [.number (.float (-7.5)), .number (.float 2.5)]
      (World.bare World.nowhere) = .value (.number (.ofInt64 1)) (World.bare World.nowhere) := by
  obtain ⟨hlaws, hprimitives⟩ := remainders_obey_division
  obtain ⟨hremainder, hmodulo, -⟩ := hlaws Int64.minValue (-1) (by decide)
  have hdivision : NumberOperation.division (.number (.float (-7.5))) (.number (.float 2.5))
      (World.bare World.nowhere) = .value (.float (-7.5), .float 2.5) (World.bare World.nowhere) :=
    NumberOperation.division_eq_value.2 ⟨rfl, rfl, by decide +kernel, rfl⟩
  obtain ⟨-, -, hvalue⟩ := hprimitives _ _ _ _ _ _ hdivision (by decide +kernel)
  refine ⟨hremainder, hmodulo, hvalue.trans ?_⟩
  have hwhole : modulo (toInt64 (-7.5)) (toInt64 2.5) = 1 := by decide +kernel
  rw [Flonum.toFloat, Flonum.toFloat, hwhole]

end Scheme.Number
