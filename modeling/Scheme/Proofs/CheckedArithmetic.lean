import Scheme.Number.Flonum
import Scheme.Number.Integer
import Scheme.Proofs.Doubles
/-!
# Arithmetic that stays in range

Remainders and quotients of 64-bit integers are undefined for the divisor zero and for the
smallest integer divided by minus one, and a sum is undefined outside the range. Here are the
greatest common divisor, the least common multiple and the modulus in terms of such checked
operations. Euclid's algorithm never comes to a remainder that is undefined, although the magnitude
of the smallest integer is negative; the correction of a modulus never leaves the range; and the
least common multiple is undefined exactly where `lcm?` says so. The whole part of a number is zero,
although its truncation is not, exactly for NaN.
-/

namespace Scheme.Number

open Float.Model Float.Model.UnpackedFloat

/-! ## Divisors -/

theorem isNaN_unpack_iff (b : BitVec 64) :
    (UnpackedFloat.unpack Format.binary64 b).isNaN = true ↔
      b.toNat / 2 ^ 52 % 2 ^ 11 = 2047 ∧ b.toNat % 2 ^ 52 ≠ 0 := by
  unfold UnpackedFloat.unpack
  simp only
  by_cases hmax : b.toNat / 2 ^ 52 % 2 ^ 11 = 2047
  · rw [if_pos ((unpackExponent_eq_max_iff b).2 hmax)]
    by_cases hzero : b.toNat % 2 ^ 52 = 0
    · rw [if_pos ((unpackMantissa_eq_zero_iff b).2 hzero)]
      exact ⟨(nomatch ·), fun h => absurd hzero h.2⟩
    · rw [if_neg (fun h => hzero ((unpackMantissa_eq_zero_iff b).1 h))]
      exact ⟨fun _ => ⟨hmax, hzero⟩, fun _ => rfl⟩
  · rw [if_neg (fun h => hmax ((unpackExponent_eq_max_iff b).1 h))]
    refine ⟨fun h => ?_, fun h => absurd h.1 hmax⟩
    split at h
    · split at h <;> cases h
    · cases h

theorem ofFloat_eq_nan_iff (x : Float) : Binary.ofFloat x = .nan ↔ x.isNaN = true := by
  have hbits : x.isNaN = true ↔
      x.toBits.toNat / 2 ^ 52 % 2 ^ 11 = 2047 ∧ x.toBits.toNat % 2 ^ 52 ≠ 0 :=
    isNaN_unpack_iff x.toBits.toBitVec
  rw [hbits, Binary.ofFloat_eq]
  split_ifs with hmax hzero hfield <;> simp_all

theorem ofIntClamp_eq_zero {n : Int} (h : Int64.ofIntClamp n = 0) : n = 0 := by
  by_cases hlow : Int64.minValue.toInt ≤ n
  · by_cases hhigh : n ≤ Int64.maxValue.toInt
    · rw [← Int64.toInt_ofIntClamp hlow hhigh, h]
      rfl
    · rw [Int64.ofIntClamp, dif_pos hlow, dif_neg hhigh] at h
      cases h
  · rw [Int64.ofIntClamp, dif_neg hlow] at h
    cases h

/-- The significand of a number without a fraction is not zero. -/
theorem significand_pos {x : Float} {negative : Bool} {m k : Nat}
    (hx : Binary.ofFloat x = .finite negative m (.ofNat k)) : 0 < m := by
  rw [Binary.ofFloat_eq] at hx
  split_ifs at hx with hmax hzero hfield
  · injection hx with _ _ he
    cases he
  · injection hx with _ hm _
    omega

/-- A number that is no NaN has a whole part other than zero, if its truncation is not zero. -/
theorem toInt64_ne_zero {x : Float} (hnan : x.isNaN = false)
    (htruncate : (truncate x == 0) = false) : toInt64 x ≠ 0 := by
  intro hzero
  unfold toInt64 at hzero
  cases hx : Binary.ofFloat x with
  | nan =>
      rw [(ofFloat_eq_nan_iff x).1 hx] at hnan
      cases hnan
  | infinite negative =>
      rw [hx] at hzero
      cases negative <;> revert hzero <;> decide
  | finite negative m e =>
      rw [hx] at hzero
      have hwhole : wholePart m e = 0 := by
        have hsigned := ofIntClamp_eq_zero hzero
        unfold signed at hsigned
        split at hsigned <;> omega
      cases e with
      | ofNat k =>
          have hpos := significand_pos hx
          rw [wholePart, Nat.shiftLeft_eq] at hwhole
          have := Nat.mul_pos hpos (Nat.two_pow_pos k)
          omega
      | negSucc k =>
          rw [wholePart, Nat.shiftRight_eq_div_pow] at hwhole
          rw [truncate, Rounding.apply, hx] at htruncate
          simp only [Rounding.carries, Nat.shiftLeft_eq, Nat.one_mul, hwhole] at htruncate
          cases negative <;> revert htruncate <;> decide

/-- The truncation of a NaN is a NaN, but its whole part is zero. -/
theorem toInt64_of_isNaN {x : Float} (hnan : x.isNaN = true) :
    (truncate x == 0) = false ∧ toInt64 x = 0 := by
  have hbinary := (ofFloat_eq_nan_iff x).2 hnan
  refine ⟨?_, by rw [toInt64, hbinary]⟩
  rw [truncate, Rounding.apply, hbinary]
  have hx : x = Float.nan := by
    rw [Float.isNaN_eq_decide_eq_nan] at hnan
    exact of_decide_eq_true hnan
  rw [← Bool.not_eq_true, Float.beq_iff_ne_nan_and_eq]
  exact fun h => h.1 hx

/-! ## Checked operations -/

/-- Whether neither a quotient nor a remainder is defined. -/
def undefinedDivision (a b : Int64) : Bool :=
  b = 0 || (a = Int64.minValue && b = -1)

def checkedRemainder (a b : Int64) : Option Int64 :=
  if undefinedDivision a b then none else some (a % b)

def checkedQuotient (a b : Int64) : Option Int64 :=
  if undefinedDivision a b then none else some (a / b)

def checkedSum (a b : Int64) : Option Int64 :=
  if Int64.minValue.toInt ≤ a.toInt + b.toInt ∧ a.toInt + b.toInt ≤ Int64.maxValue.toInt then
    some (a + b)
  else none

theorem natAbs_of_checkedRemainder {a b r : Int64} (hr : checkedRemainder a b = some r) :
    r.toInt.natAbs < b.toInt.natAbs := by
  unfold checkedRemainder at hr
  split at hr
  · cases hr
  · rename_i hdefined
    cases hr
    have hb : b ≠ 0 := fun hb => hdefined (by simp [undefinedDivision, hb])
    have hb : b.toInt ≠ 0 := fun h => hb (Int64.toInt_inj.1 (by simpa using h))
    rw [Int64.toInt_mod, Int.natAbs_tmod]
    exact Nat.mod_lt _ (by omega)

/-- Euclid's algorithm with checked remainders. -/
def checkedEuclid (a b : Int64) : Option Int64 :=
  if b = 0 then some a
  else
    match _h : checkedRemainder a b with
    | none => none
    | some r => checkedEuclid b r
termination_by b.toInt.natAbs
decreasing_by exact natAbs_of_checkedRemainder ‹_›

/-- The greatest common divisor of the magnitudes. -/
def checkedGcd (a b : Int64) : Option Int64 :=
  checkedEuclid a.abs b.abs

/-- The least common multiple, of which only the product may wrap. -/
def checkedLcm (a b : Int64) : Option Int64 :=
  if a = 0 ∨ b = 0 then some 0
  else do
    let divisor ← checkedGcd a b
    let quotient ← checkedQuotient a divisor
    some (quotient * b).abs

/-- The remainder by a divisor other than zero, corrected to the sign of the divisor. -/
def checkedModulo (a b : Int64) : Option Int64 :=
  if b = 0 then none
  else
    let m := a % b
    if m ≠ 0 ∧ (decide (m < 0) != decide (b < 0)) then checkedSum m b else some m

/-! ## Euclid's algorithm -/

theorem toInt_abs (a : Int64) :
    a.abs.toInt = if a.toInt < 0 then (-a.toInt).bmod (2 ^ 64) else a.toInt := by
  have hneg : (-a.toBitVec).toInt = (-a.toInt).bmod (2 ^ 64) := BitVec.toInt_neg
  change a.abs.toBitVec.toInt = if a.toBitVec.toInt < 0 then _ else _
  rw [Int64.toBitVec_abs, BitVec.abs_eq, BitVec.msb_eq_toInt]
  by_cases hsign : a.toBitVec.toInt < 0
  · rw [if_pos (decide_eq_true hsign), if_pos hsign, hneg]
  · rw [if_neg (by simpa using hsign), if_neg hsign]
    rfl

theorem abs_ne_neg_one (a : Int64) : a.abs ≠ -1 := by
  intro h
  have hlow := a.le_toInt
  have hhigh := a.toInt_lt
  have habs := toInt_abs a
  rw [h, show (-1 : Int64).toInt = -1 from rfl] at habs
  split at habs
  · rw [Int.bmod_eq_emod] at habs
    split at habs <;> omega
  · omega

theorem abs_ne_zero {a : Int64} (ha : a ≠ 0) : a.abs ≠ 0 := by
  intro h
  have hlow := a.le_toInt
  have hhigh := a.toInt_lt
  have hne : a.toInt ≠ 0 := fun hzero => ha (Int64.toInt_inj.1 (by simpa using hzero))
  have habs := toInt_abs a
  rw [h, show (0 : Int64).toInt = 0 from rfl] at habs
  split at habs
  · rw [Int.bmod_eq_emod] at habs
    split at habs <;> omega
  · omega

/-- Neither the two numbers nor the two exchanged are the smallest integer and minus one. Euclid's
algorithm starts so and stays so. -/
def Divides (a b : Int64) : Prop :=
  ¬(a = Int64.minValue ∧ b = -1) ∧ ¬(a = -1 ∧ b = Int64.minValue)

theorem Divides.step {a b : Int64} (h : Divides a b) : Divides b (a % b) := by
  have hmod := Int64.toInt_mod a b
  constructor
  · rintro ⟨rfl, hr⟩
    have hlow := a.le_toInt
    have ha : a.toInt ≠ -1 := fun ha => h.2 ⟨Int64.toInt_inj.1 ha, rfl⟩
    rw [hr, show (-1 : Int64).toInt = -1 from rfl, Int64.toInt_minValue, Int.tmod_neg,
      Int.tmod_eq_emod, show ((2 : Int) ^ 63).natAbs = 2 ^ 63 from rfl] at hmod
    split at hmod <;> omega
  · rintro ⟨rfl, hr⟩
    rw [hr, Int64.toInt_minValue, show (-1 : Int64).toInt = -1 from rfl, Int.tmod_neg,
      Int.tmod_one] at hmod
    omega

/-- No remainder in Euclid's algorithm is undefined. -/
theorem checkedEuclid_eq {a b : Int64} (h : Divides a b) :
    checkedEuclid a b = some (euclid a b) := by
  fun_induction euclid a b with
  | case1 a => simp [checkedEuclid]
  | case2 a b hb ih =>
      have hdefined : checkedRemainder a b = some (a % b) := by
        rw [checkedRemainder, if_neg]
        simpa [undefinedDivision, hb] using h.1
      rw [checkedEuclid, if_neg hb]
      split
      · rename_i hnone
        rw [hdefined] at hnone
        cases hnone
      · rename_i r hsome
        rw [hdefined] at hsome
        cases hsome
        exact ih h.step

theorem checkedGcd_eq (a b : Int64) : checkedGcd a b = some (gcd a b) :=
  checkedEuclid_eq ⟨fun h => abs_ne_neg_one b h.2, fun h => abs_ne_neg_one a h.1⟩

theorem euclid_ne_zero {a b : Int64} (h : a ≠ 0 ∨ b ≠ 0) : euclid a b ≠ 0 := by
  fun_induction euclid a b with
  | case1 a => simpa using h
  | case2 a b hb ih => exact ih (Or.inl hb)

theorem gcd_ne_zero {a : Int64} (ha : a ≠ 0) (b : Int64) : gcd a b ≠ 0 :=
  euclid_ne_zero (Or.inl (abs_ne_zero ha))

/-! ## Least common multiples -/

/-- The least common multiple is undefined exactly where `lcm?` says so. -/
theorem checkedLcm_eq (a b : Int64) : checkedLcm a b = lcm? a b := by
  unfold checkedLcm lcm?
  split
  · rfl
  · rename_i hzero
    have ha : a ≠ 0 := fun ha => hzero (Or.inl ha)
    simp only [checkedGcd_eq, Option.bind_eq_bind, Option.bind_some, checkedQuotient]
    by_cases hmin : a = Int64.minValue ∧ gcd a b = -1
    · rw [if_pos hmin, hmin.2, hmin.1, if_pos (by decide)]
      rfl
    · rw [if_neg hmin, if_neg (by simpa [undefinedDivision, gcd_ne_zero ha b] using hmin)]
      rfl

/-- The least common multiple, wrapped to 64 bits. -/
def wrappedLcm (a b : Int64) : Int64 :=
  if a = 0 ∨ b = 0 then 0 else (a / gcd a b * b).abs

theorem lcm?_eq (a b : Int64) :
    lcm? a b = if a = Int64.minValue ∧ gcd a b = -1 then none else some (wrappedLcm a b) := by
  unfold lcm? wrappedLcm
  by_cases hzero : a = 0 ∨ b = 0
  · rw [if_pos hzero, if_pos hzero, if_neg]
    -- with zero the divisor is a magnitude, and that is never minus one
    rintro ⟨rfl, hgcd⟩
    rcases hzero with hzero | rfl
    · cases hzero
    · rw [gcd, show (0 : Int64).abs = 0 from rfl, euclid, if_pos rfl] at hgcd
      exact abs_ne_neg_one _ hgcd
  · rw [if_neg hzero, if_neg hzero]

/-- A fold whose steps are partly undefined is undefined when it comes to such a step. -/
theorem foldlM_eq_none_iff {α β : Type} {step : α → β → Option α} {total : α → β → α}
    {stops : α → β → Prop} [∀ a b, Decidable (stops a b)]
    (hstep : ∀ a b, step a b = if stops a b then none else some (total a b)) (a : α)
    (bs : List β) :
    bs.foldlM step a = none ↔
      ∃ before b after, bs = before ++ b :: after ∧ stops (before.foldl total a) b := by
  induction bs generalizing a with
  | nil => simp
  | cons b bs ih =>
      rw [List.foldlM_cons, hstep]
      by_cases hstops : stops a b
      · rw [if_pos hstops]
        exact ⟨fun _ => ⟨[], b, bs, rfl, hstops⟩, fun _ => rfl⟩
      · rw [if_neg hstops]
        change bs.foldlM step (total a b) = none ↔ _
        rw [ih]
        constructor
        · rintro ⟨before, c, after, rfl, hc⟩
          exact ⟨b :: before, c, after, rfl, hc⟩
        · rintro ⟨before, c, after, heq, hc⟩
          cases before with
          | nil =>
              obtain ⟨rfl, rfl⟩ := List.cons.inj heq
              exact absurd hc hstops
          | cons d before =>
              obtain ⟨rfl, rfl⟩ := List.cons.inj heq
              exact ⟨before, c, after, rfl, hc⟩

/-! ## The modulus -/

/-- The correction of a modulus stays in range. -/
theorem checkedModulo_eq (a : Int64) {b : Int64} (hb : b ≠ 0) :
    checkedModulo a b = some (modulo a b) := by
  unfold checkedModulo modulo
  rw [if_neg hb]
  simp only
  split
  · rename_i hsigns
    have hlow := b.le_toInt
    have hhigh := b.toInt_lt
    have hlow' := (a % b).le_toInt
    have hhigh' := (a % b).toInt_lt
    have hopposite : (a % b).toInt < 0 ∧ 0 ≤ b.toInt ∨ 0 ≤ (a % b).toInt ∧ b.toInt < 0 := by
      have hne := hsigns.2
      simp only [Int64.lt_iff_toInt_lt, show (0 : Int64).toInt = 0 from rfl, bne_iff_ne, ne_eq,
        decide_eq_decide] at hne
      omega
    rw [checkedSum, if_pos]
    rw [Int64.toInt_minValue, Int64.toInt_maxValue]
    omega
  · rfl

end Scheme.Number
