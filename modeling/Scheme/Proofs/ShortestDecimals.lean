import Scheme.Proofs.DecimalValues
/-!
# Shortest decimals read back

The decimal that is found for a double lies between the bounds of the numbers that round to the
double, and seventeen digits are always enough to find one.
-/

namespace Scheme.Number

namespace Decimal

/-- The number that a decimal stands for. -/
def value (d : Decimal) : ℚ :=
  d.digits * 10 ^ d.scale

theorem ten_zpow_pos (k : Int) : (0 : ℚ) < 10 ^ k :=
  zpow_pos (by norm_num) k

theorem value_strip (bound : Nat) (d : Decimal) : (strip bound d).value = d.value := by
  induction bound generalizing d with
  | zero => rfl
  | succ bound ih =>
      unfold strip
      by_cases hzero : d.digits % 10 = 0
      · have hdigits : (d.digits : ℚ) = 10 * (d.digits / 10 : Nat) := by
          have : d.digits = 10 * (d.digits / 10) := by omega
          exact_mod_cast this
        rw [if_pos hzero, ih, value, value, hdigits, zpow_add_one₀ (by norm_num)]
        ring
      · rw [if_neg hzero]

/-! ## Bounds -/

/-- The double and its bounds, in some unit. -/
structure Target.Bounds (t : Target) (m : Nat) (e : Int) (unit : ℚ) : Prop where
  pos : (0 : ℚ) < t.denominator
  lower : (m - gapBelow m e / 4) * 2 ^ e * t.denominator = t.lower * unit
  value : m * 2 ^ e * t.denominator = t.value * unit
  upper : (m + 1 / 2) * 2 ^ e * t.denominator = t.upper * unit
  closed : t.closed = true → m % 2 = 0

theorem Target.bounds_of_scale {m : Nat} (hm : 0 < m) {e : Int} {factor denominator : Nat}
    (hpos : 0 < denominator) (hscale : (2 : ℚ) ^ e * denominator = 4 * factor) :
    Target.Bounds ⟨(4 * m - gapBelow m e) * factor, 4 * m * factor, (4 * m + 2) * factor,
      denominator, m % 2 == 0⟩ m e 1 := by
  have hbelow : gapBelow m e ≤ 4 * m := by
    unfold gapBelow
    split <;> omega
  constructor
  · exact_mod_cast hpos
  · rw [mul_assoc, hscale]
    push_cast [Nat.cast_sub hbelow]
    ring
  · rw [mul_assoc, hscale]
    push_cast
    ring
  · rw [mul_assoc, hscale]
    push_cast
    ring
  · exact beq_iff_eq.1

theorem Target.bounds_ofBinary {m : Nat} (hm : 0 < m) (e : Int) :
    (Target.ofBinary m e).Bounds m e 1 := by
  have hsplit : (2 : ℚ) ^ e = 4 * 2 ^ (e - 2) := by
    have hfour : (2 : ℚ) ^ (2 : Int) = 4 := by norm_num
    rw [zpow_sub₀ two_ne_zero, hfour]
    ring
  unfold Target.ofBinary
  cases hexponent : e - 2 with
  | ofNat k =>
      refine Target.bounds_of_scale hm Nat.one_pos ?_
      rw [hsplit, hexponent, Int.ofNat_eq_natCast, zpow_natCast, Nat.one_shiftLeft]
      push_cast
      ring
  | negSucc k =>
      have hpos : 0 < 1 <<< (k + 1) := by
        rw [Nat.one_shiftLeft]
        exact Nat.two_pow_pos (k + 1)
      refine Target.bounds_of_scale hm hpos ?_
      rw [hsplit, hexponent, zpow_negSucc, Nat.one_shiftLeft]
      push_cast
      field_simp

theorem Target.Bounds.inUnits {t : Target} {m : Nat} {e : Int} (h : t.Bounds m e 1) (scale : Int) :
    (t.inUnits scale).Bounds m e (10 ^ scale) := by
  obtain ⟨hpos, hlower, hvalue, hupper, hclosed⟩ := h
  rw [mul_one] at hlower hvalue hupper
  cases scale with
  | ofNat k =>
      have hscaled {bound : ℚ} {n : Nat} (hbound : bound * t.denominator = n) :
          bound * ((t.denominator * 10 ^ k : Nat) : ℚ) = n * 10 ^ Int.ofNat k := by
        rw [Int.ofNat_eq_natCast, zpow_natCast, ← hbound]
        push_cast
        ring
      have hdenominator : (0 : ℚ) < (t.denominator * 10 ^ k : Nat) := by
        push_cast
        positivity
      exact ⟨hdenominator, hscaled hlower, hscaled hvalue, hscaled hupper, hclosed⟩
  | negSucc k =>
      have hscaled {bound : ℚ} {n : Nat} (hbound : bound * t.denominator = n) :
          bound * t.denominator = ((n * 10 ^ (k + 1) : Nat) : ℚ) * 10 ^ Int.negSucc k := by
        rw [hbound, zpow_negSucc]
        push_cast
        field_simp
      exact ⟨hpos, hscaled hlower, hscaled hvalue, hscaled hupper, hclosed⟩

/-! ## The nearest multiple -/

/-- Multiples of the unit compare with a bound as their numerators do. -/
theorem le_multiple_iff {bound unit : ℚ} {k n d : Nat} (hbound : bound * d = k * unit)
    (hd : (0 : ℚ) < d) (hunit : 0 < unit) : bound ≤ n * unit ↔ k ≤ n * d := by
  rw [← mul_le_mul_iff_left₀ hd, hbound, mul_right_comm, mul_le_mul_iff_left₀ hunit]
  exact_mod_cast Iff.rfl

theorem multiple_le_iff {bound unit : ℚ} {k n d : Nat} (hbound : bound * d = k * unit)
    (hd : (0 : ℚ) < d) (hunit : 0 < unit) : n * unit ≤ bound ↔ n * d ≤ k := by
  rw [← mul_le_mul_iff_left₀ hd, hbound, mul_right_comm, mul_le_mul_iff_left₀ hunit]
  exact_mod_cast Iff.rfl

theorem Target.Bounds.roundsTo {t : Target} {m : Nat} {e : Int} {unit : ℚ} (h : t.Bounds m e unit)
    (hunit : 0 < unit) {n : Nat}
    (hlower : t.lower < n * t.denominator ∨ t.closed = true ∧ t.lower = n * t.denominator)
    (hupper : n * t.denominator < t.upper ∨ t.closed = true ∧ n * t.denominator = t.upper) :
    RoundsTo m e (n * unit) := by
  constructor
  · rw [le_multiple_iff h.lower h.pos hunit]
    omega
  · rw [multiple_le_iff h.upper h.pos hunit]
    omega
  · rintro (htie | htie)
    · have hle := (multiple_le_iff h.lower h.pos hunit).1 htie.le
      exact h.closed (hlower.resolve_left (by omega)).1
    · have hle := (le_multiple_iff h.upper h.pos hunit).1 htie.ge
      exact h.closed (hupper.resolve_left (by omega)).1

theorem Target.Bounds.lower_lt_value {t : Target} {m : Nat} {e : Int} {unit : ℚ}
    (h : t.Bounds m e unit) (hunit : 0 < unit) : t.lower < t.value ∧ t.value < t.upper := by
  have hgap := gapBelow_pos m e
  have hpos := mul_pos (two_zpow_pos e) h.pos
  have hlower : (t.lower : ℚ) * unit < t.value * unit := by
    rw [← h.lower, ← h.value, mul_assoc, mul_assoc]
    exact mul_lt_mul_of_pos_right (by linarith) hpos
  have hupper : (t.value : ℚ) * unit < t.upper * unit := by
    rw [← h.upper, ← h.value, mul_assoc, mul_assoc]
    exact mul_lt_mul_of_pos_right (by linarith) hpos
  exact ⟨by exact_mod_cast lt_of_mul_lt_mul_right hlower hunit.le,
    by exact_mod_cast lt_of_mul_lt_mul_right hupper hunit.le⟩

/-- Whatever multiple of the unit is chosen rounds to the double. -/
theorem Target.Bounds.roundsTo_of_nearest? {t : Target} {m : Nat} {e : Int} {unit : ℚ}
    (h : t.Bounds m e unit) (hunit : 0 < unit) {n : Nat} (hn : t.nearest? = some n) :
    RoundsTo m e (n * unit) := by
  obtain ⟨hlower, hupper⟩ := h.lower_lt_value hunit
  have hpos : 0 < t.denominator := by exact_mod_cast h.pos
  have hfloor := Nat.div_add_mod t.value t.denominator
  have hrest := Nat.mod_lt t.value hpos
  rw [Nat.mul_comm] at hfloor
  have hnext : (t.value / t.denominator + 1) * t.denominator =
      t.value / t.denominator * t.denominator + t.denominator := Nat.succ_mul _ _
  have hlow (hfits : (t.lower < t.value / t.denominator * t.denominator ||
      (t.closed && t.lower == t.value / t.denominator * t.denominator)) = true) :
      RoundsTo m e ((t.value / t.denominator : Nat) * unit) := by
    refine h.roundsTo hunit ?_ (Or.inl (by omega))
    simpa using hfits
  have hhigh (hfits : (t.value / t.denominator * t.denominator + t.denominator < t.upper ||
      (t.closed && t.value / t.denominator * t.denominator + t.denominator == t.upper)) = true) :
      RoundsTo m e ((t.value / t.denominator + 1 : Nat) * unit) := by
    refine h.roundsTo hunit (Or.inl (by omega)) ?_
    rw [hnext]
    simpa using hfits
  unfold Target.nearest? at hn
  simp only at hn
  split at hn
  · rename_i hboth
    rw [Bool.and_eq_true] at hboth
    rw [← Option.some.inj hn]
    split
    · exact hlow hboth.1
    · exact hhigh hboth.2
  · split at hn
    · rename_i hfits
      rw [← Option.some.inj hn]
      exact hlow hfits
    · split at hn
      · rename_i hfits
        rw [← Option.some.inj hn]
        exact hhigh hfits
      · cases hn

/-- A unit smaller than the distance of the bounds has a multiple between them. -/
theorem Target.Bounds.nearest?_ne_none {t : Target} {m : Nat} {e : Int} {unit : ℚ}
    (h : t.Bounds m e unit) (hunit : 0 < unit)
    (hsmall : unit < (1 / 2 + gapBelow m e / 4) * 2 ^ e) : t.nearest? ≠ none := by
  intro hnone
  have hwide : t.upper ≤ t.lower + t.denominator := by
    unfold Target.nearest? at hnone
    simp only at hnone
    split at hnone
    · cases hnone
    · split at hnone
      · cases hnone
      · split at hnone
        · cases hnone
        · rename_i hlow hhigh
          simp only [Bool.or_eq_true, decide_eq_true_eq, not_or] at hlow hhigh
          omega
  have hwide' : (t.upper : ℚ) * unit ≤ t.lower * unit + t.denominator * unit := by
    rw [← add_mul]
    exact mul_le_mul_of_nonneg_right (by exact_mod_cast hwide) hunit.le
  rw [← h.upper, ← h.lower] at hwide'
  have hcontra := mul_lt_mul_of_pos_right hsmall h.pos
  linarith

/-! ## The number of digits -/

theorem ten_zpow_magnitude_le {t : Target} {m : Nat} {e : Int} (h : t.Bounds m e 1) (bound : Nat)
    {guess : Int} (hguess : (10 : ℚ) ^ (guess - 1) ≤ m * 2 ^ e) :
    (10 : ℚ) ^ (t.magnitude bound guess - 1) ≤ m * 2 ^ e := by
  induction bound generalizing guess with
  | zero => exact hguess
  | succ bound ih =>
      unfold Target.magnitude
      simp only
      by_cases hbelow : (t.inUnits guess).value < (t.inUnits guess).denominator
      · rw [if_pos hbelow]
        exact hguess
      · rw [if_neg hbelow]
        refine ih ?_
        have hunit := h.inUnits guess
        have hle : ((t.inUnits guess).denominator : ℚ) ≤ (t.inUnits guess).value := by
          exact_mod_cast Nat.le_of_not_lt hbelow
        have hvalue := mul_le_mul_of_nonneg_right hle (ten_zpow_pos guess).le
        rw [← hunit.value, mul_comm] at hvalue
        rw [add_sub_cancel_right]
        exact le_of_mul_le_mul_right hvalue hunit.pos

/-- Powers compare if multiples of their exponents do. -/
theorem ten_zpow_le_two_zpow {p q : Nat} (hq : q ≠ 0) {g l : Int} (hexponents : q * g ≤ p * l)
    (hbases : ((10 : ℚ) ^ p) ^ l ≤ (2 ^ q) ^ l) : (10 : ℚ) ^ g ≤ 2 ^ l := by
  rw [← pow_le_pow_iff_left₀ (ten_zpow_pos g).le (two_zpow_pos l).le hq]
  calc ((10 : ℚ) ^ g) ^ q = 10 ^ (q * g) := by rw [mul_comm, zpow_mul, zpow_natCast]
    _ ≤ 10 ^ (p * l) := zpow_le_zpow_right₀ (by norm_num) hexponents
    _ = (10 ^ p) ^ l := by rw [zpow_mul, zpow_natCast]
    _ ≤ (2 ^ q) ^ l := hbases
    _ = (2 ^ l) ^ q := by rw [← zpow_natCast, ← zpow_mul, mul_comm, zpow_mul, zpow_natCast]

/-- The guess exceeds the number of digits by no more than one. -/
theorem ten_zpow_guess_le {m : Nat} {e : Int} (hc : Canonical m e) :
    (10 : ℚ) ^ ((e + m.log2) * 30103 / 100000 - 1) ≤ m * 2 ^ e := by
  have hlog := log2_le_of_fits hc.pos hc.fits
  have hleast := hc.least
  have hmost := hc.most
  have hbinade : (2 : ℚ) ^ (e + m.log2) ≤ m * 2 ^ e := by
    have hfirst : (2 : ℚ) ^ m.log2 ≤ m := by exact_mod_cast Nat.log2_self_le hc.pos.ne'
    rw [zpow_add₀ two_ne_zero, zpow_natCast, mul_comm]
    exact mul_le_mul_of_nonneg_right hfirst (two_zpow_pos e).le
  refine le_trans ?_ hbinade
  -- Three tenths are a little less than the logarithm of two, twenty-eight parts of ninety-three a
  -- little more; for numbers of this size either is close enough to the factor of the guess.
  rcases Int.lt_or_le (e + m.log2) 0 with hnegative | hpositive
  · refine @ten_zpow_le_two_zpow 28 93 (by decide) _ _ (by push_cast; omega) ?_
    have hflip : ((2 : ℚ) ^ 93) ^ (-(e + m.log2)) ≤ (10 ^ 28) ^ (-(e + m.log2)) :=
      zpow_le_zpow_left₀ (by omega) (by norm_num) (by norm_num)
    rw [zpow_neg, zpow_neg] at hflip
    exact (inv_le_inv₀ (zpow_pos (by norm_num) _) (zpow_pos (by norm_num) _)).1 hflip
  · refine @ten_zpow_le_two_zpow 3 10 (by decide) _ _ (by push_cast; omega) ?_
    exact zpow_le_zpow_left₀ hpositive (by norm_num) (by norm_num)

/-- With seventeen digits the unit is smaller than the distance of the bounds. -/
theorem unit_small {m : Nat} {e : Int} (hc : Canonical m e) {magnitude : Int}
    (hmagnitude : (10 : ℚ) ^ (magnitude - 1) ≤ m * 2 ^ e) :
    (10 : ℚ) ^ (magnitude - 17) < (1 / 2 + gapBelow m e / 4) * 2 ^ e := by
  have hpos := two_zpow_pos e
  have hunit : (10 : ℚ) ^ (magnitude - 17) = 10 ^ (magnitude - 1) / 10 ^ 16 := by
    rw [show magnitude - 17 = magnitude - 1 - 16 by omega, zpow_sub₀ (by norm_num)]
    norm_num
  have hgap : (m : ℚ) / 10 ^ 16 < 1 / 2 + gapBelow m e / 4 := by
    have hfits : (m : ℚ) < 2 ^ 53 := by exact_mod_cast hc.fits
    unfold gapBelow
    split
    · rename_i hpower
      rw [hpower.1]
      norm_num
    · push_cast
      linarith
  calc (10 : ℚ) ^ (magnitude - 17) ≤ m * 2 ^ e / 10 ^ 16 := by
        rw [hunit]
        exact div_le_div_of_nonneg_right hmagnitude (by norm_num)
    _ = m / 10 ^ 16 * 2 ^ e := by ring
    _ < (1 / 2 + gapBelow m e / 4) * 2 ^ e := mul_lt_mul_of_pos_right hgap hpos

/-- The search ends at a decimal that rounds to the double, at the latest with seventeen digits. -/
theorem roundsTo_search {t : Target} {m : Nat} {e : Int} (h : t.Bounds m e 1) (hc : Canonical m e)
    {magnitude : Int} (hmagnitude : (10 : ℚ) ^ (magnitude - 1) ≤ m * 2 ^ e) (bound count : Nat)
    (hcount : bound + count = 17) : RoundsTo m e (t.search magnitude (bound + 1) count).value := by
  induction bound generalizing count with
  | zero =>
      -- The last attempt is the one with seventeen digits, and cannot fail.
      obtain rfl : count = 17 := by omega
      have hunit := h.inUnits (magnitude - (17 : Nat))
      unfold Target.search
      cases hnearest : (t.inUnits (magnitude - (17 : Nat))).nearest? with
      | none =>
          have hsmall := unit_small hc hmagnitude
          exact absurd hnearest (hunit.nearest?_ne_none (ten_zpow_pos _) hsmall)
      | some digits =>
          simp only [value_strip]
          exact hunit.roundsTo_of_nearest? (ten_zpow_pos _) hnearest
  | succ bound ih =>
      unfold Target.search
      cases hnearest : (t.inUnits (magnitude - count)).nearest? with
      | none => exact ih (count + 1) (by omega)
      | some digits =>
          simp only [value_strip]
          exact (h.inUnits _).roundsTo_of_nearest? (ten_zpow_pos _) hnearest

/-- The shortest decimal rounds to the double. -/
theorem roundsTo_shortest {m : Nat} {e : Int} (hc : Canonical m e) :
    RoundsTo m e (shortest m e).value := by
  have hbounds := Target.bounds_ofBinary hc.pos e
  exact roundsTo_search hbounds hc (ten_zpow_magnitude_le hbounds 3 (ten_zpow_guess_le hc)) 16 1 rfl

end Decimal

end Scheme.Number
