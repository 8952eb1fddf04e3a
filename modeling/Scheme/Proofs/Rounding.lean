import Scheme.Proofs.Doubles
/-!
# Rounding

The arithmetic of doubles rounds to nearest, and ties to even. A rational number between the
bounds of a double rounds to that double, whether it is given as a product or as a quotient.
-/

namespace Scheme.Number

open Float.Model Float.Model.UnpackedFloat

/-! ## Significands with a rest -/

/-- The number that a significand with two more bits stands for, as far as it matters for rounding:
whether it is the significand, or below, at or above the middle to the next one. -/
def StandsFor (em : ExtendedMantissa) (r : ℚ) : Prop :=
  match em.roundBit, em.stickyBit with
  | false, false => r = em.mantissa
  | false, true => em.mantissa < r ∧ r < em.mantissa + 1 / 2
  | true, false => r = em.mantissa + 1 / 2
  | true, true => em.mantissa + 1 / 2 < r ∧ r < em.mantissa + 1

theorem StandsFor.le {em : ExtendedMantissa} {r : ℚ} (h : StandsFor em r) : em.mantissa ≤ r := by
  obtain ⟨m, round, sticky⟩ := em
  cases round <;> cases sticky <;> simp only [StandsFor] at h <;> linarith

theorem StandsFor.lt {em : ExtendedMantissa} {r : ℚ} (h : StandsFor em r) :
    r < em.mantissa + 1 := by
  obtain ⟨m, round, sticky⟩ := em
  cases round <;> cases sticky <;> simp only [StandsFor] at h <;> linarith

/-- Half of the number, by a shift: the last bit of the significand becomes the first of the two,
and the second keeps whether anything was there. -/
theorem StandsFor.half {em : ExtendedMantissa} {r : ℚ} (h : StandsFor em r) :
    StandsFor em.shiftRightOne (r / 2) := by
  obtain ⟨m, round, sticky⟩ := em
  have hm : (m : ℚ) = 2 * (m / 2 : Nat) + (m % 2 : Nat) := by
    exact_mod_cast (Nat.div_add_mod m 2).symm
  rcases Nat.mod_two_eq_zero_or_one m with hbit | hbit
  · have hround : (m % 2 != 0) = false := by rw [hbit]; rfl
    rw [hbit, Nat.cast_zero, add_zero] at hm
    cases round <;> cases sticky <;>
      simp only [StandsFor, ExtendedMantissa.shiftRightOne, hround, Bool.or_false,
        Bool.or_true] at h ⊢
    · linarith
    · constructor <;> linarith
    · constructor <;> linarith
    · constructor <;> linarith
  · have hround : (m % 2 != 0) = true := by rw [hbit]; rfl
    rw [hbit, Nat.cast_one] at hm
    cases round <;> cases sticky <;>
      simp only [StandsFor, ExtendedMantissa.shiftRightOne, hround, Bool.or_false,
        Bool.or_true] at h ⊢
    · linarith
    · constructor <;> linarith
    · constructor <;> linarith
    · constructor <;> linarith

theorem StandsFor.shift {em : ExtendedMantissa} {r : ℚ} (h : StandsFor em r) (n : Nat) :
    StandsFor (em >>> n) (r / 2 ^ n) := by
  induction n with
  | zero =>
      rw [pow_zero, div_one]
      exact h
  | succ n ih =>
      rw [pow_succ, ← div_div]
      exact ih.half

theorem standsFor_exact (m : Nat) : StandsFor (.ofMantissaAndAccuracy m .exact) m :=
  rfl

/-- A quotient with a remainder. -/
theorem standsFor_fraction (a : Nat) {b : Nat} (hb : 0 < b) :
    StandsFor (.ofMantissaAndAccuracy (a / b) (accuracyOfFraction (a % b) b)) (a / b : ℚ) := by
  have hpos : (0 : ℚ) < b := by exact_mod_cast hb
  have hsplit : (a : ℚ) = b * (a / b : Nat) + (a % b : Nat) := by
    exact_mod_cast (Nat.div_add_mod a b).symm
  have hdiv : (a : ℚ) / b = (a / b : Nat) + (a % b : Nat) / b := by
    rw [div_eq_iff hpos.ne', add_mul, div_mul_cancel₀ _ hpos.ne', mul_comm]
    exact hsplit
  have hless : ((a % b : Nat) : ℚ) / b < 1 := by
    rw [div_lt_one hpos]
    exact_mod_cast Nat.mod_lt a hb
  rw [hdiv]
  unfold accuracyOfFraction
  by_cases hzero : a % b = 0
  · rw [if_pos hzero, hzero, Nat.cast_zero, zero_div, add_zero]
    exact standsFor_exact _
  · have hsome : (0 : ℚ) < (a % b : Nat) / b :=
      div_pos (by exact_mod_cast Nat.pos_of_ne_zero hzero) hpos
    rw [if_neg hzero]
    rcases Nat.lt_trichotomy (2 * (a % b)) b with hhalf | hhalf | hhalf
    · rw [Nat.compare_eq_lt.2 hhalf]
      have hbelow : ((a % b : Nat) : ℚ) / b < 1 / 2 := by
        rw [div_lt_div_iff₀ hpos two_pos, one_mul, mul_comm]
        exact_mod_cast hhalf
      constructor <;> simp only [ExtendedMantissa.ofMantissaAndAccuracy] <;> linarith
    · rw [Nat.compare_eq_eq.2 hhalf]
      have hmiddle : ((a % b : Nat) : ℚ) / b = 1 / 2 := by
        rw [div_eq_div_iff hpos.ne' two_ne_zero, one_mul, mul_comm]
        exact_mod_cast hhalf
      simp only [StandsFor, ExtendedMantissa.ofMantissaAndAccuracy]
      linarith
    · rw [Nat.compare_eq_gt.2 hhalf]
      have habove : 1 / 2 < ((a % b : Nat) : ℚ) / b := by
        rw [div_lt_div_iff₀ two_pos hpos, one_mul, mul_comm]
        exact_mod_cast hhalf
      constructor <;> simp only [ExtendedMantissa.ofMantissaAndAccuracy] <;> linarith

/-! ## Rounding to nearest -/

/-- The whole number nearest to a number; halfway between two it is the even one. -/
structure IsNearest (n : Nat) (r : ℚ) : Prop where
  lower : (n : ℚ) - 1 / 2 ≤ r
  upper : r ≤ n + 1 / 2
  tie : r = n - 1 / 2 ∨ r = n + 1 / 2 → n % 2 = 0

theorem IsNearest.eq_of_lt {n m : Nat} {r : ℚ} (hn : IsNearest n r) (hlower : (m : ℚ) - 1 / 2 < r)
    (hupper : r < m + 1 / 2) : n = m := by
  have hle : (n : ℚ) < m + 1 := by linarith [hn.lower]
  have hge : (m : ℚ) < n + 1 := by linarith [hn.upper]
  have hle' : n < m + 1 := by exact_mod_cast hle
  have hge' : m < n + 1 := by exact_mod_cast hge
  omega

theorem StandsFor.roundedMantissa {em : ExtendedMantissa} {r : ℚ} (h : StandsFor em r) {n : Nat}
    (hn : IsNearest n r) : em.roundedMantissa = n := by
  obtain ⟨m, round, sticky⟩ := em
  cases round <;> cases sticky <;> simp only [StandsFor] at h
  · have hn' : n = m := hn.eq_of_lt (by linarith) (by linarith)
    exact hn'.symm
  · have hn' : n = m := hn.eq_of_lt (by linarith) (by linarith)
    exact hn'.symm
  · -- Both neighbours are as near, and the even one is chosen.
    have hle : (n : ℚ) ≤ (m + 1 : Nat) := by push_cast; linarith [hn.lower]
    have hge : (m : ℚ) ≤ n := by linarith [hn.upper]
    have hle' : n ≤ m + 1 := by exact_mod_cast hle
    have hge' : m ≤ n := by exact_mod_cast hge
    have heven : n % 2 = 0 := by
      refine hn.tie ?_
      rcases Nat.lt_or_ge m n with hlt | hle
      · obtain rfl : n = m + 1 := by omega
        left
        push_cast
        linarith
      · obtain rfl : n = m := by omega
        exact Or.inr h
    change m + m % 2 = n
    omega
  · have hn' : n = m + 1 := hn.eq_of_lt (by push_cast; linarith) (by push_cast; linarith)
    exact hn'.symm

/-! ## The numbers that round to a double -/

/-- Half the distance to the double below, in quarters of the last place: below a power of two the
doubles are closer to each other. -/
def gapBelow (m : Nat) (e : Int) : Nat :=
  if m = 2 ^ 52 ∧ -1074 < e then 1 else 2

/-- A number not farther from a double than the middle to each neighbour; the middle itself counts
for an even significand. -/
structure RoundsTo (m : Nat) (e : Int) (q : ℚ) : Prop where
  lower : ((m : ℚ) - gapBelow m e / 4) * 2 ^ e ≤ q
  upper : q ≤ ((m : ℚ) + 1 / 2) * 2 ^ e
  tie : q = ((m : ℚ) - gapBelow m e / 4) * 2 ^ e ∨ q = ((m : ℚ) + 1 / 2) * 2 ^ e → m % 2 = 0

theorem two_zpow_pos (e : Int) : (0 : ℚ) < 2 ^ e :=
  zpow_pos two_pos e

theorem gapBelow_le (m : Nat) (e : Int) : (gapBelow m e : ℚ) ≤ 2 := by
  unfold gapBelow
  split <;> norm_num

theorem gapBelow_pos (m : Nat) (e : Int) : (0 : ℚ) < gapBelow m e := by
  unfold gapBelow
  split <;> norm_num

theorem roundsTo_self (m : Nat) (e : Int) : RoundsTo m e (m * 2 ^ e) := by
  have hgap := gapBelow_pos m e
  have hpos := two_zpow_pos e
  have hlower : ((m : ℚ) - gapBelow m e / 4) * 2 ^ e < m * 2 ^ e :=
    mul_lt_mul_of_pos_right (by linarith) hpos
  have hupper : (m : ℚ) * 2 ^ e < (m + 1 / 2) * 2 ^ e :=
    mul_lt_mul_of_pos_right (by linarith) hpos
  exact ⟨hlower.le, hupper.le, fun h => h.elim (fun h => absurd h hlower.ne') fun h =>
    absurd h hupper.ne⟩

/-- In units of the last place such a number is nearest to the significand. -/
theorem RoundsTo.isNearest {m : Nat} {e : Int} {q : ℚ} (h : RoundsTo m e q) :
    IsNearest m (q / 2 ^ e) := by
  have hpos := two_zpow_pos e
  have hgap := gapBelow_le m e
  constructor
  · rw [le_div_iff₀ hpos]
    exact (mul_le_mul_of_nonneg_right (by linarith) hpos.le).trans h.lower
  · rw [div_le_iff₀ hpos]
    exact h.upper
  · rintro (htie | htie)
    · refine h.tie (Or.inl (le_antisymm ?_ h.lower))
      rw [div_eq_iff hpos.ne'] at htie
      rw [htie]
      exact mul_le_mul_of_nonneg_right (by linarith) hpos.le
    · refine h.tie (Or.inr ?_)
      rwa [div_eq_iff hpos.ne'] at htie

/-- Below a power of two the last place is half as large, and the number nearest to twice the
significand. -/
theorem RoundsTo.isNearest_below {e : Int} (he : -1074 < e) {q : ℚ} (h : RoundsTo (2 ^ 52) e q)
    (hbelow : q < 2 ^ 52 * 2 ^ e) : IsNearest (2 ^ 53) (q / 2 ^ (e - 1)) := by
  have hpos := two_zpow_pos e
  have hhalf : (2 : ℚ) ^ (e - 1) = 2 ^ e / 2 := zpow_sub_one₀ two_ne_zero e
  have hgap : gapBelow (2 ^ 52) e = 1 := if_pos ⟨rfl, he⟩
  have hlower := h.lower
  rw [hgap] at hlower
  push_cast at hlower
  rw [hhalf]
  constructor
  · rw [le_div_iff₀ (by linarith)]
    push_cast
    linarith
  · rw [div_le_iff₀ (by linarith)]
    push_cast
    linarith
  · exact fun _ => rfl

/-! ## Exponents -/

theorem targetExponent_eq (total : Int) :
    Format.binary64.targetExponent total = max (total - 53) (-1074) :=
  rfl

/-- The binary magnitude of a number whose whole part is known. -/
theorem lt_two_zpow_totalExponent {n : Nat} {e : Int} {q : ℚ} (hq : q / 2 ^ e < n + 1) :
    q < 2 ^ totalExponent n e := by
  have hpos := two_zpow_pos e
  have hlog : (n : ℚ) + 1 ≤ 2 ^ (n.log2 + 1) := by
    exact_mod_cast Nat.succ_le_of_lt Nat.lt_log2_self
  rw [div_lt_iff₀ hpos] at hq
  have htotal : (2 : ℚ) ^ totalExponent n e = 2 ^ (n.log2 + 1) * 2 ^ e := by
    rw [totalExponent, zpow_add₀ two_ne_zero]
    norm_cast
  rw [htotal]
  exact hq.trans_le (mul_le_mul_of_nonneg_right hlog hpos.le)

theorem two_zpow_totalExponent_le {n : Nat} (hn : n ≠ 0) {e : Int} {q : ℚ} (hq : n ≤ q / 2 ^ e) :
    2 ^ (totalExponent n e - 1) ≤ q := by
  have hpos := two_zpow_pos e
  have hlog : (2 : ℚ) ^ n.log2 ≤ n := by exact_mod_cast Nat.log2_self_le hn
  rw [le_div_iff₀ hpos] at hq
  have htotal : (2 : ℚ) ^ (totalExponent n e - 1) = 2 ^ n.log2 * 2 ^ e := by
    rw [totalExponent, show ((n.log2 : Int) + 1 + e - 1) = n.log2 + e by omega,
      zpow_add₀ two_ne_zero, zpow_natCast]
  rw [htotal]
  exact (mul_le_mul_of_nonneg_right hlog hpos.le).trans hq

theorem lt_of_two_zpow_lt {a b : Int} (h : (2 : ℚ) ^ a < 2 ^ b) : a < b :=
  (zpow_lt_zpow_iff_right₀ one_lt_two).1 h

theorem RoundsTo.lt_two_zpow {m : Nat} {e : Int} (hc : Canonical m e) {q : ℚ}
    (h : RoundsTo m e q) : q < 2 ^ (53 + e) := by
  have hpos := two_zpow_pos e
  have hfits : (m : ℚ) + 1 ≤ 2 ^ 53 := by exact_mod_cast hc.fits
  rw [zpow_add₀ two_ne_zero]
  refine h.upper.trans_lt (mul_lt_mul_of_pos_right ?_ hpos)
  calc (m : ℚ) + 1 / 2 < m + 1 := by linarith
    _ ≤ 2 ^ 53 := hfits
    _ = 2 ^ (53 : Int) := by norm_num

theorem RoundsTo.pos {m : Nat} {e : Int} (hc : Canonical m e) {q : ℚ} (h : RoundsTo m e q) :
    0 < q := by
  have hone : (1 : ℚ) ≤ m := by exact_mod_cast hc.pos
  have hgap := gapBelow_le m e
  exact (mul_pos (by linarith) (two_zpow_pos e)).trans_le h.lower

/-- A number that rounds to a normal double is not far below its first place. -/
theorem RoundsTo.two_zpow_le {m : Nat} {e : Int} (hm : 2 ^ 52 ≤ m) {q : ℚ} (h : RoundsTo m e q) :
    (2 : ℚ) ^ (51 + e) ≤ q := by
  have hpos := two_zpow_pos e
  have hlarge : (2 : ℚ) ^ 52 ≤ m := by exact_mod_cast hm
  have hgap := gapBelow_le m e
  rw [zpow_add₀ two_ne_zero]
  refine (mul_le_mul_of_nonneg_right ?_ hpos.le).trans h.lower
  calc (2 : ℚ) ^ (51 : Int) = 2 ^ 51 := by norm_num
    _ ≤ 2 ^ 52 - 2 / 4 := by norm_num
    _ ≤ m - gapBelow m e / 4 := by linarith

/-- Above a power of two the first place is that of the double. -/
theorem RoundsTo.two_zpow_le_of_lt {m : Nat} {e : Int} (hm : 2 ^ 52 < m) {q : ℚ}
    (h : RoundsTo m e q) : (2 : ℚ) ^ (52 + e) ≤ q := by
  have hpos := two_zpow_pos e
  have hlarge : (2 : ℚ) ^ 52 + 1 ≤ m := by exact_mod_cast hm
  have hgap := gapBelow_le m e
  rw [zpow_add₀ two_ne_zero]
  refine (mul_le_mul_of_nonneg_right ?_ hpos.le).trans h.lower
  calc (2 : ℚ) ^ (52 : Int) = 2 ^ 52 := by norm_num
    _ ≤ m - gapBelow m e / 4 := by linarith

/-- The exponent that is aimed at is the double's, or one less just below a power of two. -/
theorem RoundsTo.targetExponent_cases {m : Nat} {e : Int} (hc : Canonical m e) {q : ℚ}
    (h : RoundsTo m e q) {n : Nat} {f : Int} (hlower : n ≤ q / 2 ^ f) (hupper : q / 2 ^ f < n + 1)
    (hf : f ≤ Format.binary64.targetExponent (totalExponent n f)) :
    Format.binary64.targetExponent (totalExponent n f) = e ∨
      Format.binary64.targetExponent (totalExponent n f) = e - 1 ∧ m = 2 ^ 52 ∧ -1074 < e ∧
        q < 2 ^ 52 * 2 ^ e := by
  have hlt := lt_two_zpow_totalExponent hupper
  rw [targetExponent_eq] at hf ⊢
  have hleast := hc.least
  -- The number is too small to have a higher exponent.
  have hmost : totalExponent n f - 53 ≤ e := by
    by_cases hn : n = 0
    · have hzero : totalExponent n f = 1 + f := by
        rw [hn, totalExponent]
        simp
      omega
    · have hbinade := (two_zpow_totalExponent_le hn hlower).trans_lt (h.lt_two_zpow hc)
      have := lt_of_two_zpow_lt hbinade
      omega
  rcases hc.normal with hnormal | hsub
  · rcases Nat.lt_or_ge (2 ^ 52) m with habove | hpower
    · have := lt_of_two_zpow_lt ((h.two_zpow_le_of_lt habove).trans_lt hlt)
      omega
    · obtain rfl : m = 2 ^ 52 := Nat.le_antisymm hpower hnormal
      have hbinade := lt_of_two_zpow_lt ((h.two_zpow_le hnormal).trans_lt hlt)
      by_cases hexact : max (totalExponent n f - 53) (-1074) = e
      · exact Or.inl hexact
      · have htotal : totalExponent n f = 52 + e := by omega
        refine Or.inr ⟨by omega, rfl, by omega, ?_⟩
        rw [htotal, zpow_add₀ two_ne_zero] at hlt
        exact_mod_cast hlt
  · omega

/-! ## Rounding -/

theorem mantissa_ofMantissaAndAccuracy (n : Nat) (accuracy : Accuracy) :
    (ExtendedMantissa.ofMantissaAndAccuracy n accuracy).mantissa = n := by
  cases accuracy with
  | exact => rfl
  | inexact order => cases order <;> rfl

/-- A number brought to the exponent that is aimed at, which is not below its own. -/
theorem standsFor_shiftToTargetExponent {n : Nat} {f : Int} {accuracy : Accuracy} {q : ℚ}
    (hq : StandsFor (.ofMantissaAndAccuracy n accuracy) (q / 2 ^ f)) {t : Int}
    (ht : Format.binary64.targetExponent (totalExponent n f) = t) (hf : f ≤ t) :
    (shiftToTargetExponent Format.binary64 n f accuracy).2 = t ∧
      StandsFor (shiftToTargetExponent Format.binary64 n f accuracy).1 (q / 2 ^ t) := by
  have hshift := hq.shift (t - f).toNat
  have hpower : (2 : ℚ) ^ t = 2 ^ f * 2 ^ (t - f).toNat := by
    rw [← zpow_natCast, ← zpow_add₀ two_ne_zero]
    congr 1
    omega
  rw [div_div, ← hpower] at hshift
  simp only [shiftToTargetExponent, shiftToExponent, ht]
  exact ⟨by omega, hshift⟩

/-- A significand that fits is left as it is. -/
theorem shiftToTargetExponent_of_fits {n : Nat} (hn : n < 2 ^ 53) {f : Int} (hf : -1074 ≤ f) :
    shiftToTargetExponent Format.binary64 n f .exact = (⟨n, false, false⟩, f) := by
  have hlog : n.log2 ≤ 52 := by
    by_cases hzero : n = 0
    · simp [hzero]
    · have := (Nat.log2_lt hzero).2 hn
      omega
  have hshift : (max (totalExponent n f - 53) (-1074) - f).toNat = 0 := by
    unfold totalExponent
    omega
  simp only [shiftToTargetExponent, shiftToExponent, targetExponent_eq, hshift]
  exact Prod.ext rfl (by simp)

/-- A significand that rounding has made one bit too long loses its last bit, a zero. -/
theorem shiftToTargetExponent_of_overflow {f : Int} (hf : -1074 ≤ f) :
    shiftToTargetExponent Format.binary64 (2 ^ 53) f .exact = (⟨2 ^ 52, false, false⟩, f + 1) := by
  have hlog : (2 ^ 53 : Nat).log2 = 53 := Nat.log2_two_pow
  have hshift : (max (totalExponent (2 ^ 53) f - 53) (-1074) - f).toNat = 1 := by
    unfold totalExponent
    rw [hlog]
    omega
  simp only [shiftToTargetExponent, shiftToExponent, targetExponent_eq, hshift]
  rfl

/-- A number that rounds to a double is rounded to it. -/
theorem RoundsTo.roundWithAccuracy {m : Nat} {e : Int} (hc : Canonical m e) {q : ℚ}
    (h : RoundsTo m e q) {n : Nat} {f : Int} {accuracy : Accuracy}
    (hq : StandsFor (.ofMantissaAndAccuracy n accuracy) (q / 2 ^ f))
    (hf : f ≤ Format.binary64.targetExponent (totalExponent n f)) (s : Sign) :
    roundWithAccuracy Format.binary64 s n f accuracy = .finite s m e hc.pos := by
  have hlower := hq.le
  have hupper := hq.lt
  rw [mantissa_ofMantissaAndAccuracy] at hlower hupper
  have hpos := hc.pos
  unfold UnpackedFloat.roundWithAccuracy
  rcases h.targetExponent_cases hc hlower hupper hf with ht | ⟨ht, rfl, he, hbelow⟩
  · obtain ⟨hexponent, hstands⟩ := standsFor_shiftToTargetExponent hq ht (ht ▸ hf)
    simp only [hexponent, hstands.roundedMantissa h.isNearest,
      shiftToTargetExponent_of_fits hc.fits hc.least]
    rw [dif_neg (by omega)]
  · obtain ⟨hexponent, hstands⟩ := standsFor_shiftToTargetExponent hq ht (ht ▸ hf)
    have hleast : -1074 ≤ e - 1 := by omega
    simp only [hexponent, hstands.roundedMantissa (h.isNearest_below he hbelow),
      shiftToTargetExponent_of_overflow hleast]
    rw [dif_neg (by omega)]
    simp

end Scheme.Number
