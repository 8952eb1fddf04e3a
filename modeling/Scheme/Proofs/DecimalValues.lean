import Scheme.Proofs.Rounding
/-!
# The values of decimals

The double that is read for a decimal is the one that the decimal rounds to, as a product or a
quotient of exact doubles when these suffice, and of whole numbers otherwise.
-/

namespace Scheme.Number

open Float.Model Float.Model.UnpackedFloat

/-! ## Products and quotients -/

theorem log2_mul_two_pow {n : Nat} (hn : n ≠ 0) (k : Nat) : (n * 2 ^ k).log2 = n.log2 + k := by
  induction k with
  | zero => rw [Nat.pow_zero, Nat.mul_one, Nat.add_zero]
  | succ k ih =>
      have hne : n * 2 ^ k ≠ 0 := Nat.mul_ne_zero hn (Nat.two_pow_pos k).ne'
      rw [Nat.pow_succ, ← Nat.mul_assoc, Nat.mul_comm _ 2, Nat.log2_two_mul hne, ih, Nat.add_assoc]

theorem RoundsTo.mul {m : Nat} {e : Int} (hc : Canonical m e) {m₁ m₂ : Nat} {e₁ e₂ : Int}
    (h₁ : 0 < m₁) (h₂ : 0 < m₂) (h : RoundsTo m e (m₁ * 2 ^ e₁ * (m₂ * 2 ^ e₂)))
    (hlarge : 2 ^ 52 ≤ m₁ * m₂) :
    UnpackedFloat.mul Format.binary64 (.finite .positive m₁ e₁ h₁) (.finite .positive m₂ e₂ h₂) =
      .finite .positive m e hc.pos := by
  have hlog : 52 ≤ (m₁ * m₂).log2 := (Nat.le_log2 (Nat.mul_pos h₁ h₂).ne').2 hlarge
  refine h.roundWithAccuracy hc ?_ ?_ .positive
  · have hvalue : (m₁ : ℚ) * 2 ^ e₁ * (m₂ * 2 ^ e₂) / 2 ^ (e₁ + e₂) = (m₁ * m₂ : Nat) := by
      have hpos := two_zpow_pos (e₁ + e₂)
      rw [div_eq_iff hpos.ne', zpow_add₀ two_ne_zero]
      push_cast
      ring
    rw [hvalue]
    exact standsFor_exact _
  · rw [targetExponent_eq, totalExponent]
    omega

/-- The binary magnitude of a quotient is known from those of its terms, up to one place. -/
theorem two_zpow_lt_quotient {m₁ m₂ : Nat} {e₁ e₂ : Int} (h₁ : 0 < m₁) (h₂ : 0 < m₂) {d : Int}
    (hd : totalExponent m₁ e₁ - totalExponent m₂ e₂ = d) :
    (2 : ℚ) ^ (d - 1) < m₁ * 2 ^ e₁ / (m₂ * 2 ^ e₂) := by
  have hpos : (0 : ℚ) < m₂ * 2 ^ e₂ := mul_pos (by exact_mod_cast h₂) (two_zpow_pos e₂)
  have hnumerator : (2 : ℚ) ^ (totalExponent m₁ e₁ - 1) ≤ m₁ * 2 ^ e₁ := by
    refine two_zpow_totalExponent_le h₁.ne' ?_
    rw [mul_div_cancel_right₀ _ (two_zpow_pos e₁).ne']
  have hdenominator : (m₂ : ℚ) * 2 ^ e₂ < 2 ^ totalExponent m₂ e₂ := by
    refine lt_two_zpow_totalExponent ?_
    rw [mul_div_cancel_right₀ _ (two_zpow_pos e₂).ne']
    linarith
  rw [lt_div_iff₀ hpos]
  calc (2 : ℚ) ^ (d - 1) * (m₂ * 2 ^ e₂) < 2 ^ (d - 1) * 2 ^ totalExponent m₂ e₂ :=
        mul_lt_mul_of_pos_left hdenominator (two_zpow_pos _)
    _ = 2 ^ (totalExponent m₁ e₁ - 1) := by
        rw [← zpow_add₀ two_ne_zero]
        congr 1
        omega
    _ ≤ m₁ * 2 ^ e₁ := hnumerator

/-- The quotient is computed to as many places as the double has. -/
theorem RoundsTo.div {m : Nat} {e : Int} (hc : Canonical m e) {m₁ m₂ : Nat} {e₁ e₂ : Int}
    (h₁ : 0 < m₁) (h₂ : 0 < m₂) (h : RoundsTo m e (m₁ * 2 ^ e₁ / (m₂ * 2 ^ e₂))) :
    UnpackedFloat.div Format.binary64 (.finite .positive m₁ e₁ h₁) (.finite .positive m₂ e₂ h₂) =
      .finite .positive m e hc.pos := by
  change UnpackedFloat.roundWithAccuracy Format.binary64 .positive _ _ _ = _
  simp only [Nat.shiftLeft_eq]
  generalize hd : totalExponent m₁ e₁ - totalExponent m₂ e₂ = d
  generalize hf : min (e₁ - e₂) (Format.binary64.targetExponent d) = f
  rw [targetExponent_eq] at hf
  generalize hs : (e₁ - e₂ - f).toNat = s
  have hvalue : (m₁ : ℚ) * 2 ^ e₁ / (m₂ * 2 ^ e₂) / 2 ^ f = (m₁ * 2 ^ s : Nat) / m₂ := by
    have hexponents : (2 : ℚ) ^ e₁ = 2 ^ s * 2 ^ e₂ * 2 ^ f := by
      rw [← zpow_natCast, ← zpow_add₀ two_ne_zero, ← zpow_add₀ two_ne_zero]
      congr 1
      omega
    have hm₂ : (m₂ : ℚ) ≠ 0 := by exact_mod_cast h₂.ne'
    have he₂ := (two_zpow_pos e₂).ne'
    have hf := (two_zpow_pos f).ne'
    rw [hexponents]
    push_cast
    field_simp
  have hbelow := two_zpow_lt_quotient h₁ h₂ hd
  have hstands := standsFor_fraction (m₁ * 2 ^ s) h₂
  rw [← hvalue] at hstands
  have hupper := hstands.lt
  rw [mantissa_ofMantissaAndAccuracy] at hupper
  refine h.roundWithAccuracy hc hstands ?_ .positive
  rw [targetExponent_eq]
  by_cases hzero : m₁ * 2 ^ s / m₂ = 0
  · -- Nothing is left above the last place only where that is the last place of all.
    rw [hzero, Nat.cast_zero, zero_add, div_lt_one (two_zpow_pos f)] at hupper
    have := lt_of_two_zpow_lt (hbelow.trans hupper)
    omega
  · have := lt_of_two_zpow_lt (hbelow.trans (lt_two_zpow_totalExponent hupper))
    omega

/-- A whole number of units is rounded the same whatever the unit. -/
theorem RoundsTo.round {m : Nat} {e : Int} (hc : Canonical m e) {n : Nat} {f : Int} (hn : n ≠ 0)
    (h : RoundsTo m e (n * 2 ^ f)) (s : Sign) :
    UnpackedFloat.round Format.binary64 s n f = .finite s m e hc.pos := by
  simp only [UnpackedFloat.round, decreaseExponent, Nat.shiftLeft_eq]
  generalize hk : (f - Format.binary64.targetExponent (totalExponent n f)).toNat = k
  have hlog : (n * 2 ^ k).log2 = n.log2 + k := log2_mul_two_pow hn k
  refine h.roundWithAccuracy hc ?_ ?_ s
  · have hvalue : (n : ℚ) * 2 ^ f / 2 ^ (f - k) = (n * 2 ^ k : Nat) := by
      rw [div_eq_iff (two_zpow_pos _).ne', zpow_sub₀ two_ne_zero, zpow_natCast]
      push_cast
      field_simp
    rw [hvalue]
    exact standsFor_exact _
  · rw [targetExponent_eq] at hk ⊢
    unfold totalExponent at hk ⊢
    omega

/-! ## Exact doubles -/

/-- A number of at most fifty-three bits, as a significand without leading zeros. -/
def filled (n : Nat) : Nat :=
  n * 2 ^ (52 - n.log2)

theorem log2_le_of_fits {n : Nat} (hn : 0 < n) (hfits : n < 2 ^ 53) : n.log2 ≤ 52 := by
  have := (Nat.log2_lt hn.ne').2 hfits
  omega

theorem log2_filled {n : Nat} (hn : 0 < n) (hfits : n < 2 ^ 53) : (filled n).log2 = 52 := by
  have hlog := log2_le_of_fits hn hfits
  rw [filled, log2_mul_two_pow hn.ne']
  omega

theorem filled_pos {n : Nat} (hn : 0 < n) : 0 < filled n :=
  Nat.mul_pos hn (Nat.two_pow_pos _)

theorem filled_large {n : Nat} (hn : 0 < n) (hfits : n < 2 ^ 53) : 2 ^ 52 ≤ filled n :=
  ((Nat.log2_eq_iff (filled_pos hn).ne').1 (log2_filled hn hfits)).1

theorem canonical_filled {n : Nat} (hn : 0 < n) (hfits : n < 2 ^ 53) {k : Nat} (hk : k ≤ 900) :
    Canonical (filled n) (k + n.log2 - 52) := by
  have hlog := log2_le_of_fits hn hfits
  have hmost := ((Nat.log2_eq_iff (filled_pos hn).ne').1 (log2_filled hn hfits)).2
  exact ⟨filled_pos hn, hmost, by omega, by omega, Or.inl (filled_large hn hfits)⟩

theorem value_filled {n : Nat} (hn : 0 < n) (hfits : n < 2 ^ 53) (k : Nat) :
    (filled n : ℚ) * 2 ^ (k + n.log2 - 52 : Int) = n * 2 ^ k := by
  have hlog := log2_le_of_fits hn hfits
  have hexponent : (2 : ℚ) ^ (52 - n.log2) * 2 ^ (k + n.log2 - 52 : Int) = 2 ^ k := by
    rw [← zpow_natCast, ← zpow_natCast, ← zpow_add₀ two_ne_zero]
    congr 1
    omega
  rw [filled]
  push_cast
  rw [mul_assoc, hexponent]

theorem ofNat_eq_double {n : Nat} (hn : 0 < n) (hfits : n < 2 ^ 53) :
    n.toUInt64.toFloat = double false (canonical_filled hn hfits (Nat.zero_le 900)) := by
  have hword : n.toUInt64.toNat = n := by
    rw [Nat.toUInt64, UInt64.toNat_ofNat']
    omega
  have hself := roundsTo_self (filled n) ((0 : Nat) + n.log2 - 52)
  rw [value_filled hn hfits, pow_zero, ← zpow_zero (2 : ℚ)] at hself
  have hround := RoundsTo.round (canonical_filled hn hfits (Nat.zero_le 900)) hn.ne' hself .positive
  have hmodel : UnpackedFloat.ofNat Format.binary64 n =
      UnpackedFloat.round Format.binary64 .positive n 0 := by
    have hcompare : compare (n : Int) 0 = .gt := by
      rw [Int.compare_eq_gt]
      omega
    simp only [UnpackedFloat.ofNat, UnpackedFloat.ofInt, UnpackedFloat.normalize, hcompare,
      Int.toNat_natCast]
  change Float.ofModel (.pack (UnpackedFloat.ofNat Format.binary64 n.toUInt64.toNat)) = _
  rw [hword, hmodel, hround]
  rfl

theorem five_pow_fits {k : Nat} (hk : k ≤ 22) : 5 ^ k < 2 ^ 53 :=
  (Nat.pow_le_pow_right (by omega) hk).trans_lt (by decide)

/-- The table of powers of ten is exact. -/
theorem powerOfTen_eq_double {k : Nat} (hk : k ≤ 22)
    (hsize : k < Float.exactlyRepresentablePowersOfTen.size) :
    Float.exactlyRepresentablePowersOfTen[k] =
      double false (canonical_filled (Nat.pow_pos (by decide) : 0 < 5 ^ k) (five_pow_fits hk)
        (by omega : k ≤ 900)) := by
  refine eq_of_toBits_eq ?_
  rw [toNat_toBits_double]
  have htable : ∀ k : Fin 23, (Float.exactlyRepresentablePowersOfTen.getD k 0).toBits.toNat =
      magnitudeBits (filled (5 ^ k.val)) (k + (5 ^ k.val).log2 - 52) := by
    decide +kernel
  have hk' := htable ⟨k, by omega⟩
  simp only [Array.getD, hsize, dite_true] at hk'
  rw [Bool.toNat_false, Nat.zero_mul, Nat.zero_add, ← hk']
  rfl

/-! ## Reading a decimal -/

theorem double_mul {m m₁ m₂ : Nat} {e e₁ e₂ : Int} (hc : Canonical m e) (hc₁ : Canonical m₁ e₁)
    (hc₂ : Canonical m₂ e₂) (h : RoundsTo m e (m₁ * 2 ^ e₁ * (m₂ * 2 ^ e₂)))
    (hlarge : 2 ^ 52 ≤ m₁ * m₂) : double false hc₁ * double false hc₂ = double false hc := by
  change Float.ofModel (.pack (UnpackedFloat.mul Format.binary64
    (Float.Model.pack (.finite (signOf false) m₁ e₁ hc₁.pos)).unpack
    (Float.Model.pack (.finite (signOf false) m₂ e₂ hc₂.pos)).unpack)) = _
  rw [unpack_pack hc₁ false, unpack_pack hc₂ false]
  exact congrArg (Float.ofModel ∘ Float.Model.pack) (h.mul hc hc₁.pos hc₂.pos hlarge)

theorem double_div {m m₁ m₂ : Nat} {e e₁ e₂ : Int} (hc : Canonical m e) (hc₁ : Canonical m₁ e₁)
    (hc₂ : Canonical m₂ e₂) (h : RoundsTo m e (m₁ * 2 ^ e₁ / (m₂ * 2 ^ e₂))) :
    double false hc₁ / double false hc₂ = double false hc := by
  change Float.ofModel (.pack (UnpackedFloat.div Format.binary64
    (Float.Model.pack (.finite (signOf false) m₁ e₁ hc₁.pos)).unpack
    (Float.Model.pack (.finite (signOf false) m₂ e₂ hc₂.pos)).unpack)) = _
  rw [unpack_pack hc₁ false, unpack_pack hc₂ false]
  exact congrArg (Float.ofModel ∘ Float.Model.pack) (h.div hc hc₁.pos hc₂.pos)

theorem ten_pow_eq (k : Nat) : (10 : ℚ) ^ k = (5 ^ k : Nat) * 2 ^ k := by
  push_cast
  rw [← mul_pow]
  norm_num

theorem RoundsTo.lt_limit {m : Nat} {e : Int} (hc : Canonical m e) {q : ℚ} (h : RoundsTo m e q) :
    q < 2 ^ (1024 : Int) := by
  have hmost := hc.most
  exact (h.lt_two_zpow hc).trans_le (zpow_le_zpow_right₀ one_le_two (by omega))

theorem RoundsTo.least_le {m : Nat} {e : Int} (hc : Canonical m e) {q : ℚ} (h : RoundsTo m e q) :
    2 ^ (-1075 : Int) ≤ q := by
  have hone : (1 : ℚ) ≤ m := by exact_mod_cast hc.pos
  have hgap := gapBelow_le m e
  have hleast : (2 : ℚ) ^ (-1074 : Int) ≤ 2 ^ e := zpow_le_zpow_right₀ one_le_two hc.least
  calc (2 : ℚ) ^ (-1075 : Int) = 1 / 2 * 2 ^ (-1074 : Int) := by
        rw [show (-1075 : Int) = -1 + -1074 by rfl, zpow_add₀ two_ne_zero, zpow_neg_one]
        norm_num
    _ ≤ 1 / 2 * 2 ^ e := mul_le_mul_of_nonneg_left hleast (by norm_num)
    _ ≤ (m - gapBelow m e / 4) * 2 ^ e :=
        mul_le_mul_of_nonneg_right (by linarith) (two_zpow_pos e).le
    _ ≤ q := h.lower

/-- A decimal without a fraction. Exponents that are answered by infinity are too large here. -/
theorem RoundsTo.ofScientific_up {m : Nat} {e : Int} (hc : Canonical m e) {n k : Nat} (hn : 0 < n)
    (h : RoundsTo m e (n * 10 ^ k)) : Float.ofScientific n false k = double false hc := by
  unfold Float.ofScientific
  by_cases hfast : n < 2 ^ 53 ∧ k ≤ 22
  · have hfive : 0 < 5 ^ k := Nat.pow_pos (by decide)
    have hfits := five_pow_fits hfast.2
    rw [dif_pos hfast]
    simp only [Bool.false_eq_true, if_false]
    rw [ofNat_eq_double hn hfast.1, powerOfTen_eq_double hfast.2]
    refine double_mul hc _ _ ?_ ?_
    · rw [value_filled hn hfast.1, value_filled hfive hfits, pow_zero, mul_one, ← ten_pow_eq]
      exact h
    · exact (filled_large hn hfast.1).trans (Nat.le_mul_of_pos_right _ (filled_pos hfive))
  · -- A power that is not even computed would be out of range.
    have hbound : k < 1024 := by
      have hpower : (2 : ℚ) ^ (k : Int) ≤ n * 10 ^ k := by
        have hone : (1 : ℚ) ≤ n := by exact_mod_cast hn
        rw [zpow_natCast]
        calc (2 : ℚ) ^ k ≤ 10 ^ k := pow_le_pow_left₀ (by norm_num) (by norm_num) k
          _ ≤ n * 10 ^ k := le_mul_of_one_le_left (by positivity) hone
      have := lt_of_two_zpow_lt (hpower.trans_lt (h.lt_limit hc))
      omega
    rw [dif_neg hfast]
    simp only [Bool.false_eq_true, if_false]
    change Float.ofModel (.pack (UnpackedFloat.ofScientific Format.binary64 n (k : Int))) = _
    have hbits : (2 : Int) ^ Format.binary64.exponentBits = 2048 := rfl
    unfold UnpackedFloat.ofScientific
    rw [dif_neg hn.ne', hbits, if_neg (by omega), if_neg (by omega), if_pos (by omega)]
    have hten : 0 < 10 ^ k := Nat.pow_pos (by decide)
    have hshifted : 0 < n <<< 53 := by
      rw [Nat.shiftLeft_eq]
      omega
    refine congrArg (Float.ofModel ∘ Float.Model.pack)
      (@RoundsTo.mul m e hc (n <<< 53) (10 ^ k) (-53) 0 hshifted hten ?_ ?_)
    · rw [Nat.shiftLeft_eq, zpow_zero, mul_one, zpow_neg, Nat.cast_mul, Nat.cast_pow,
        Nat.cast_pow, Nat.cast_ofNat, Nat.cast_ofNat, mul_assoc (n : ℚ)]
      have hcancel : (2 : ℚ) ^ 53 * ((2 : ℚ) ^ (53 : Int))⁻¹ = 1 := by norm_num
      rw [hcancel, mul_one]
      exact h
    · rw [Nat.shiftLeft_eq]
      calc 2 ^ 52 ≤ n * 2 ^ 53 := by omega
        _ ≤ n * 2 ^ 53 * 10 ^ k := Nat.le_mul_of_pos_right _ hten

/-- A decimal with a fraction. Exponents that are answered by zero are too small here. -/
theorem RoundsTo.ofScientific_down {m : Nat} {e : Int} (hc : Canonical m e) {n k : Nat} (hn : 0 < n)
    (hk : 0 < k) (h : RoundsTo m e (n / 10 ^ k)) :
    Float.ofScientific n true k = double false hc := by
  unfold Float.ofScientific
  by_cases hfast : n < 2 ^ 53 ∧ k ≤ 22
  · have hfive : 0 < 5 ^ k := Nat.pow_pos (by decide)
    have hfits := five_pow_fits hfast.2
    rw [dif_pos hfast]
    simp only [if_true]
    rw [ofNat_eq_double hn hfast.1, powerOfTen_eq_double hfast.2]
    refine double_div hc _ _ ?_
    rw [value_filled hn hfast.1, value_filled hfive hfits, pow_zero, mul_one, ← ten_pow_eq]
    exact h
  · -- A power that is not even computed would leave nothing of the number.
    have hbound : k < n.log2 + 1076 := by
      have hpower : (n : ℚ) / 10 ^ k < 2 ^ (n.log2 + 1 - k : Int) := by
        have hlog : (n : ℚ) < 2 ^ (n.log2 + 1) := by exact_mod_cast Nat.lt_log2_self
        rw [div_lt_iff₀ (by positivity)]
        calc (n : ℚ) < 2 ^ (n.log2 + 1) := hlog
          _ = 2 ^ (n.log2 + 1 - k : Int) * 2 ^ k := by
            rw [← zpow_natCast, ← zpow_natCast, ← zpow_add₀ two_ne_zero]
            congr 1
            omega
          _ ≤ 2 ^ (n.log2 + 1 - k : Int) * 10 ^ k :=
            mul_le_mul_of_nonneg_left (pow_le_pow_left₀ (by norm_num) (by norm_num) k)
              (two_zpow_pos _).le
      have := lt_of_two_zpow_lt ((h.least_le hc).trans_lt hpower)
      omega
    rw [dif_neg hfast]
    simp only [if_true]
    change Float.ofModel (.pack (UnpackedFloat.ofScientific Format.binary64 n (Int.negOfNat k))) = _
    have hbits : (2 : Int) ^ Format.binary64.exponentBits = 2048 := rfl
    have hneg : Int.negOfNat k = -k := Int.negOfNat_eq
    unfold UnpackedFloat.ofScientific
    rw [dif_neg hn.ne', hbits, hneg, if_neg (by omega), if_neg (by omega), if_neg (by omega)]
    refine congrArg (Float.ofModel ∘ Float.Model.pack) (RoundsTo.div hc _ _ ?_)
    have hvalue : (n : ℚ) * 2 ^ (0 : Int) / ((10 ^ (- -(k : Int)).toNat : Nat) * 2 ^ (0 : Int)) =
        n / 10 ^ k := by
      rw [zpow_zero, mul_one, mul_one, neg_neg, Int.toNat_natCast]
      push_cast
      rfl
    rw [hvalue]
    exact h

end Scheme.Number
