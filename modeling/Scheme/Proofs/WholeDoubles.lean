import Scheme.Number.Flonum
import Scheme.Proofs.Numerals
/-!
# Small whole numbers

Whole numbers below `2 ^ 53` are counted and compared exactly.
-/

namespace Scheme.Number

open Float.Model Float.Model.UnpackedFloat

/-! ## Sums and differences -/

theorem normalize_of_pos {n : Nat} (hn : 0 < n) (e : Int) (s : Sign) :
    UnpackedFloat.normalize Format.binary64 n e s = UnpackedFloat.round Format.binary64 .positive n e := by
  have hcompare : compare (n : Int) 0 = .gt := by
    rw [Int.compare_eq_gt]
    omega
  simp only [UnpackedFloat.normalize, hcompare, Int.toNat_natCast]

/-- A number in smaller units. -/
theorem value_decreaseExponent (m : Nat) {e unit : Int} (hunit : unit ≤ e) :
    ((decreaseExponent m e unit).1 : ℚ) * 2 ^ unit = m * 2 ^ e := by
  simp only [decreaseExponent, Nat.shiftLeft_eq]
  push_cast
  rw [mul_assoc, ← zpow_natCast, ← zpow_add₀ two_ne_zero]
  congr 2
  omega

section

variable {m m₁ m₂ : Nat} {e e₁ e₂ : Int} (hc : Canonical m e) (hc₁ : Canonical m₁ e₁)
  (hc₂ : Canonical m₂ e₂)
include hc hc₁ hc₂

theorem double_add (h : RoundsTo m e (m₁ * 2 ^ e₁ + m₂ * 2 ^ e₂)) :
    double false hc₁ + double false hc₂ = double false hc := by
  change Float.ofModel (.pack (UnpackedFloat.add Format.binary64
    (Float.Model.pack (.finite (signOf false) m₁ e₁ hc₁.pos)).unpack
    (Float.Model.pack (.finite (signOf false) m₂ e₂ hc₂.pos)).unpack)) = _
  rw [unpack_pack hc₁ false, unpack_pack hc₂ false]
  refine congrArg (Float.ofModel ∘ Float.Model.pack) ?_
  rw [← value_decreaseExponent m₁ (min_le_left e₁ e₂),
    ← value_decreaseExponent m₂ (min_le_right e₁ e₂), ← add_mul, ← Nat.cast_add] at h
  have hpos : 0 < (decreaseExponent m₁ e₁ (min e₁ e₂)).1 := by
    simp only [decreaseExponent, Nat.shiftLeft_eq]
    exact Nat.mul_pos hc₁.pos (Nat.two_pow_pos _)
  exact (normalize_of_pos (Nat.add_pos_left hpos _) _ _).trans (h.round hc (by omega) .positive)

theorem double_sub (h : RoundsTo m e (m₁ * 2 ^ e₁ - m₂ * 2 ^ e₂)) :
    double false hc₁ - double false hc₂ = double false hc := by
  change Float.ofModel (.pack (UnpackedFloat.sub Format.binary64
    (Float.Model.pack (.finite (signOf false) m₁ e₁ hc₁.pos)).unpack
    (Float.Model.pack (.finite (signOf false) m₂ e₂ hc₂.pos)).unpack)) = _
  rw [unpack_pack hc₁ false, unpack_pack hc₂ false]
  refine congrArg (Float.ofModel ∘ Float.Model.pack) ?_
  have hdifference := h.pos hc
  rw [← value_decreaseExponent m₁ (min_le_left e₁ e₂),
    ← value_decreaseExponent m₂ (min_le_right e₁ e₂), ← sub_mul] at h hdifference
  have hlt : (decreaseExponent m₂ e₂ (min e₁ e₂)).1 < (decreaseExponent m₁ e₁ (min e₁ e₂)).1 := by
    have := pos_of_mul_pos_left hdifference (two_zpow_pos _).le
    exact_mod_cast sub_pos.1 this
  rw [← Nat.cast_sub hlt.le] at h
  have hround := (normalize_of_pos (Nat.sub_pos_of_lt hlt) (min e₁ e₂) .positive).trans
    (h.round hc (Nat.sub_pos_of_lt hlt).ne' .positive)
  rw [Nat.cast_sub hlt.le] at hround
  exact hround

end

/-- The zeros, which no whole number of the form `n + 1` covers, are a matter of computation. -/
theorem zero_computed :
    (-0.0 : Float).toModel.toBits.toBitVec.toNat = 2 ^ 63 ∧
      (Float.ofNat 0 + Float.ofNat 1).toBits.toNat = (Float.ofNat (0 + 1)).toBits.toNat ∧
      (Float.ofNat (0 + 1) - Float.ofNat 1).toBits.toNat = (Float.ofNat 0).toBits.toNat ∧
      (-0.0 + Float.ofNat 0).toBits.toNat = (Float.ofNat 0).toBits.toNat ∧
      (Float.ofNat 0 == Float.ofNat 0) = true := by
  decide +kernel

theorem negativeZero_add_double {m : Nat} {e : Int} (hc : Canonical m e) :
    -0.0 + double false hc = double false hc := by
  have hzero : (-0.0 : Float).toModel.unpack = .zero .negative := by
    obtain ⟨hbits, -⟩ := zero_computed
    rw [Float.Model.unpack, unpack_zero (by omega) (by omega), hbits]
    rfl
  change Float.ofModel (.pack (UnpackedFloat.add Format.binary64 (-0.0 : Float).toModel.unpack
    (Float.Model.pack (.finite (signOf false) m e hc.pos)).unpack)) = _
  rw [hzero, unpack_pack hc false]
  rfl

theorem unpack_double {m : Nat} {e : Int} (hc : Canonical m e) :
    (double false hc).toModel.unpack = .finite .positive m e hc.pos :=
  unpack_pack hc false

theorem double_ne_nan {m : Nat} {e : Int} (hc : Canonical m e) : double false hc ≠ Float.nan := by
  rw [← Float.beq_self_iff]
  change UnpackedFloat.beq (double false hc).toModel.unpack (double false hc).toModel.unpack = true
  rw [unpack_double, UnpackedFloat.beq_iff_ne_notANumber_and_eq]
  exact ⟨nofun, nofun, Or.inl rfl⟩

theorem zero_beq_double {m : Nat} {e : Int} (hc : Canonical m e) :
    ((0 : Float) == double false hc) = false := by
  change UnpackedFloat.beq (0 : Float).toModel.unpack (double false hc).toModel.unpack = false
  rw [unpack_double, unpack_zeroFloat]
  rfl

/-- Doubles of different values are different. -/
theorem double_beq_double {m m' : Nat} {e e' : Int} (hc : Canonical m e) (hc' : Canonical m' e')
    (h : (m : ℚ) * 2 ^ e ≠ m' * 2 ^ e') : (double false hc == double false hc') = false := by
  refine Bool.eq_false_iff.2 fun hbeq => h ?_
  change UnpackedFloat.beq (double false hc).toModel.unpack (double false hc').toModel.unpack =
    true at hbeq
  rw [unpack_double, unpack_double, UnpackedFloat.beq_iff_ne_notANumber_and_eq] at hbeq
  rcases hbeq.2.2 with heq | ⟨heq, -⟩ | ⟨heq, -⟩
  · cases heq
    rfl
  · cases heq
  · cases heq

/-! ## Counting -/

section

variable {n : Nat}

theorem float_ofNat_eq_double (hn : 0 < n) (hfits : n < 2 ^ 53) :
    Float.ofNat n = double false (canonical_filled hn hfits (Nat.zero_le 900)) := by
  have hself := roundsTo_self (filled n) ((0 : Nat) + n.log2 - 52)
  rw [value_filled hn hfits] at hself
  exact RoundsTo.ofScientific_up _ hn (by simpa using hself)

/-- The value of a small whole number as a double. -/
theorem value_ofNat (hn : 0 < n) (hfits : n < 2 ^ 53) :
    (filled n : ℚ) * 2 ^ ((0 : Nat) + n.log2 - 52 : Int) = n := by
  simpa using value_filled hn hfits 0

theorem ofNat_add_one (hfits : n + 1 < 2 ^ 53) :
    Float.ofNat n + Float.ofNat 1 = Float.ofNat (n + 1) := by
  cases n with
  | zero => exact eq_of_toBits_eq zero_computed.2.1
  | succ n =>
      have hsum := roundsTo_self (filled (n + 2)) ((0 : Nat) + (n + 2).log2 - 52)
      rw [float_ofNat_eq_double (Nat.succ_pos n) (by omega),
        float_ofNat_eq_double (Nat.succ_pos 0) (by omega),
        float_ofNat_eq_double (Nat.succ_pos (n + 1)) hfits]
      refine double_add _ _ _ ?_
      rw [value_ofNat (Nat.succ_pos n) (by omega), value_ofNat (Nat.succ_pos 0) (by omega)]
      rw [value_ofNat (Nat.succ_pos (n + 1)) hfits] at hsum
      exact_mod_cast hsum

theorem ofNat_sub_one (hfits : n + 1 < 2 ^ 53) :
    Float.ofNat (n + 1) - Float.ofNat 1 = Float.ofNat n := by
  cases n with
  | zero => exact eq_of_toBits_eq zero_computed.2.2.1
  | succ n =>
      have hdifference := roundsTo_self (filled (n + 1)) ((0 : Nat) + (n + 1).log2 - 52)
      rw [float_ofNat_eq_double (Nat.succ_pos n) (by omega),
        float_ofNat_eq_double (Nat.succ_pos 0) (by omega),
        float_ofNat_eq_double (Nat.succ_pos (n + 1)) hfits]
      refine double_sub _ _ _ ?_
      rw [value_ofNat (Nat.succ_pos (n + 1)) hfits, value_ofNat (Nat.succ_pos 0) (by omega)]
      rw [value_ofNat (Nat.succ_pos n) (by omega)] at hdifference
      have hvalue : ((n + 1 + 1 : Nat) : ℚ) - ((0 + 1 : Nat) : ℚ) = (n + 1 : Nat) := by
        push_cast
        ring
      rwa [hvalue]

/-- A sum begins with the zero that no number is changed by. -/
theorem negativeZero_add (hfits : n < 2 ^ 53) : -0.0 + Float.ofNat n = Float.ofNat n := by
  cases n with
  | zero => exact eq_of_toBits_eq zero_computed.2.2.2.1
  | succ n =>
      rw [float_ofNat_eq_double (Nat.succ_pos n) hfits]
      exact negativeZero_add_double _

/-! ## Comparing -/

theorem ofNat_ne_nan (hfits : n < 2 ^ 53) : Float.ofNat n ≠ Float.nan := by
  cases n with
  | zero =>
      rw [← Float.beq_self_iff]
      exact zero_computed.2.2.2.2
  | succ n =>
      rw [float_ofNat_eq_double (Nat.succ_pos n) hfits]
      exact double_ne_nan _

theorem ofNat_beq_ofNat {m : Nat} (hm : m < 2 ^ 53) (hn : n < 2 ^ 53) :
    (Float.ofNat m == Float.ofNat n) = decide (m = n) := by
  by_cases heq : m = n
  · subst heq
    rw [decide_eq_true rfl]
    exact Float.beq_self_iff.2 (ofNat_ne_nan hm)
  · rw [decide_eq_false heq]
    cases m with
    | zero =>
        rw [float_ofNat_eq_double (by omega) hn]
        exact zero_beq_double _
    | succ m =>
        rw [float_ofNat_eq_double (Nat.succ_pos m) hm]
        cases n with
        | zero => exact double_beq_zero false _
        | succ n =>
            rw [float_ofNat_eq_double (Nat.succ_pos n) hn]
            refine double_beq_double _ _ fun hsame => heq ?_
            rw [value_ofNat (Nat.succ_pos m) hm, value_ofNat (Nat.succ_pos n) hn] at hsame
            exact_mod_cast hsame

end

end Scheme.Number

/-! ## Levels -/

namespace Scheme.Flonum

open Number

theorem map₂_eq {f : Float → Float → Float} {x y : Flonum} {n : Nat}
    (hf : f x.toFloat y.toFloat = Float.ofNat n) (hfits : n < 2 ^ 53) : map₂ f x y = ofNat n := by
  have hnan : (Float.ofNat n).isNaN = false := by
    rw [Float.isNaN_eq_decide_eq_nan, decide_eq_false (ofNat_ne_nan hfits)]
  simp only [map₂, hf, hnan, Bool.false_eq_true, if_false, ofNat]

theorem add_one {n : Nat} (hfits : n + 1 < 2 ^ 53) :
    map₂ (· + ·) (map₂ (· + ·) (.float (-0.0)) (ofNat n)) (ofNat 1) = ofNat (n + 1) := by
  have hzero : map₂ (· + ·) (.float (-0.0)) (ofNat n) = ofNat n :=
    map₂_eq (negativeZero_add (by omega)) (by omega)
  rw [hzero]
  exact map₂_eq (ofNat_add_one hfits) hfits

theorem sub_one {n : Nat} (hfits : n + 1 < 2 ^ 53) :
    map₂ (· - ·) (ofNat (n + 1)) (ofNat 1) = ofNat n :=
  map₂_eq (ofNat_sub_one hfits) (by omega)

end Scheme.Flonum
