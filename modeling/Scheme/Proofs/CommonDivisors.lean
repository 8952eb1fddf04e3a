import Mathlib
import Scheme.Proofs.Traps
/-!
# Common divisors and multiples of lists

Folding the greatest common divisor over a list computes that of the list. Folding the least common
multiple wraps when a product is out of range, but no product wraps to zero or to the smallest
integer: a power of two divides a least common multiple only if it divides one of the two numbers,
and `2 ^ 63` divides no number in range other than these two. So the fold goes on with a number
that has a magnitude and is not zero, and as long as nothing wraps it is exact.
-/

namespace Scheme.Number

variable {a b n : Int64} {ns : List Int64}

theorem toInt_ne_zero (h : a ≠ 0) : a.toInt ≠ 0 := fun hzero =>
  h (Int64.toInt_inj.1 (by simpa using hzero))

theorem lt_toInt (h : a ≠ Int64.minValue) : -2 ^ 63 < a.toInt := by
  have hlow := a.le_toInt
  have hne : a.toInt ≠ -2 ^ 63 := fun hmin => h (Int64.toInt_inj.1 (by simpa using hmin))
  omega

theorem ne_minValue_of_nonneg (h : 0 ≤ a.toInt) : a ≠ Int64.minValue := by
  rintro rfl
  exact absurd h (by decide)

theorem toInt_abs_eq (h : a ≠ Int64.minValue) : a.abs.toInt = |a.toInt| := by
  have hlow := lt_toInt h
  have hhigh := a.toInt_lt
  rw [toInt_abs]
  split
  · rename_i hneg
    rw [abs_of_neg hneg, Int.bmod_eq_of_le (by omega) (by omega)]
  · rename_i hpos
    rw [abs_of_nonneg (by omega)]

/-! ## Greatest common divisors -/

theorem toInt_euclid (ha : 0 ≤ a.toInt) (hb : 0 ≤ b.toInt) :
    (euclid a b).toInt = Int.gcd a.toInt b.toInt := by
  fun_induction euclid a b with
  | case1 a => simpa using (abs_of_nonneg ha).symm
  | case2 a b hne ih =>
      have hmod : (a % b).toInt = a.toInt % b.toInt := by
        rw [Int64.toInt_mod, Int.tmod_eq_emod_of_nonneg ha]
      have hrest : 0 ≤ (a % b).toInt := by
        rw [hmod]
        exact Int.emod_nonneg _ (toInt_ne_zero hne)
      rw [ih hb hrest, hmod, Int.gcd_comm, Int.gcd_emod]

theorem toInt_gcd (ha : a ≠ Int64.minValue) (hb : b ≠ Int64.minValue) :
    (gcd a b).toInt = Int.gcd a.toInt b.toInt := by
  have ha' := toInt_abs_eq ha
  have hb' := toInt_abs_eq hb
  rw [gcd, toInt_euclid (by rw [ha']; exact abs_nonneg _) (by rw [hb']; exact abs_nonneg _), ha', hb']
  simp only [Int.gcd, Int.natAbs_abs]

/-- The integers of a list. -/
def integers (ns : List Int64) : Multiset ℤ :=
  ns.map Int64.toInt

theorem integers_cons (n : Int64) (ns : List Int64) : integers (n :: ns) = n.toInt ::ₘ integers ns :=
  rfl

theorem toInt_foldl_gcd (ha : 0 ≤ a.toInt) (hns : Int64.minValue ∉ ns) :
    (ns.foldl gcd a).toInt = GCDMonoid.gcd a.toInt (integers ns).gcd := by
  induction ns generalizing a with
  | nil => exact ((gcd_zero_right _).trans (Int.normalize_of_nonneg ha)).symm
  | cons n ns ih =>
      rw [List.mem_cons, not_or] at hns
      have hstep := toInt_gcd (ne_minValue_of_nonneg ha) (Ne.symm hns.1)
      rw [List.foldl_cons, ih (by omega) hns.2, hstep, Int.coe_gcd, integers_cons,
        Multiset.gcd_cons, gcd_assoc]

/-! ## Least common multiples -/

/-- A power of two that divides a least common multiple divides one of the numbers. -/
theorem two_pow_dvd_lcm {m n k : ℕ} (hm : m ≠ 0) (hn : n ≠ 0) (h : 2 ^ k ∣ m.lcm n) :
    2 ^ k ∣ m ∨ 2 ^ k ∣ n := by
  rw [Nat.prime_two.pow_dvd_iff_le_factorization (Nat.lcm_ne_zero hm hn),
    Nat.factorization_lcm hm hn, Finsupp.sup_apply, le_sup_iff] at h
  exact h.imp (Nat.prime_two.pow_dvd_iff_le_factorization hm).2
    (Nat.prime_two.pow_dvd_iff_le_factorization hn).2

/-- No magnitude in range is a multiple of `2 ^ 63`. -/
theorem not_two_pow_dvd (ha : a ≠ Int64.minValue) (hzero : a ≠ 0) : ¬ 2 ^ 63 ∣ a.toInt.natAbs := by
  intro h
  have hlow := lt_toInt ha
  have hhigh := a.toInt_lt
  have hne := toInt_ne_zero hzero
  have hle := Nat.le_of_dvd (by omega) h
  omega

/-- What wraps to zero or to an end of the range is a multiple of `2 ^ 63`. -/
theorem two_pow_dvd_of_bmod {p : ℤ} (h : 2 ^ 63 ∣ p.bmod (2 ^ 64)) : (2 : ℤ) ^ 63 ∣ p := by
  rw [← Int.bmod_add_bdiv p (2 ^ 64)]
  exact dvd_add h (Dvd.dvd.mul_right (by norm_num) _)

/-- The product of one number and the cofactor of the other. -/
theorem natAbs_cofactor_mul (x y : ℤ) : (x / Int.gcd x y * y).natAbs = Int.lcm x y := by
  obtain ⟨k, hk⟩ := Int.gcd_dvd_left x y
  by_cases hgcd : Int.gcd x y = 0
  · obtain ⟨rfl, rfl⟩ := Int.gcd_eq_zero_iff.1 hgcd
    rfl
  have hcofactor : x / Int.gcd x y = k :=
    Int.ediv_eq_of_eq_mul_right (Int.natCast_ne_zero.2 hgcd) hk
  have hproduct := Int.lcm_mul_gcd x y
  rw [hcofactor, Int.natAbs_mul]
  refine Nat.eq_of_mul_eq_mul_right (Nat.pos_of_ne_zero hgcd) (Eq.trans ?_ hproduct.symm)
  have hx : x.natAbs = Int.gcd x y * k.natAbs := by
    conv_lhs => rw [hk]
    rw [Int.natAbs_mul, Int.natAbs_natCast]
  rw [hx]
  ring

theorem toInt_cofactor (ha : a ≠ Int64.minValue) (hb : b ≠ Int64.minValue) :
    (a / gcd a b).toInt = a.toInt / Int.gcd a.toInt b.toInt := by
  rw [Int64.toInt_div_of_ne_left _ _ ha, toInt_gcd ha hb,
    Int.tdiv_eq_ediv_of_dvd (Int.gcd_dvd_left _ _)]

/-- The least common multiple of two numbers with magnitudes has a magnitude, and is not zero
unless one of them is. It is exact if it is in range. -/
theorem lcm?_spec (ha : a ≠ Int64.minValue) (hb : b ≠ Int64.minValue) : ∃ n, lcm? a b = some n ∧
    0 ≤ n.toInt ∧ (n = 0 ↔ a = 0 ∨ b = 0) ∧
    (Int.lcm a.toInt b.toInt < 2 ^ 63 → n.toInt = Int.lcm a.toInt b.toInt) := by
  rw [lcm?_eq, if_neg fun h => ha h.1]
  refine ⟨_, rfl, ?_⟩
  unfold wrappedLcm
  by_cases hzero : a = 0 ∨ b = 0
  · have hlcm : Int.lcm a.toInt b.toInt = 0 := by
      rcases hzero with rfl | rfl <;> simp
    rw [if_pos hzero, hlcm]
    exact ⟨Int.le_refl 0, iff_of_true rfl hzero, fun _ => rfl⟩
  rw [if_neg hzero]
  rw [not_or] at hzero
  set product := a / gcd a b * b with hproduct
  have habs := natAbs_cofactor_mul a.toInt b.toInt
  set unwrapped := a.toInt / Int.gcd a.toInt b.toInt * b.toInt with hexact
  have hwraps : product.toInt = unwrapped.bmod (2 ^ 64) := by
    rw [hproduct, Int64.toInt_mul, toInt_cofactor ha hb]
  have hpower : ¬ (2 : ℤ) ^ 63 ∣ product.toInt := by
    intro hdvd
    rw [hwraps] at hdvd
    have hlcm : 2 ^ 63 ∣ Int.lcm a.toInt b.toInt := by
      rw [← habs]
      exact Int.natCast_dvd.1 (two_pow_dvd_of_bmod hdvd)
    rcases two_pow_dvd_lcm (Int.natAbs_ne_zero.2 (toInt_ne_zero hzero.1))
      (Int.natAbs_ne_zero.2 (toInt_ne_zero hzero.2)) hlcm with h | h
    · exact not_two_pow_dvd ha hzero.1 h
    · exact not_two_pow_dvd hb hzero.2 h
  have hmin : product ≠ Int64.minValue := by
    intro h
    rw [h] at hpower
    exact hpower (by decide)
  have hne : product.toInt ≠ 0 := fun h => hpower (by rw [h]; exact dvd_zero _)
  have hmagnitude := toInt_abs_eq hmin
  refine ⟨by rw [hmagnitude]; exact abs_nonneg _, ?_, fun hrange => ?_⟩
  · refine iff_of_false (fun h => hne ?_) (not_or.2 hzero)
    rw [h] at hmagnitude
    exact abs_eq_zero.1 hmagnitude.symm
  · rw [hmagnitude, hwraps, Int.bmod_eq_of_le (by omega) (by omega), Int.abs_eq_natAbs, habs]

theorem foldlM_lcm_spec (ha : a ≠ Int64.minValue) (hns : Int64.minValue ∉ ns) :
    ∃ n, ns.foldlM lcm? a = some n ∧ n ≠ Int64.minValue ∧ (n = 0 ↔ a = 0 ∨ 0 ∈ ns) := by
  induction ns generalizing a with
  | nil => exact ⟨a, rfl, ha, by simp⟩
  | cons m ns ih =>
      rw [List.mem_cons, not_or] at hns
      obtain ⟨c, hc, hnonneg, hzero, -⟩ := lcm?_spec ha (Ne.symm hns.1)
      obtain ⟨n, hn, hmin, hiff⟩ := ih (ne_minValue_of_nonneg hnonneg) hns.2
      refine ⟨n, by rw [List.foldlM_cons, hc]; exact hn, hmin, ?_⟩
      rw [hiff, hzero, List.mem_cons, or_assoc, eq_comm (a := (0 : Int64))]

theorem lcm_nonneg (x : ℤ) (s : Multiset ℤ) : 0 ≤ GCDMonoid.lcm x s.lcm := by
  rw [← Int.coe_lcm]
  exact Int.natCast_nonneg _

/-- Without a zero in the list, no least common multiple on the way exceeds the last one. -/
theorem toInt_foldlM_lcm (ha : 0 < a.toInt) (hns : Int64.minValue ∉ ns) (hzero : 0 ∉ ns)
    (hrange : GCDMonoid.lcm a.toInt (integers ns).lcm < 2 ^ 63) :
    ∃ n, ns.foldlM lcm? a = some n ∧ n.toInt = GCDMonoid.lcm a.toInt (integers ns).lcm := by
  induction ns generalizing a with
  | nil => exact ⟨a, rfl, ((lcm_one_right _).trans (Int.normalize_of_nonneg ha.le)).symm⟩
  | cons m ns ih =>
      rw [List.mem_cons, not_or] at hns hzero
      rw [integers_cons, Multiset.lcm_cons, ← lcm_assoc, ← Int.coe_lcm a.toInt] at hrange ⊢
      obtain ⟨c, hc, hnonneg, hiff, hexact⟩ :=
        lcm?_spec (ne_minValue_of_nonneg ha.le) (Ne.symm hns.1)
      have hne : GCDMonoid.lcm (Int.lcm a.toInt m.toInt : ℤ) (integers ns).lcm ≠ 0 := by
        rw [Ne, lcm_eq_zero_iff, Multiset.lcm_eq_zero_iff, Int.natCast_eq_zero, Int.lcm_eq_zero_iff]
        rintro ((h | h) | h)
        · exact ha.ne' h
        · exact toInt_ne_zero (Ne.symm hzero.1) h
        · obtain ⟨x, hx, hx'⟩ := List.mem_map.1 (Multiset.mem_coe.1 h)
          exact toInt_ne_zero (fun h => hzero.2 (h ▸ hx)) hx'
      have hle := Int.le_of_dvd (lt_of_le_of_ne (lcm_nonneg _ _) hne.symm)
        (dvd_lcm_left (Int.lcm a.toInt m.toInt : ℤ) (integers ns).lcm)
      have hc' : c.toInt = Int.lcm a.toInt m.toInt := hexact (by omega)
      have hpos : 0 < c.toInt := by
        refine lt_of_le_of_ne hnonneg fun h => ?_
        rcases hiff.1 (Int64.toInt_inj.1 h.symm) with rfl | rfl
        · exact lt_irrefl _ ha
        · exact hzero.1 rfl
      rw [← hc'] at hrange ⊢
      obtain ⟨n, hn, hn'⟩ := ih hpos hns.2 hzero.2 hrange
      exact ⟨n, by rw [List.foldlM_cons, hc]; exact hn, hn'⟩

end Scheme.Number

namespace Scheme.NumberOperation

/-- The whole parts of numbers, as 64-bit integers. -/
def wholeParts (xs : List Flonum) : List Int64 :=
  xs.map fun x => Number.toInt64 x.toFloat

theorem perform_gcd (xs : List Flonum) (w : World) : perform .gcd (xs.map .number) w =
    .value (.number (.ofInt64 ((wholeParts xs).foldl Number.gcd 0))) w := by
  simp only [perform, bind, Action.bind, numbers_map, wholeParts, List.foldl_map]
  rfl

theorem perform_lcm {xs : List Flonum} {n : Int64}
    (h : (wholeParts xs).foldlM Number.lcm? 1 = some n) (w : World) :
    perform .lcm (xs.map .number) w = .value (.number (.ofInt64 n)) w := by
  rw [wholeParts, List.foldlM_map] at h
  simp only [perform, bind, Action.bind, numbers_map, lcmAll, h]
  rfl

end Scheme.NumberOperation

namespace Scheme.Number

/-- Folding the greatest common divisor and the least common multiple over a list of integers with
magnitudes: the former is exact in any order; the latter always goes on, with a number that has a
magnitude and is zero only if one in the list is, and is exact if the exact answer is in range. The
primitives fold over the whole parts of their arguments. -/
theorem common_divisors_and_multiples (ns : List Int64) (hns : Int64.minValue ∉ ns) :
    ((ns.foldl gcd 0).toInt = (integers ns).gcd ∧ 0 ≤ (ns.foldl gcd 0).toInt ∧
      ∀ ms : List Int64, ms.Perm ns → ms.foldl gcd 0 = ns.foldl gcd 0) ∧
    (∀ front, front <+: ns → ∃ n, front.foldlM lcm? 1 = some n ∧ n ≠ Int64.minValue ∧
      (n = 0 → 0 ∈ ns)) ∧
    ((integers ns).lcm < 2 ^ 63 → ∃ n, ns.foldlM lcm? 1 = some n ∧ n.toInt = (integers ns).lcm) ∧
    ∀ (xs : List Flonum) (w : World), NumberOperation.wholeParts xs = ns →
      NumberOperation.gcd.perform (xs.map .number) w =
        .value (.number (.ofInt64 (ns.foldl gcd 0))) w ∧
      ∃ n, ns.foldlM lcm? 1 = some n ∧
        NumberOperation.lcm.perform (xs.map .number) w = .value (.number (.ofInt64 n)) w := by
  have hgcd : ∀ ms : List Int64, ms.Perm ns → (ms.foldl gcd 0).toInt = (integers ns).gcd := by
    intro ms hperm
    have hms : Int64.minValue ∉ ms := fun h => hns (hperm.mem_iff.1 h)
    have hsame : integers ms = integers ns := Multiset.coe_eq_coe.2 (hperm.map _)
    rw [toInt_foldl_gcd (Int.le_refl _) hms, hsame]
    exact (gcd_zero_left _).trans (Multiset.normalize_gcd _)
  refine ⟨⟨hgcd ns (.refl ns), ?_, fun ms hperm => ?_⟩, fun front hfront => ?_, fun hrange => ?_,
    fun xs w hxs => ?_⟩
  · rw [hgcd ns (.refl ns), ← Multiset.normalize_gcd, ← Int.abs_eq_normalize]
    exact abs_nonneg _
  · exact Int64.toInt_inj.1 ((hgcd ms hperm).trans (hgcd ns (.refl ns)).symm)
  · obtain ⟨n, hn, hmin, hiff⟩ :=
      foldlM_lcm_spec (a := 1) (by decide) fun h => hns (hfront.subset h)
    exact ⟨n, hn, hmin, fun h => hfront.subset ((hiff.1 h).resolve_left (by decide))⟩
  · by_cases hzero : 0 ∈ ns
    · obtain ⟨n, hn, -, hiff⟩ := foldlM_lcm_spec (a := 1) (by decide) hns
      refine ⟨n, hn, ?_⟩
      rw [hiff.2 (Or.inr hzero)]
      have hmem : (0 : ℤ) ∈ integers ns := Multiset.mem_coe.2 (List.mem_map.2 ⟨0, hzero, rfl⟩)
      exact ((Multiset.lcm_eq_zero_iff _).2 hmem).symm
    · have hone : GCDMonoid.lcm (1 : Int64).toInt (integers ns).lcm = (integers ns).lcm :=
        (lcm_one_left _).trans (Multiset.normalize_lcm _)
      obtain ⟨n, hn, hexact⟩ :=
        toInt_foldlM_lcm (a := 1) (by decide) hns hzero (by rw [hone]; exact hrange)
      exact ⟨n, hn, hexact.trans hone⟩
  · subst hxs
    obtain ⟨n, hn, -⟩ := foldlM_lcm_spec (a := 1) (by decide) hns
    exact ⟨NumberOperation.perform_gcd xs w, n, hn, NumberOperation.perform_lcm hn w⟩

/-- The product of these two is out of range: it wraps to a number that has a magnitude. -/
theorem common_multiple_of_wide_factors : ∃ n,
    [3037000500, 3037000501].foldlM lcm? 1 = some n ∧ n ≠ Int64.minValue ∧ n ≠ 0 := by
  obtain ⟨-, hfronts, -⟩ := common_divisors_and_multiples [3037000500, 3037000501] (by decide)
  obtain ⟨n, hn, hmin, hzero⟩ := hfronts _ (List.prefix_refl _)
  exact ⟨n, hn, hmin, fun h => absurd (hzero h) (by decide)⟩

end Scheme.Number
