import Scheme.Interpreter
import Scheme.Proofs.Numerals
/-!
# Numerals in other radices

A whole number that fits 64 bits is written as its canonical numeral, which is read back as a
number that is equal to it. Larger ones are written as the nearer end of the range.
-/

namespace Scheme.Number

open Float.Model Float.Model.UnpackedFloat

/-! ## Whole doubles -/

/-- The double is finite, and is the integer. -/
def IsInteger (x : Float) (n : Int) : Prop :=
  x.isFinite = true ∧ ∃ negative m e, Binary.ofFloat x = .finite negative m e ∧
    ((signed negative m : Int) : ℚ) * 2 ^ e = n

variable {x : Float} {n : Int}

theorem cast_signed (negative : Bool) (m : Nat) :
    ((signed negative m : Int) : ℚ) = if negative then -(m : ℚ) else m := by
  cases negative <;> simp [signed]

/-- The magnitude of a whole double, without rounding. -/
theorem IsInteger.magnitude {negative : Bool} {m : Nat} {e : Int}
    (h : ((signed negative m : Int) : ℚ) * 2 ^ e = n) :
    (m : ℚ) * 2 ^ e = n.natAbs ∧ (n ≠ 0 → negative = decide (n < 0)) := by
  have hpos := two_zpow_pos e
  have hm : (0 : ℚ) ≤ m * 2 ^ e := mul_nonneg (Nat.cast_nonneg m) hpos.le
  rw [cast_signed] at h
  cases negative with
  | true =>
      rw [if_pos rfl, neg_mul] at h
      have hn : (n : ℚ) ≤ 0 := by rw [← h]; exact neg_nonpos.2 hm
      have hn' : n ≤ 0 := by exact_mod_cast hn
      have habs : ((n.natAbs : Int) : ℚ) = -n := by
        rw [Int.ofNat_natAbs_of_nonpos hn']
        push_cast
        rfl
      refine ⟨?_, fun hne => (decide_eq_true (by omega)).symm⟩
      rw [← Int.cast_natCast (R := ℚ) n.natAbs, habs, ← h, neg_neg]
  | false =>
      rw [if_neg (by simp)] at h
      have hn : (0 : ℚ) ≤ n := by rw [← h]; exact hm
      have hn' : 0 ≤ n := by exact_mod_cast hn
      have habs : ((n.natAbs : Int) : ℚ) = n := by rw [Int.natAbs_of_nonneg hn']
      refine ⟨?_, fun _ => (decide_eq_false (by omega)).symm⟩
      rw [← Int.cast_natCast (R := ℚ) n.natAbs, habs, ← h]

theorem wholePart_of_eq {m k : Nat} {e : Int} (h : (m : ℚ) * 2 ^ e = k) :
    wholePart m e = k ∧ ∀ e', e = .negSucc e' → m % (1 <<< (e' + 1)) = 0 := by
  cases e with
  | ofNat e =>
      refine ⟨?_, fun _ he => by cases he⟩
      rw [Int.ofNat_eq_natCast, zpow_natCast] at h
      rw [wholePart, Nat.shiftLeft_eq]
      exact_mod_cast h
  | negSucc e =>
      have hpos : (0 : ℚ) < 2 ^ (e + 1) := by positivity
      rw [zpow_negSucc, ← div_eq_mul_inv, div_eq_iff hpos.ne'] at h
      have hm : m = k * 2 ^ (e + 1) := by exact_mod_cast h
      refine ⟨?_, fun e' he => ?_⟩
      · rw [wholePart, Nat.shiftRight_eq_div_pow, hm, Nat.mul_div_cancel _ (Nat.two_pow_pos _)]
      · cases he
        rw [Nat.one_shiftLeft, hm, Nat.mul_mod_left]

theorem IsInteger.isWhole (h : IsInteger x n) : isWhole x = true := by
  obtain ⟨-, negative, m, e, hx, hvalue⟩ := h
  obtain ⟨-, hrest⟩ := wholePart_of_eq (IsInteger.magnitude hvalue).1
  unfold Number.isWhole
  rw [hx]
  cases e with
  | ofNat => rfl
  | negSucc e => simpa using hrest e rfl

theorem signed_natAbs (n : Int) : signed (decide (n < 0)) n.natAbs = n := by
  unfold signed
  split
  · rename_i hneg
    have := of_decide_eq_true hneg
    omega
  · rename_i hpos
    have := of_decide_eq_false (Bool.eq_false_iff.2 hpos)
    omega

theorem IsInteger.toInt64_eq (h : IsInteger x n) : toInt64 x = Int64.ofIntClamp n := by
  obtain ⟨-, negative, m, e, hx, hvalue⟩ := h
  obtain ⟨hmagnitude, hsign⟩ := IsInteger.magnitude hvalue
  rw [toInt64, hx]
  simp only [(wholePart_of_eq hmagnitude).1]
  congr 1
  by_cases hn : n = 0
  · subst hn
    cases negative <;> rfl
  · rw [hsign hn, signed_natAbs]

/-- The double is a zero, or a sign and a magnitude that determine it. -/
theorem IsInteger.cases (h : IsInteger x n) :
    (n = 0 ∧ ∃ negative, x.toModel.unpack = .zero (signOf negative)) ∨
    (n ≠ 0 ∧ ∃ m e, ∃ hc : Canonical m e, x = double (decide (n < 0)) hc ∧
      (m : ℚ) * 2 ^ e = n.natAbs) := by
  obtain ⟨hfinite, negative, m, e, hx, hvalue⟩ := h
  rcases cases_of_isFinite hfinite with ⟨negative', hx', hzero⟩ | ⟨negative', m', e', hc, hx', rfl⟩
  · cases hx.symm.trans hx'
    refine Or.inl ⟨?_, negative, hzero⟩
    have hn : (0 : ℚ) = n := by rw [← hvalue, cast_signed]; cases negative <;> simp
    exact_mod_cast hn.symm
  · cases hx.symm.trans hx'
    obtain ⟨hmagnitude, hsign⟩ := IsInteger.magnitude hvalue
    have hpos : (0 : ℚ) < m * 2 ^ e := mul_pos (Nat.cast_pos.2 hc.pos) (two_zpow_pos e)
    have hn : n ≠ 0 := by
      rintro rfl
      rw [hmagnitude] at hpos
      exact lt_irrefl _ hpos
    exact Or.inr ⟨hn, m, e, hc, by rw [hsign hn], hmagnitude⟩

theorem IsInteger.lt_zero (h : IsInteger x n) : decide (x < 0) = decide (n < 0) := by
  have hlt : decide (x < 0) = UnpackedFloat.lt x.toModel.unpack (0 : Float).toModel.unpack := by
    have hbool : decide (x < 0) = x.lt 0 := by
      cases h : x.lt 0 <;> simp [LT.lt, h]
    rw [hbool]
    change decide (UnpackedFloat.lt x.toModel.unpack (0 : Float).toModel.unpack = true) = _
    exact Bool.decide_eq_true
  rw [hlt, unpack_zeroFloat]
  rcases h.cases with ⟨rfl, negative, hzero⟩ | ⟨-, m, e, hc, rfl, -⟩
  · rw [hzero]
    rfl
  · change UnpackedFloat.lt (Float.Model.pack (.finite (signOf _) m e hc.pos)).unpack _ = _
    rw [unpack_pack hc]
    cases decide (n < 0) <;> rfl

/-- The double nearest to an integer that is a double is equal to it. -/
theorem IsInteger.ofInt_beq (h : IsInteger x n) : (Float.ofInt n == x) = true := by
  have hnan : x ≠ Float.nan := by
    rintro rfl
    exact absurd h.1 (by rw [zero_and_nan_computed.2.1]; simp)
  rcases h.cases with ⟨rfl, negative, hzero⟩ | ⟨hn, m, e, hc, hx, hvalue⟩
  · change UnpackedFloat.beq (0 : Float).toModel.unpack x.toModel.unpack = true
    rw [unpack_zeroFloat, hzero]
    rfl
  · have hself := roundsTo_self m e
    rw [hvalue] at hself
    have hofNat : Float.ofNat n.natAbs = double false hc :=
      RoundsTo.ofScientific_up hc (by omega) (by simpa using hself)
    have heq : Float.ofInt n = x := by
      rw [hx]
      rcases lt_or_ge n 0 with hneg | hpos
      · obtain ⟨k, rfl⟩ := Int.eq_negSucc_of_lt_zero hneg
        rw [decide_eq_true hneg, ← neg_double hc, ← hofNat, Int.natAbs_negSucc]
        rfl
      · obtain ⟨k, rfl⟩ := Int.eq_ofNat_of_zero_le hpos
        rw [decide_eq_false (by omega), ← hofNat, Int.natAbs_natCast]
        rfl
    rw [heq, Float.beq_self_iff]
    exact hnan

/-! ## Numerals -/

/-- The digits up to thirty-six, in lower case. -/
def digitTable : List Char :=
  "0123456789abcdefghijklmnopqrstuvwxyz".toList

/-- The canonical numeral of an integer: a sign for a negative one, and no leading zeros. -/
def numeral (radix : Nat) (n : Int) : List Char :=
  withSign (n < 0)
    (if n = 0 then ['0'] else (radix.digits n.natAbs).reverse.map fun d => digitTable.getD d '?')

theorem digitChar_spec : ∀ d < 36, digitChar d = digitTable.getD d '?' ∧
    digitValue? (digitChar d) = some d ∧ digitChar d ≠ '-' ∧ digitChar d ≠ '+' := by
  decide

theorem radixDigits_eq {radix : Nat} (hradix : 1 < radix) (n : Nat) (tail : List Char) :
    radixDigits radix n tail =
      (if n = 0 then ['0'] else (radix.digits n).reverse.map digitChar) ++ tail := by
  induction n using Nat.strong_induction_on generalizing tail with
  | _ n ih =>
      rw [radixDigits]
      split
      · rename_i hsmall
        have hn : n < radix := hsmall.resolve_right (by omega)
        by_cases hzero : n = 0
        · subst hzero
          rfl
        · rw [if_neg hzero, Nat.digits_of_lt radix n hzero hn]
          rfl
      · rename_i hlarge
        have hn : radix ≤ n := by omega
        have hquotient : n / radix ≠ 0 := (Nat.div_pos hn (by omega)).ne'
        have hpos : 0 < n := by omega
        have hdigits : radix.digits n = n % radix :: radix.digits (n / radix) :=
          Nat.digits_def' hradix hpos
        rw [ih (n / radix) (Nat.div_lt_self hpos hradix), if_neg hquotient, if_neg hpos.ne', hdigits]
        simp

theorem ofRadixDigits_eq {radix : Nat} (hradix : radix ≤ 36) (ds : List Nat)
    (hds : ∀ d ∈ ds, d < radix) (acc : Nat) :
    (ds.reverse.map digitChar).foldlM
        (fun n c => (digitValue? c).bind fun d => if d < radix then some (radix * n + d) else none)
        acc =
      some (acc * radix ^ ds.length + Nat.ofDigits radix ds) := by
  induction ds generalizing acc with
  | nil => simp
  | cons d ds ih =>
      have hd := hds d List.mem_cons_self
      rw [List.reverse_cons, List.map_append, List.foldlM_append,
        ih fun d hd => hds d (List.mem_cons_of_mem _ hd)]
      simp only [List.map_cons, List.map_nil, List.foldlM_cons, List.foldlM_nil, Option.bind_eq_bind,
        Option.bind_some, (digitChar_spec d (by omega)).2.1, if_pos hd, Nat.ofDigits_cons,
        List.length_cons]
      congr 1
      ring

/-- The nearest integer in the range of 64 bits. -/
def clamp (n : Int) : Int :=
  max (-2 ^ 63) (min n (2 ^ 63 - 1))

theorem clamp_eq (hlow : -2 ^ 63 ≤ n) (hhigh : n < 2 ^ 63) : clamp n = n := by
  unfold clamp
  omega

theorem toInt_ofIntClamp (n : Int) : (Int64.ofIntClamp n).toInt = clamp n := by
  have hmin : Int64.minValue.toInt = -2 ^ 63 := rfl
  have hmax : Int64.maxValue.toInt = 2 ^ 63 - 1 := rfl
  unfold Int64.ofIntClamp clamp
  split
  · split
    · rename_i hlow hhigh
      rw [Int64.toInt_ofIntLE]
      omega
    · rw [hmax]
      omega
  · rw [hmin]
    omega

/-- A whole number is written as the numeral of the nearest integer in range. -/
theorem toRadixText_eq (h : IsInteger x n) {radix : Nat} (hradix : isRadix radix = true) :
    (toRadixText x radix).toList = numeral radix (clamp n) := by
  obtain ⟨hleast, hmost⟩ : 2 ≤ radix ∧ radix ≤ 36 := by simpa [isRadix] using hradix
  have hsign : decide (n < 0) = decide (clamp n < 0) := by
    unfold clamp
    exact decide_eq_decide.2 (by omega)
  rw [toRadixText, String.toList_ofList, h.toInt64_eq, toInt_ofIntClamp, h.lt_zero, hsign,
    radixDigits_eq hleast, List.append_nil, numeral]
  congr 1
  by_cases hn : clamp n = 0
  · rw [if_pos hn, if_pos (Int.natAbs_eq_zero.2 hn)]
  · rw [if_neg hn, if_neg (mt Int.natAbs_eq_zero.1 hn)]
    refine List.map_congr_left fun d hd => (digitChar_spec d ?_).1
    exact (Nat.digits_lt_base hleast (List.mem_reverse.1 hd)).trans_le hmost

theorem takeSign_withSign_cons {negative : Bool} {c : Char} {rest : List Char} (hminus : c ≠ '-')
    (hplus : c ≠ '+') : takeSign (withSign negative (c :: rest)) = (negative, c :: rest) := by
  cases negative with
  | true => rfl
  | false =>
      rw [withSign, if_neg Bool.false_ne_true, takeSign]
      · exact fun _ h => hminus (List.cons.inj h).1
      · exact fun _ h => hplus (List.cons.inj h).1

theorem exists_digits {radix : Nat} (hradix : isRadix radix = true) (n : Int) : ∃ ds : List Nat,
    ds ≠ [] ∧ (∀ d ∈ ds, d < radix) ∧ Nat.ofDigits radix ds = n.natAbs ∧
      numeral radix n = withSign (n < 0) (ds.reverse.map digitChar) := by
  obtain ⟨hleast, hmost⟩ : 2 ≤ radix ∧ radix ≤ 36 := by simpa [isRadix] using hradix
  by_cases hn : n = 0
  · subst hn
    exact ⟨[0], List.cons_ne_nil _ _, by simp; omega, rfl, rfl⟩
  · have hdigits : ∀ d ∈ radix.digits n.natAbs, d < radix := fun d => Nat.digits_lt_base hleast
    refine ⟨radix.digits n.natAbs, ?_, hdigits, Nat.ofDigits_digits radix n.natAbs, ?_⟩
    · exact Nat.digits_ne_nil_iff_ne_zero.2 (Int.natAbs_ne_zero.2 hn)
    · rw [numeral, if_neg hn]
      refine congrArg (withSign _) (List.map_congr_left fun d hd => ?_)
      exact (digitChar_spec d ((hdigits d (List.mem_reverse.1 hd)).trans_le hmost)).1.symm

/-- A numeral of an integer in range is read as the integer. -/
theorem ofRadixText?_numeral {radix : Nat} (hradix : isRadix radix = true) (hlow : -2 ^ 63 ≤ n)
    (hhigh : n < 2 ^ 63) : ofRadixText? (numeral radix n) radix = some (Float.ofInt n) := by
  obtain ⟨hleast, hmost⟩ : 2 ≤ radix ∧ radix ≤ 36 := by simpa [isRadix] using hradix
  obtain ⟨ds, hne, hds, hvalue, htext⟩ := exists_digits hradix n
  obtain ⟨d, others, hreverse⟩ := List.exists_cons_of_ne_nil (mt List.reverse_eq_nil_iff.1 hne)
  have hd : d < 36 := by
    have hmem : d ∈ ds := List.mem_reverse.1 (hreverse ▸ List.mem_cons_self)
    exact (hds d hmem).trans_le hmost
  obtain ⟨-, -, hminus, hplus⟩ := digitChar_spec d hd
  have hsign : takeSign (numeral radix n) = (decide (n < 0), ds.reverse.map digitChar) := by
    rw [htext, hreverse, List.map_cons]
    exact takeSign_withSign_cons hminus hplus
  have hread : ofRadixDigits? radix (ds.reverse.map digitChar) = some n.natAbs := by
    rw [ofRadixDigits?, ofRadixDigits_eq hmost ds hds, hvalue, Nat.zero_mul, Nat.zero_add]
  have hempty : (ds.reverse.map digitChar).isEmpty = false := by
    rw [hreverse]
    rfl
  simp only [ofRadixText?, hsign, hempty, hread, Option.bind_some, signed_natAbs, Bool.false_eq_true,
    if_false]
  exact if_pos ⟨hlow, Int.le_of_lt_add_one hhigh⟩

end Scheme.Number

namespace Scheme.NumberOperation

open Number

variable {x : Float} {n : Int} {y : Flonum} {radix : Nat}

theorem radixOf_eq (hy : toIndex? y.toFloat = some radix) (v : Value) (w : World) :
    radixOf [v, .number y] w = .value radix w := by
  simp only [radixOf, World.index, World.number, World.flonum, World.expect, bind, Action.bind, pure,
    Action.pure, hy]

/-- The world with one string more. -/
def withText (w : World) (text : List Char) : World :=
  { w with heap := (w.heap.addString text.toArray).2 }

theorem string_withText (w : World) (text : List Char) :
    ((withText w text).heap.string ⟨w.heap.strings.size⟩).toList = text := by
  simp [withText, Heap.string, Heap.addString]

theorem perform_toText (hx : IsInteger x n) (hy : toIndex? y.toFloat = some radix)
    (hradix : isRadix radix = true) (hten : radix ≠ 10) (w : World) :
    toText.perform [.number (.float x), .number y] w =
      .value (.string ⟨w.heap.strings.size⟩) (withText w (numeral radix (clamp n))) := by
  change (radixOf [.number (.float x), .number y] >>= fun r => World.number (.number (.float x)) >>=
    fun m => toTextIn m r) w = _
  simp only [bind, Action.bind, radixOf_eq hy, World.number, World.flonum, World.expect, pure,
    Action.pure, Flonum.toFloat, toTextIn, if_neg hten, hradix, hx.isWhole, Bool.and_self, if_true,
    toRadixText_eq hx hradix]
  rfl

theorem perform_ofText (hy : toIndex? y.toFloat = some radix) (hradix : isRadix radix = true)
    (hten : radix ≠ 10) (hlow : -2 ^ 63 ≤ n) (hhigh : n < 2 ^ 63) {w : World} {s : Ref .string}
    (hs : (w.heap.string s).toList = numeral radix n) :
    ofText.perform [.string s, .number y] w = .value (.number (.float (Float.ofInt n))) w := by
  change (radixOf [.string s, .number y] >>= fun r => World.textOf (.string s) >>=
    fun text => pure (ofTextIn text r)) w = _
  simp only [bind, Action.bind, radixOf_eq hy, World.textOf, World.string, World.expect, pure,
    Action.pure, World.look, ofTextIn, if_neg hten, hradix, if_true, String.toList_ofList, hs,
    ofRadixText?_numeral hradix hlow hhigh]

/-- A whole number in the range of 64 bits is written as its canonical numeral, and the text is read
as a number equal to it. A whole number out of range is written as the nearer end of the range. -/
theorem radix_text_reads_back (hx : IsInteger x n) (hy : toIndex? y.toFloat = some radix)
    (hradix : 2 ≤ radix ∧ radix ≤ 36) (hten : radix ≠ 10) (w : World) : ∃ ref w',
    toText.perform [.number (.float x), .number y] w = .value (.string ref) w' ∧
    (w'.heap.string ref).toList = numeral radix (clamp n) ∧
    (-2 ^ 63 ≤ n → n < 2 ^ 63 → (w'.heap.string ref).toList = numeral radix n ∧
      ∀ w'' s, (w''.heap.string s).toList = (w'.heap.string ref).toList → ∃ z,
        ofText.perform [.string s, .number y] w'' = .value (.number (.float z)) w'' ∧
          (z == x) = true) := by
  have hradix' : isRadix radix = true := by simpa [isRadix] using hradix
  refine ⟨_, _, perform_toText hx hy hradix' hten w, string_withText w _, fun hlow hhigh => ?_⟩
  rw [string_withText, clamp_eq hlow hhigh]
  exact ⟨rfl, fun w'' s hs => ⟨Float.ofInt n, perform_ofText hy hradix' hten hlow hhigh hs,
    hx.ofInt_beq⟩⟩

/-- The numeral of a negative number. -/
theorem radix_text_of_negative : ∃ ref w',
    toText.perform [.number (.float (-255)), .number (.float 16)] (World.bare World.nowhere) =
      .value (.string ref) w' ∧ (w'.heap.string ref).toList = ['-', 'f', 'f'] := by
  have hx : IsInteger (-255) (-255) :=
    ⟨by decide +kernel, true, 255 * 2 ^ 45, -45, rfl, by norm_num [signed]⟩
  have hy : toIndex? (Flonum.float 16).toFloat = some 16 := by decide +kernel
  obtain ⟨ref, w', hperform, htext, -⟩ :=
    radix_text_reads_back hx hy (by decide) (by decide) (World.bare World.nowhere)
  exact ⟨ref, w', hperform, htext.trans (by decide +kernel)⟩

/-- A number out of range is written as another one. -/
theorem radix_text_of_large : ∃ ref w', IsInteger 1e20 (10 ^ 20) ∧
    toText.perform [.number (.float 1e20), .number (.float 16)] (World.bare World.nowhere) =
      .value (.string ref) w' ∧ (w'.heap.string ref).toList ≠ numeral 16 (10 ^ 20) := by
  have hx : IsInteger 1e20 (10 ^ 20) :=
    ⟨by decide +kernel, false, 6103515625000000, 14, rfl, by norm_num [signed]⟩
  have hy : toIndex? (Flonum.float 16).toFloat = some 16 := by decide +kernel
  have hlarge : numeral 16 (clamp (10 ^ 20)) ≠ numeral 16 (10 ^ 20) := by decide +kernel
  refine ⟨_, _, hx, perform_toText hx hy rfl (by decide) _, ?_⟩
  rwa [string_withText]

end Scheme.NumberOperation
