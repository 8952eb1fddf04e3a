import Scheme.Proofs.ShortestDecimals
/-!
# Numerals are read back

The text of a finite number is a numeral, and the number read from it is the number, with a plain
zero for the negative one.
-/

namespace Scheme.Number

open Float.Model

/-! ## Digits -/

theorem ofDigits_eq (digits : List Char) : ofDigits digits = Nat.ofDigitChars 10 digits 0 :=
  Nat.ofDigitChars_eq_foldl.symm

theorem ofDigits_toDigits (n : Nat) : ofDigits (Nat.toDigits 10 n) = n := by
  rw [ofDigits_eq, Nat.ofDigitChars_ten_toDigits]

theorem ofDigits_append_zeros (digits : List Char) (k : Nat) :
    ofDigits (digits ++ List.replicate k '0') = ofDigits digits * 10 ^ k := by
  rw [ofDigits_eq, ofDigits_eq, Nat.ofDigitChars_append, Nat.ofDigitChars_replicate_zero,
    Nat.mul_comm]

theorem ofDigits_zeros_append (k : Nat) (digits : List Char) :
    ofDigits (List.replicate k '0' ++ digits) = ofDigits digits := by
  rw [ofDigits_eq, ofDigits_eq, Nat.ofDigitChars_append, Nat.ofDigitChars_replicate_zero,
    Nat.mul_zero]

theorem isDigit_of_mem_digits {n : Nat} {c : Char} (hc : c ∈ Nat.toDigits 10 n) :
    c.isDigit = true :=
  Nat.isDigit_of_mem_toDigits (by decide) (by decide) hc

theorem isDigit_of_mem_zeros {k : Nat} {c : Char} (hc : c ∈ List.replicate k '0') :
    c.isDigit = true := by
  rw [(List.mem_replicate.1 hc).2]
  rfl

/-! ## Decimals -/

theorem ten_pow_length_le {n : Nat} (hn : 0 < n) :
    10 ^ (Nat.toDigits 10 n).length ≤ 10 * n ∧ n < 10 ^ (Nat.toDigits 10 n).length := by
  have hpos : 0 < (Nat.toDigits 10 n).length := Nat.length_toDigits_pos
  refine ⟨?_, (Nat.length_toDigits_le_iff (by decide) hpos).1 (Nat.le_refl _)⟩
  obtain ⟨length, hlength⟩ : ∃ length, (Nat.toDigits 10 n).length = length + 1 :=
    ⟨_, (Nat.succ_pred_eq_of_pos hpos).symm⟩
  rw [hlength, Nat.pow_succ, Nat.mul_comm]
  rcases Nat.eq_zero_or_pos length with rfl | hmore
  · omega
  · have hnot : ¬n < 10 ^ length := by
      rw [← Nat.length_toDigits_le_iff (by decide : 1 < 10) hmore]
      omega
    omega

/-- The first digit is within the exponents that are not settled at once. -/
theorem RoundsTo.leading_bounds {m : Nat} {e : Int} (hc : Canonical m e) {n : Nat} {k : Int}
    (hn : 0 < n) (h : RoundsTo m e (n * 10 ^ k)) :
    -400 ≤ k + (Nat.toDigits 10 n).length ∧ k + (Nat.toDigits 10 n).length ≤ 400 := by
  obtain ⟨hlower, hupper⟩ := ten_pow_length_le hn
  generalize (Nat.toDigits 10 n).length = length at hlower hupper ⊢
  have hone : (1 : ℚ) < 10 := by norm_num
  have hten : (10 : ℚ) ≠ 0 := by norm_num
  have hpos := Decimal.ten_zpow_pos k
  have hsize : (2 : ℚ) ^ 1075 ≤ 10 ^ 400 := by
    calc (2 : ℚ) ^ 1075 = (2 ^ 43) ^ 25 := by rw [← pow_mul]
      _ ≤ (10 ^ 16) ^ 25 := pow_le_pow_left₀ (by norm_num) (by norm_num) 25
      _ = 10 ^ 400 := by rw [← pow_mul]
  constructor
  · have hbelow : (10 : ℚ) ^ (-400 : Int) < 10 ^ (k + length) := by
      calc (10 : ℚ) ^ (-400 : Int) ≤ 2 ^ (-1075 : Int) := by
            rw [zpow_neg, zpow_neg]
            exact (inv_le_inv₀ (by positivity) (by positivity)).2 (by exact_mod_cast hsize)
        _ ≤ n * 10 ^ k := h.least_le hc
        _ < 10 ^ length * 10 ^ k := mul_lt_mul_of_pos_right (by exact_mod_cast hupper) hpos
        _ = 10 ^ (k + length) := by rw [zpow_add₀ hten, zpow_natCast, mul_comm]
    exact ((zpow_lt_zpow_iff_right₀ hone).1 hbelow).le
  · have habove : (10 : ℚ) ^ (k + length) < 10 ^ (400 : Int) := by
      calc (10 : ℚ) ^ (k + length) = 10 ^ length * 10 ^ k := by
            rw [zpow_add₀ hten, zpow_natCast, mul_comm]
        _ ≤ 10 * n * 10 ^ k := mul_le_mul_of_nonneg_right (by exact_mod_cast hlower) hpos.le
        _ = 10 * (n * 10 ^ k) := mul_assoc _ _ _
        _ < 10 * 2 ^ (1024 : Int) := mul_lt_mul_of_pos_left (h.lt_limit hc) (by norm_num)
        _ ≤ 2 ^ (51 : Int) * 2 ^ (1024 : Int) :=
            mul_le_mul_of_nonneg_right (by norm_num) (two_zpow_pos 1024).le
        _ = 2 ^ (1075 : Int) := by rw [← zpow_add₀ two_ne_zero]; rfl
        _ ≤ 10 ^ (400 : Int) := by exact_mod_cast hsize
    exact ((zpow_lt_zpow_iff_right₀ hone).1 habove).le

theorem RoundsTo.ofDecimal {m : Nat} {e : Int} (hc : Canonical m e) {n : Nat} {k : Int}
    (h : RoundsTo m e (n * 10 ^ k)) : ofDecimal n k = double false hc := by
  have hn : 0 < n := by
    have hpos := pos_of_mul_pos_left (h.pos hc) (Decimal.ten_zpow_pos k).le
    exact_mod_cast hpos
  obtain ⟨hleast, hmost⟩ := h.leading_bounds hc hn
  unfold Number.ofDecimal
  simp only
  rw [if_neg (by omega), if_neg (by omega)]
  cases k with
  | ofNat k =>
      rw [Int.ofNat_eq_natCast, zpow_natCast] at h
      exact h.ofScientific_up hc hn
  | negSucc k =>
      rw [zpow_negSucc, ← div_eq_mul_inv] at h
      exact h.ofScientific_down hc hn (Nat.succ_pos k)

/-! ## Texts -/

theorem takeSign_of_isDigit {first : Char} (hfirst : first.isDigit = true) (rest : List Char) :
    takeSign (first :: rest) = (false, first :: rest) := by
  unfold takeSign
  split
  · rename_i heq
    cases heq
    cases hfirst
  · rename_i heq
    cases heq
    cases hfirst
  · rfl

theorem takeSign_withSign (negative : Bool) {first : Char} (hfirst : first.isDigit = true)
    (rest : List Char) :
    takeSign (withSign negative (first :: rest)) = (negative, first :: rest) := by
  cases negative with
  | true => rfl
  | false => exact takeSign_of_isDigit hfirst rest

/-- The number with the sign of a numeral. -/
def negatedIf (negative : Bool) (x : Float) : Float :=
  if negative then -x else x

theorem isNumeralChar_of_isDigit {c : Char} (hc : c.isDigit = true) : isNumeralChar c = true := by
  simp [isNumeralChar, hc]

/-- Digits that may have a point among them are the characters of a numeral. -/
theorem parse?_withSign (negative : Bool) {first : Char} {rest : List Char}
    (hfirst : first.isDigit = true) (hrest : ∀ c ∈ rest, c.isDigit = true ∨ c = '.') :
    parse? (withSign negative (first :: rest)) =
      ofDecimalText? (withSign negative (first :: rest)) := by
  have hany : (withSign negative (first :: rest)).any Char.isDigit = true := by
    rw [List.any_eq_true]
    exact ⟨first, by cases negative <;> simp [withSign], hfirst⟩
  have hnumeral : ∀ c ∈ first :: rest, isNumeralChar c = true := by
    intro c hc
    rcases List.mem_cons.1 hc with rfl | hc
    · exact isNumeralChar_of_isDigit hfirst
    · rcases hrest c hc with hdigit | rfl
      · exact isNumeralChar_of_isDigit hdigit
      · rfl
  have hall : (withSign negative (first :: rest)).all isNumeralChar = true := by
    rw [List.all_eq_true]
    intro c hc
    cases negative with
    | true =>
        rcases List.mem_cons.1 hc with rfl | hc
        · rfl
        · exact hnumeral c hc
    | false => exact hnumeral c hc
  rw [parse?, hany, hall]
  rfl

/-- Digits alone. -/
theorem parse?_whole (negative : Bool) {digits : List Char} (hnonempty : digits ≠ [])
    (hdigits : ∀ c ∈ digits, c.isDigit = true) :
    parse? (withSign negative digits) =
      some (negatedIf negative (ofDecimal (ofDigits digits) 0)) := by
  obtain ⟨first, rest, rfl⟩ := List.exists_cons_of_ne_nil hnonempty
  have hfirst := hdigits first List.mem_cons_self
  have htake := List.takeWhile_eq_self_iff.2 hdigits
  have hdrop := List.dropWhile_eq_nil_iff.2 hdigits
  rw [parse?_withSign negative hfirst fun c hc => Or.inl (hdigits c (List.mem_cons_of_mem _ hc))]
  unfold ofDecimalText?
  rw [takeSign_withSign negative hfirst]
  simp only [htake, hdrop, List.append_nil]
  rfl

/-- Digits with a point among them. -/
theorem parse?_point (negative : Bool) {whole fraction : List Char} (hnonempty : whole ≠ [])
    (hwhole : ∀ c ∈ whole, c.isDigit = true) (hfraction : ∀ c ∈ fraction, c.isDigit = true) :
    parse? (withSign negative (whole ++ '.' :: fraction)) =
      some (negatedIf negative
        (ofDecimal (ofDigits (whole ++ fraction)) (0 - fraction.length))) := by
  have htake : (whole ++ '.' :: fraction).takeWhile Char.isDigit = whole := by
    rw [List.takeWhile_append_of_pos hwhole]
    exact List.append_nil _
  have hdrop : (whole ++ '.' :: fraction).dropWhile Char.isDigit = '.' :: fraction :=
    List.dropWhile_append_of_pos hwhole
  have htake' := List.takeWhile_eq_self_iff.2 hfraction
  have hdrop' := List.dropWhile_eq_nil_iff.2 hfraction
  obtain ⟨first, rest, rfl⟩ := List.exists_cons_of_ne_nil hnonempty
  have hfirst := hwhole first List.mem_cons_self
  have hrest : ∀ c ∈ rest ++ '.' :: fraction, c.isDigit = true ∨ c = '.' := by
    intro c hc
    rcases List.mem_append.1 hc with hc | hc
    · exact Or.inl (hwhole c (List.mem_cons_of_mem _ hc))
    · rcases List.mem_cons.1 hc with rfl | hc
      · exact Or.inr rfl
      · exact Or.inl (hfraction c hc)
  rw [List.cons_append] at htake hdrop ⊢
  rw [parse?_withSign negative hfirst hrest]
  unfold ofDecimalText?
  rw [takeSign_withSign negative hfirst]
  simp only [htake, hdrop, htake', hdrop']
  rfl

theorem parse?_places (negative : Bool) {whole fraction : List Char} (hnonempty : whole ≠ [])
    (hwhole : ∀ c ∈ whole, c.isDigit = true) (hfraction : ∀ c ∈ fraction, c.isDigit = true)
    {n k : Nat} (hvalue : ofDigits (whole ++ fraction) = n) (hplaces : fraction.length = k + 1) :
    parse? (withSign negative (whole ++ '.' :: fraction)) =
      some (negatedIf negative (ofDecimal n (.negSucc k))) := by
  have hexponent : (0 : Int) - (k + 1 : Nat) = .negSucc k := by omega
  rw [parse?_point negative hnonempty hwhole hfraction, hvalue, hplaces, hexponent]

/-! ## Decimals in place -/

/-- The layout without an exponent is read as a decimal of the same value. -/
theorem parse?_positional (negative : Bool) (d : Decimal) :
    ∃ (n : Nat) (k : Int), (n : ℚ) * 10 ^ k = d.value ∧
      parse? (withSign negative d.positional) = some (negatedIf negative (ofDecimal n k)) := by
  have hnonempty : d.digitChars ≠ [] := Nat.toDigits_ne_nil
  have hvalue : ofDigits d.digitChars = d.digits := ofDigits_toDigits d.digits
  have hall : ∀ c ∈ d.digitChars, c.isDigit = true := fun c hc => isDigit_of_mem_digits hc
  unfold Decimal.positional Decimal.value
  generalize d.digitChars = digits at hnonempty hvalue hall
  cases d.scale with
  | ofNat k =>
      refine ⟨d.digits * 10 ^ k, 0, ?_, ?_⟩
      · rw [zpow_zero, mul_one, Int.ofNat_eq_natCast, zpow_natCast]
        push_cast
        rfl
      · rw [← hvalue, ← ofDigits_append_zeros]
        refine parse?_whole negative (List.append_ne_nil_of_left_ne_nil hnonempty _) fun c hc => ?_
        rcases List.mem_append.1 hc with hc | hc
        · exact hall c hc
        · exact isDigit_of_mem_zeros hc
  | negSucc k =>
      refine ⟨d.digits, .negSucc k, rfl, ?_⟩
      simp only
      by_cases hplaces : k + 1 < digits.length
      · rw [if_pos hplaces]
        refine parse?_places negative ?_ (fun c hc => hall c (List.mem_of_mem_take hc))
          (fun c hc => hall c (List.mem_of_mem_drop hc)) ?_ ?_
        · rw [Ne, List.take_eq_nil_iff]
          rintro (hzero | hempty)
          · omega
          · exact hnonempty hempty
        · rw [List.take_append_drop, hvalue]
        · rw [List.length_drop]
          omega
      · rw [if_neg hplaces]
        refine @parse?_places negative ['0'] (List.replicate (k + 1 - digits.length) '0' ++ digits)
          (by simp) ?_ ?_ d.digits k ?_ ?_
        · exact fun c hc => @isDigit_of_mem_zeros 1 c hc
        · intro c hc
          rcases List.mem_append.1 hc with hc | hc
          · exact isDigit_of_mem_zeros hc
          · exact hall c hc
        · rw [← List.append_assoc, ← List.replicate_one, List.replicate_append_replicate,
            ofDigits_zeros_append, hvalue]
        · rw [List.length_append, List.length_replicate]
          omega

/-! ## Whole numbers -/

theorem toList_toString_signed (negative : Bool) {n : Nat} (hn : 0 < n) :
    (toString (signed negative n)).toList = withSign negative (Nat.toDigits 10 n) := by
  obtain ⟨n, rfl⟩ := Nat.exists_eq_add_of_lt hn
  cases negative with
  | true =>
      change ("-" ++ Nat.repr _).toList = _
      rw [String.toList_append, Nat.toList_repr]
      rfl
  | false =>
      change (Nat.repr _).toList = _
      rw [Nat.toList_repr]
      rfl

theorem wholePart_of_isWhole {x : Float} {negative : Bool} {m : Nat} {e : Int}
    (hx : Binary.ofFloat x = .finite negative m e) (hwhole : isWhole x = true) :
    (wholePart m e : ℚ) = m * 2 ^ e := by
  unfold isWhole at hwhole
  rw [hx] at hwhole
  unfold wholePart
  cases e with
  | ofNat k =>
      simp only
      rw [Nat.shiftLeft_eq, Int.ofNat_eq_natCast, zpow_natCast]
      push_cast
      rfl
  | negSucc k =>
      have hmod : m % 2 ^ (k + 1) = 0 := by
        simpa [Nat.one_shiftLeft] using hwhole
      have hunit : ((2 ^ (k + 1) : Nat) : ℚ) ≠ 0 := by positivity
      simp only
      rw [Nat.shiftRight_eq_div_pow, Nat.cast_div (Nat.dvd_of_mod_eq_zero hmod) hunit,
        zpow_negSucc, div_eq_mul_inv]
      push_cast
      rfl

/-- The text of a double that is not zero. -/
theorem parse?_toText_double {negative : Bool} {m : Nat} {e : Int} (hc : Canonical m e)
    (hx : Binary.ofFloat (double negative hc) = .finite negative m e) :
    parse? (toText (double negative hc)).toList = some (double negative hc) := by
  have hsign (x : Float) (hvalue : x = double false hc) :
      negatedIf negative x = double negative hc := by
    rw [hvalue]
    cases negative with
    | true => exact neg_double hc
    | false => rfl
  unfold toText
  rw [hx]
  simp only
  by_cases hwhole : (isWhole (double negative hc) &&
      decide ((double negative hc).abs < integerBound)) = true
  · rw [if_pos hwhole]
    have hpart := wholePart_of_isWhole hx (Bool.and_eq_true_iff.1 hwhole).1
    have hself := roundsTo_self m e
    rw [← hpart, ← mul_one ((wholePart m e : Nat) : ℚ), ← zpow_zero (10 : ℚ)] at hself
    have hpos : 0 < wholePart m e := by
      have hvalue : (0 : ℚ) < m * 2 ^ e := mul_pos (by exact_mod_cast hc.pos) (two_zpow_pos e)
      rw [← hpart] at hvalue
      exact_mod_cast hvalue
    rw [toList_toString_signed negative hpos,
      parse?_whole negative Nat.toDigits_ne_nil fun c hc => isDigit_of_mem_digits hc,
      ofDigits_toDigits, hsign _ (hself.ofDecimal hc)]
  · rw [if_neg hwhole, String.toList_ofList]
    obtain ⟨n, k, hvalue, hparse⟩ := parse?_positional negative (Decimal.shortest m e)
    have hrounds := Decimal.roundsTo_shortest hc
    rw [← hvalue] at hrounds
    rw [hparse, hsign _ (hrounds.ofDecimal hc)]

/-! ## Finite numbers -/

/-- What is known of some doubles from their bits alone. -/
theorem zero_and_nan_computed :
    (0 : Float).toModel.toBits.toBitVec.toNat = 0 ∧ Float.nan.isFinite = false ∧
      Float.ofModel (.pack (.zero .positive)) < integerBound := by
  decide +kernel

theorem unpack_zeroFloat : (0 : Float).toModel.unpack = .zero .positive := by
  obtain ⟨hbits, -⟩ := zero_and_nan_computed
  rw [Float.Model.unpack, unpack_zero (by omega) (by omega), hbits]
  rfl

theorem double_beq_zero (negative : Bool) {m : Nat} {e : Int} (hc : Canonical m e) :
    (double negative hc == 0) = false := by
  change UnpackedFloat.beq (Float.Model.pack (.finite (signOf negative) m e hc.pos)).unpack
    (0 : Float).toModel.unpack = false
  rw [unpack_pack hc, unpack_zeroFloat]
  cases negative <;> rfl

/-- The number, with a plain zero in place of the negative one. -/
def unsigned (x : Float) : Float :=
  if x == 0 then 0 else x

theorem unsigned_double (negative : Bool) {m : Nat} {e : Int} (hc : Canonical m e) :
    unsigned (double negative hc) = double negative hc := by
  rw [unsigned, double_beq_zero]
  rfl

theorem beq_zero_of_unpack {x : Float} {negative : Bool}
    (hx : x.toModel.unpack = .zero (signOf negative)) : (x == 0) = true := by
  change UnpackedFloat.beq x.toModel.unpack (0 : Float).toModel.unpack = true
  rw [hx, unpack_zeroFloat]
  rfl

theorem unsigned_beq {x : Float} (hx : x.isFinite = true) : (x == unsigned x) = true := by
  unfold unsigned
  by_cases hzero : (x == 0) = true
  · rw [if_pos hzero]
    exact hzero
  · rw [if_neg hzero, Float.beq_self_iff]
    rintro rfl
    simp [zero_and_nan_computed.2.1] at hx

/-- Both zeros have the same text. -/
theorem toText_zero {x : Float} {negative : Bool} {e : Int}
    (hbinary : Binary.ofFloat x = .finite negative 0 e)
    (hx : x.toModel.unpack = .zero (signOf negative)) : toText x = "0" := by
  have hwhole : isWhole x = true := by
    unfold isWhole
    rw [hbinary]
    cases e with
    | ofNat k => rfl
    | negSucc k => exact beq_iff_eq.2 (Nat.zero_mod _)
  have habs : x.abs = .ofModel (.pack (.zero .positive)) := by
    change Float.ofModel (.pack x.toModel.unpack.abs) = _
    rw [hx]
    rfl
  have hsmall : x.abs < integerBound := by
    rw [habs]
    exact zero_and_nan_computed.2.2
  have hpart : wholePart 0 e = 0 := by
    cases e with
    | ofNat k => exact Nat.zero_shiftLeft k
    | negSucc k => exact Nat.zero_shiftRight _
  unfold toText
  rw [hbinary]
  simp only [hwhole, hsmall, hpart, decide_true, Bool.and_self, if_true]
  cases negative <;> rfl

/-- The text of a finite number is read as the number, up to the sign of zero. -/
theorem parse?_toText {x : Float} (hx : x.isFinite = true) :
    parse? (toText x).toList = some (unsigned x) := by
  rcases cases_of_isFinite hx with ⟨negative, hbinary, hzero⟩ | ⟨negative, m, e, hc, hbinary, rfl⟩
  · rw [toText_zero hbinary hzero, unsigned, if_pos (beq_zero_of_unpack hzero)]
    rfl
  · rw [parse?_toText_double hc hbinary, unsigned_double]

end Scheme.Number
