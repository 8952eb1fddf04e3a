import Scheme.Proofs.LowerCase
import Scheme.Proofs.Reading
/-!
# What tokens can be

Whatever the source, the scanner answers tokens of good form only: a number is never the one that
is no number, and the name of a symbol is spelled like a symbol and like nothing else. A name is
put in lower case after it has been told from a number, so that the last part rests on what
lower case does to numerals: it changes the exponent mark, and nothing else.
-/

namespace Scheme

/-! ## Numbers -/

namespace Number

section

open Float.Model Float.Model.UnpackedFloat

/-- Only words whose exponent field is full can stand for something that is not a number. -/
theorem isNaN_unpack_of_ne {b : BitVec 64} (hb : @unpackExponent Format.binary64 b ≠ -1#_) :
    (UnpackedFloat.unpack Format.binary64 b).isNaN = false := by
  unfold UnpackedFloat.unpack
  simp only
  rw [if_neg hb]
  split
  · split <;> rfl
  · rfl

theorem isNaN_pack (u : UnpackedFloat) : (Float.ofModel (.pack u)).isNaN = u.isNaN := by
  change (UnpackedFloat.unpack Format.binary64 (UnpackedFloat.pack Format.binary64 u)).isNaN = _
  fun_cases UnpackedFloat.pack with
  | case1 => rfl
  | case2 s | case3 s => cases s <;> rfl
  | case4 s m e hm exponent hinfinite => cases s <;> rfl
  | case5 s m e hm bits exponent hfits hnormal =>
      refine isNaN_unpack_of_ne ?_
      rw [unpackExponent_packComponents]
      intro hfull
      have hexponent := congrArg BitVec.toNat hfull
      rw [BitVec.toNat_ofNat] at hexponent
      change exponent % 2048 = 2047 at hexponent
      change ¬ 2048 ≤ exponent + 1 at hfits
      omega
  | case6 s m e hm bits exponent hfits hsubnormal =>
      refine isNaN_unpack_of_ne ?_
      rw [unpackExponent_packComponents]
      decide

theorem isNaN_neg (x : Float) : (-x).isNaN = x.isNaN := by
  change (Float.ofModel (.pack x.toModel.unpack.neg)).isNaN = _
  rw [isNaN_pack]
  change x.toModel.unpack.neg.isNaN = x.toModel.unpack.isNaN
  cases x.toModel.unpack <;> rfl

theorem isNaN_roundWithAccuracy (s : Sign) (m : Nat) (e : Int) (accuracy : Accuracy) :
    (roundWithAccuracy Format.binary64 s m e accuracy).isNaN = false := by
  unfold roundWithAccuracy
  simp only
  split <;> rfl

theorem isNaN_mul_finite {u : UnpackedFloat} (hu : u.isNaN = false) (s : Sign) (m : Nat) (e : Int)
    (hm : 0 < m) : (mul Format.binary64 u (.finite s m e hm)).isNaN = false := by
  cases u with
  | notANumber => cases hu
  | finite s' m' e' hm' => exact isNaN_roundWithAccuracy _ _ _ _
  | _ => rfl

theorem isNaN_div_finite {u : UnpackedFloat} (hu : u.isNaN = false) (s : Sign) (m : Nat) (e : Int)
    (hm : 0 < m) : (div Format.binary64 u (.finite s m e hm)).isNaN = false := by
  cases u with
  | notANumber => cases hu
  | finite s' m' e' hm' => exact isNaN_roundWithAccuracy _ _ _ _
  | _ => rfl

theorem isNaN_toFloat (n : UInt64) : n.toFloat.isNaN = false := by
  change (Float.ofModel (.pack (UnpackedFloat.ofNat Format.binary64 n.toNat))).isNaN = false
  rw [isNaN_pack]
  unfold UnpackedFloat.ofNat UnpackedFloat.ofInt UnpackedFloat.normalize
  split
  · exact isNaN_roundWithAccuracy _ _ _ _
  · rfl
  · exact isNaN_roundWithAccuracy _ _ _ _

theorem isNaN_unpackedOfScientific (n : Nat) (e : Int) :
    (UnpackedFloat.ofScientific Format.binary64 n e).isNaN = false := by
  unfold UnpackedFloat.ofScientific
  split_ifs
  · rfl
  · rfl
  · rfl
  · exact isNaN_mul_finite (u := .finite ..) rfl _ _ _ _
  · exact isNaN_div_finite (u := .finite ..) rfl _ _ _ _

theorem isNaN_ofScientific (n : Nat) (s : Bool) (k : Nat) :
    (Float.ofScientific n s k).isNaN = false := by
  unfold Float.ofScientific
  split
  · rename_i hfast
    have hsmall : k < Float.exactlyRepresentablePowersOfTen.size := by
      have hsize : Float.exactlyRepresentablePowersOfTen.size = 23 := rfl
      omega
    have hpower := powerOfTen_eq_double hfast.2 hsmall
    simp only [hpower]
    have hfive : 0 < 5 ^ k := Nat.pow_pos (by decide)
    split
    · change (Float.ofModel (.pack (div .binary64 n.toUInt64.toFloat.toModel.unpack
        (Float.Model.pack (.finite (signOf false) _ _ (filled_pos hfive))).unpack))).isNaN = false
      rw [isNaN_pack, unpack_pack (canonical_filled hfive (five_pow_fits hfast.2) (by omega)) false]
      exact isNaN_div_finite (isNaN_toFloat _) _ _ _ _
    · change (Float.ofModel (.pack (mul .binary64 n.toUInt64.toFloat.toModel.unpack
        (Float.Model.pack (.finite (signOf false) _ _ (filled_pos hfive))).unpack))).isNaN = false
      rw [isNaN_pack, unpack_pack (canonical_filled hfive (five_pow_fits hfast.2) (by omega)) false]
      exact isNaN_mul_finite (isNaN_toFloat _) _ _ _ _
  · change (Float.ofModel (.pack (UnpackedFloat.ofScientific Format.binary64 n _))).isNaN = false
    rw [isNaN_pack]
    exact isNaN_unpackedOfScientific n _

theorem isNaN_ofDecimal (mantissa : Nat) (exponent : Int) :
    (ofDecimal mantissa exponent).isNaN = false := by
  unfold ofDecimal
  simp only
  split_ifs
  · decide +kernel
  · decide +kernel
  · cases exponent <;> exact isNaN_ofScientific _ _ _

/-- What is read as a number is a number. -/
theorem isNaN_of_parse? {text : List Char} {x : Float} (h : parse? text = some x) :
    x.isNaN = false := by
  unfold parse? at h
  split_ifs at h
  unfold ofDecimalText? at h
  simp only at h
  split_ifs at h
  all_goals obtain ⟨exponent, -, rfl⟩ := Option.map_eq_some_iff.1 h
  · rw [isNaN_neg]
    exact isNaN_ofDecimal _ _
  · exact isNaN_ofDecimal _ _
end

/-! ## The exponent mark -/

/-- The same character, but an exponent mark in lower case. -/
def smallMark (c : Char) : Char :=
  if c = 'E' then 'e' else c

theorem isDigit_comp_smallMark : Char.isDigit ∘ smallMark = Char.isDigit := by
  funext c
  by_cases hc : c = 'E'
  · subst hc
    rfl
  · simp [smallMark, hc]

theorem isNumeralChar_comp_smallMark : isNumeralChar ∘ smallMark = isNumeralChar := by
  funext c
  by_cases hc : c = 'E'
  · subst hc
    rfl
  · simp [smallMark, hc]

theorem map_smallMark_of_isDigit {digits : List Char} (h : digits.all Char.isDigit = true) :
    digits.map smallMark = digits := by
  refine (List.map_congr_left fun c hc => ?_).trans (List.map_id digits)
  have hdigit := List.all_eq_true.1 h c hc
  rw [smallMark, if_neg, id]
  rintro rfl
  cases hdigit

theorem takeWhile_map_smallMark (text : List Char) :
    (text.map smallMark).takeWhile Char.isDigit = text.takeWhile Char.isDigit := by
  rw [List.takeWhile_map, isDigit_comp_smallMark]
  exact map_smallMark_of_isDigit (List.all_takeWhile ..)

theorem dropWhile_map_smallMark (text : List Char) :
    (text.map smallMark).dropWhile Char.isDigit = (text.dropWhile Char.isDigit).map smallMark := by
  rw [List.dropWhile_map, isDigit_comp_smallMark]

theorem takeSign_map_smallMark (text : List Char) :
    takeSign (text.map smallMark) = ((takeSign text).1, (takeSign text).2.map smallMark) := by
  cases text with
  | nil => rfl
  | cons c rest =>
      by_cases hminus : c = '-'
      · subst hminus
        rfl
      · by_cases hplus : c = '+'
        · subst hplus
          rfl
        · by_cases hmark : c = 'E'
          · subst hmark
            rfl
          · have hsame : smallMark c = c := if_neg hmark
            simp [takeSign, hminus, hplus, hsame]

theorem exponentOf?_map_smallMark (text : List Char) :
    exponentOf? (text.map smallMark) = exponentOf? text := by
  cases text with
  | nil => rfl
  | cons mark rest =>
      have hmark : (smallMark mark = 'e' ∨ smallMark mark = 'E') ↔ (mark = 'e' ∨ mark = 'E') := by
        by_cases hc : mark = 'E'
        · subst hc
          decide
        · simp [smallMark, hc]
      have hall : ∀ digits : List Char,
          (digits.map smallMark).all Char.isDigit = digits.all Char.isDigit := by
        intro digits
        rw [List.all_map, isDigit_comp_smallMark]
      simp only [List.map_cons, exponentOf?, hmark, takeSign_map_smallMark, hall, List.isEmpty_map]
      split_ifs with hdigits
      · rw [map_smallMark_of_isDigit]
        simp_all
      · rfl
      · rfl

/-- The digits after a point, if there is one in front, and what follows them. -/
def takeFraction : List Char → List Char × List Char
  | '.' :: rest => (rest.takeWhile Char.isDigit, rest.dropWhile Char.isDigit)
  | rest => ([], rest)

theorem takeFraction_map_smallMark (text : List Char) :
    takeFraction (text.map smallMark) =
      ((takeFraction text).1, (takeFraction text).2.map smallMark) := by
  cases text with
  | nil => rfl
  | cons c rest =>
      by_cases hpoint : c = '.'
      · subst hpoint
        change (List.takeWhile _ (rest.map smallMark), List.dropWhile _ (rest.map smallMark)) = _
        rw [takeWhile_map_smallMark, dropWhile_map_smallMark]
        rfl
      · by_cases hmark : c = 'E'
        · subst hmark
          rfl
        · have hsame : smallMark c = c := if_neg hmark
          simp [takeFraction, hsame, hpoint]

theorem ofDecimalText?_eq (text : List Char) :
    ofDecimalText? text =
      let digits := (takeSign text).2.takeWhile Char.isDigit
      let fraction := takeFraction ((takeSign text).2.dropWhile Char.isDigit)
      if digits.isEmpty && fraction.1.isEmpty then none
      else
        (exponentOf? fraction.2).map fun exponent =>
          let x := ofDecimal (ofDigits (digits ++ fraction.1)) (exponent - fraction.1.length)
          if (takeSign text).1 then -x else x :=
  rfl

/-- The case of the exponent mark does not matter. -/
theorem parse?_map_smallMark (text : List Char) : parse? (text.map smallMark) = parse? text := by
  have hdecimal : ofDecimalText? (text.map smallMark) = ofDecimalText? text := by
    simp only [ofDecimalText?_eq, takeSign_map_smallMark, takeWhile_map_smallMark,
      dropWhile_map_smallMark, takeFraction_map_smallMark, exponentOf?_map_smallMark]
  unfold parse?
  rw [List.any_map, List.all_map, isDigit_comp_smallMark, isNumeralChar_comp_smallMark, hdecimal]

end Number

/-! ## Names -/

theorem Text.isLowered_bounds {c : Char} (hc : isLowered c = true) :
    97 ≤ c.toNat ∧ (c.toNat ≤ 122 ∨ 128 ≤ c.toNat ∧ isBlank c = false) := by
  simp only [isLowered, Bool.or_eq_true, Bool.and_eq_true, Nat.ble_eq, Bool.not_eq_true'] at hc
  rcases hc with hlower | ⟨hbeyond, hblank⟩
  · have hrange : 97 ≤ c.toNat ∧ c.toNat ≤ 122 := by
      simpa [Char.isLower, Char.le_def, UInt32.le_iff_toNat_le] using hlower
    exact ⟨hrange.1, Or.inl hrange.2⟩
  · exact ⟨by omega, Or.inr ⟨hbeyond, hblank⟩⟩

/-- Lowered characters have no meaning to the scanner. -/
theorem isDelimiter_of_isLowered {c : Char} (hc : Text.isLowered c = true) :
    isDelimiter c = false ∧ startsNumber c = false ∧ c ≠ '#' := by
  obtain ⟨hlow, hrange⟩ := Text.isLowered_bounds hc
  have hne : ∀ other : Char, other.toNat < 97 → c ≠ other := by
    rintro other hother rfl
    omega
  have hblank : Text.isBlank c = false := by
    rcases hrange with hascii | ⟨-, hblank⟩
    · simp only [Text.isBlank, if_pos (show c.toNat < 128 by omega)]
      simp only [Bool.or_eq_false_iff, beq_eq_false_iff_ne, Bool.and_eq_false_iff,
        decide_eq_false_iff_not]
      exact ⟨hne _ (by decide), by omega⟩
    · exact hblank
  have hdigit : c.isDigit = false := by
    rw [Bool.eq_false_iff]
    intro hdigit
    have hrange : 48 ≤ c.toNat ∧ c.toNat ≤ 57 := by
      simpa [Char.isDigit, Char.le_def, UInt32.le_iff_toNat_le] using hdigit
    omega
  refine ⟨?_, ?_, hne _ (by decide)⟩
  · simp only [isDelimiter, hblank, Bool.false_or, Bool.or_eq_false_iff, beq_eq_false_iff_ne]
    refine ⟨⟨⟨⟨⟨⟨?_, ?_⟩, ?_⟩, ?_⟩, ?_⟩, ?_⟩, ?_⟩ <;> exact hne _ (by decide)
  · simp only [startsNumber, hdigit, Bool.false_or, Bool.or_eq_false_iff, beq_eq_false_iff_ne]
    exact ⟨⟨hne _ (by decide), hne _ (by decide)⟩, hne _ (by decide)⟩

/-- The only lowered character of numerals is the exponent mark. -/
theorem Text.LowersTo.eq_smallMark {c l : Char} (h : LowersTo c l)
    (hl : Number.isNumeralChar l = true) : l = Number.smallMark c := by
  rcases h.lowered with rfl | ⟨hlowered, hmark⟩
  · rw [Number.smallMark, if_neg]
    rintro rfl
    exact absurd h.stays (by decide)
  · have hstarts := (isDelimiter_of_isLowered hlowered).2.1
    simp only [startsNumber, Bool.or_eq_false_iff, beq_eq_false_iff_ne] at hstarts
    obtain ⟨⟨⟨hdigit, hplus⟩, hminus⟩, hdot⟩ := hstarts
    simp only [Number.isNumeralChar, hdigit, Bool.false_or, Bool.or_eq_true, beq_iff_eq, hplus,
      hminus, hdot, false_or] at hl
    rcases hl with rfl | rfl
    · rw [hmark rfl]
      rfl
    · exact absurd hlowered (by decide)

/-- Where lower case gives a numeral, it has changed exponent marks only. -/
theorem Text.lowercase_of_numeral {cs : List Char}
    (h : ∀ l ∈ lowercase cs, Number.isNumeralChar l = true) :
    lowercase cs = cs.map Number.smallMark := by
  suffices hafter : ∀ before, (∀ l ∈ lowercaseAfter before cs, Number.isNumeralChar l = true) →
      lowercaseAfter before cs = cs.map Number.smallMark from hafter [] h
  clear h
  induction cs with
  | nil => exact fun _ _ => rfl
  | cons c cs ih =>
      intro before hall
      rw [lowercaseAfter] at hall ⊢
      rw [ih (c :: before) fun l hl => hall l (List.mem_append_right _ hl)]
      have hwithin : lowerWithin before c cs = [lower c] := by
        -- the other images have a character that no numeral has
        have hfirst : ∀ l ∈ lowerWithin before c cs, Number.isNumeralChar l = true :=
          fun l hl => hall l (List.mem_append_left _ hl)
        unfold lowerWithin at hfirst ⊢
        split_ifs at hfirst ⊢ with hsigma hlast hdotted
        · exact absurd (hfirst _ (List.mem_singleton_self _)) (by decide)
        · exact absurd (hfirst _ (List.mem_singleton_self _)) (by decide)
        · exact absurd (hfirst _ (List.mem_cons_self ..)) (by decide)
        · rfl
      rw [hwithin] at hall ⊢
      rw [(lowersTo_lower c).eq_smallMark (hall _ (List.mem_cons_self ..))]
      rfl

/-- A token that some text spells. -/
def Token.Sound : Token → Prop
  | .number value => value.isNaN = false
  | .symbol value => value.Readable
  | _ => True

namespace Scanned

/-- The name of a symbol, put in lower case, is still the name of a symbol. -/
theorem readable_lowercase {first : Char} {chars : List Char} (hhash : first ≠ '#')
    (hchars : ∀ c ∈ first :: chars, isDelimiter c = false) (hdot : first :: chars ≠ ['.'])
    (hnumber : startsNumber first = true → Number.parse? (first :: chars) = none) :
    (⟨String.ofList (Text.lowercase (first :: chars))⟩ : Symbol).Readable := by
  obtain ⟨l, rest, hlowercase, hl⟩ := Text.lowercase_cons first chars
  have hdigits : Number.parse? (Text.lowercase (first :: chars)) ≠ none →
      Number.parse? (Text.lowercase (first :: chars)) = Number.parse? (first :: chars) := by
    intro hparse
    obtain ⟨x, hx⟩ := Option.ne_none_iff_exists'.1 hparse
    obtain ⟨_, _, _, _, _, hall⟩ := Number.exists_of_parse? hx
    rw [Text.lowercase_of_numeral hall, Number.parse?_map_smallMark]
  refine ⟨?_, ?_, ?_, ?_, ?_, ?_⟩
  · simp [hlowercase]
  · rw [String.toList_ofList, Text.lowercase_lowercase]
  · intro c hc
    rw [String.toList_ofList] at hc
    obtain ⟨c', hc', hlowers⟩ := Text.exists_of_mem_lowercaseAfter hc
    rcases hlowers.lowered with rfl | ⟨hlowered, -⟩
    · exact hchars c hc'
    · exact (isDelimiter_of_isLowered hlowered).1
  · rw [String.toList_ofList, hlowercase, List.head?_cons, ne_eq, Option.some.injEq]
    rcases hl.lowered with rfl | ⟨hlowered, -⟩
    · exact hhash
    · exact (isDelimiter_of_isLowered hlowered).2.2
  · intro heq
    have hsame : Text.lowercase (first :: chars) = ['.'] := by
      simpa using congrArg String.toList heq
    have hmap : Text.lowercase (first :: chars) = (first :: chars).map Number.smallMark :=
      Text.lowercase_of_numeral (by simp [hsame]; decide)
    rw [hsame, List.map_cons, List.cons.injEq, eq_comm (a := []), List.map_eq_nil_iff] at hmap
    obtain ⟨hfirst, rfl⟩ := hmap
    apply hdot
    rw [Number.smallMark] at hfirst
    split_ifs at hfirst with hmark
    · cases hfirst
    · rw [← hfirst]
  · intro c hc hstarts
    rw [String.toList_ofList] at hc ⊢
    by_contra hparse
    have hsame := hdigits hparse
    rw [hsame] at hparse
    -- a character that starts a number is none that lower case brings in
    refine hparse (hnumber ?_)
    rw [hlowercase, List.head?_cons, Option.some.injEq] at hc
    subst hc
    rcases hl.lowered with rfl | ⟨hlowered, -⟩
    · exact hstarts
    · rw [(isDelimiter_of_isLowered hlowered).2.1] at hstarts
      cases hstarts

theorem atomOf_sound {first : Char} {chars : List Char} (hhash : first ≠ '#')
    (hchars : ∀ c ∈ first :: chars, isDelimiter c = false) :
    (atomOf first (first :: chars)).Sound := by
  unfold atomOf
  split_ifs with hdot hstarts
  · trivial
  · cases hparse : Number.parse? (first :: chars) with
    | some x => exact Number.isNaN_of_parse? hparse
    | none => exact readable_lowercase hhash hchars hdot fun _ => hparse
  · exact readable_lowercase hhash hchars hdot fun h => absurd h hstarts

theorem Name.scan_chars (read : List Char) (events : List Event) :
    ∃ more, (Name.scan read events).chars = read.reverse ++ more ∧
      ∀ c ∈ more, isDelimiter c = false := by
  fun_induction Name.scan read events with
  | case1 | case2 | case3 => exact ⟨[], by simp, by simp⟩
  | case4 read c rest hc ih =>
      obtain ⟨more, hmore, hundelimited⟩ := ih
      refine ⟨c :: more, by simpa using hmore, ?_⟩
      intro c' hc'
      rcases List.mem_cons.1 hc' with rfl | hc'
      · simpa using hc
      · exact hundelimited c' hc'

theorem atom_sound {first : Char} (hfirst : isDelimiter first = false) (hhash : first ≠ '#')
    (events : List Event) : (atom first events).token.Sound := by
  obtain ⟨more, hmore, hundelimited⟩ := Name.scan_chars [first] events
  simp only [atom, Name.toScanned, hmore]
  exact atomOf_sound hhash (List.forall_mem_cons.2 ⟨hfirst, hundelimited⟩)

theorem character_sound (events : List Event) : (character events).token.Sound := by
  fun_cases character events <;> trivial

theorem string_sound (read : List Char) (escaped : Bool) (events : List Event) :
    (string read escaped events).token.Sound := by
  fun_induction string read escaped events <;> first | assumption | trivial

theorem comma_sound (events : List Event) : (comma events).token.Sound := by
  fun_cases comma events <;> trivial

end Scanned

/-! ## Tokens -/

/-- Whatever the source, a token that is scanned is of good form. -/
theorem scan_sound (mode : ScanMode) (events : List Event) : (scan mode events).token.Sound := by
  fun_induction scan mode events
  case case9 => exact Scanned.character_sound _
  case case20 => exact Scanned.comma_sound _
  case case21 => exact Scanned.string_sound [] false _
  case case22 c rest hblank hcomment hhash hopening hclosing hquote hback hcomma hstring =>
    -- what is left has no meaning of its own
    refine Scanned.atom_sound ?_ hhash rest
    rw [Bool.not_eq_true] at hblank
    simp only [isDelimiter, hblank, beq_eq_false_iff_ne.2 hcomment, beq_eq_false_iff_ne.2 hopening,
      beq_eq_false_iff_ne.2 hclosing, beq_eq_false_iff_ne.2 hquote, beq_eq_false_iff_ne.2 hback,
      beq_eq_false_iff_ne.2 hcomma, beq_eq_false_iff_ne.2 hstring, Bool.or_self]
  all_goals trivial

theorem Cursor.token_sound (c : Cursor) : c.token.1.Sound := by
  unfold Cursor.token
  split
  · trivial
  · exact scan_sound _ _
  · exact scan_sound _ _

end Scheme
