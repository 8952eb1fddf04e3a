import Scheme.Text.Utf8
/-!
# Encoded texts

Decoding undoes the encoding of a text, and only encodings of texts can be decoded. A line feed is
part of no other character's encoding.
-/

namespace Scheme.Text

variable {a b : UInt8} {c : Char} {high i j k code least : Nat} {read : List Char}
  {text : List Char} {rest : List UInt8}

/-! ## Bits and characters -/

theorem continuation?_eq_some : continuation? b = some k ↔ k < 64 ∧ b = .ofNat (k + 128) := by
  have hb := b.toNat_lt
  simp only [continuation?, Bool.and_eq_true, decide_eq_true_eq, Option.ite_none_right_eq_some,
    Option.some.injEq, ← UInt8.toNat_inj, UInt8.toNat_ofNat', UInt8.le_iff_toNat_le,
    UInt8.lt_iff_toNat_lt, UInt8.reduceToNat]
  omega

theorem joinBits_eq_some :
    joinBits high b = some code ↔ ∃ k < 64, b = .ofNat (k + 128) ∧ code = 64 * high + k := by
  simp only [joinBits, Option.map_eq_some_iff, continuation?_eq_some]
  constructor
  · rintro ⟨k, ⟨hk, hb⟩, rfl⟩
    exact ⟨k, hk, hb, rfl⟩
  · rintro ⟨k, hk, hb, rfl⟩
    exact ⟨k, ⟨hk, hb⟩, rfl⟩

theorem joinBits_ofNat (high : Nat) (hk : k < 64) :
    joinBits high (.ofNat (k + 128)) = some (64 * high + k) :=
  joinBits_eq_some.2 ⟨k, hk, rfl, rfl⟩

theorem charFrom?_eq_some : charFrom? least code = some c ↔ least ≤ code ∧ c.toNat = code := by
  by_cases hvalid : code.isValidChar
  · have hcode : (Char.ofNatAux code hvalid).toNat = code := rfl
    rw [charFrom?, dif_pos hvalid, Option.ite_none_right_eq_some, Option.some.injEq]
    refine and_congr_right fun _ => ⟨fun heq => heq ▸ hcode, fun heq => ?_⟩
    rw [← Char.toNat_inj, hcode, heq]
  · rw [charFrom?, dif_neg hvalid]
    exact iff_of_false nofun fun h => hvalid (h.2 ▸ c.valid)

/-- A leading byte carries what its mark leaves free. -/
theorem exists_high {mark last : UInt8} {m l : Nat} (hm : mark.toNat = m) (hl : last.toNat = l)
    (h : (mark ≤ a && a < last) = true) :
    ∃ high, a.toNat - m = high ∧ high + m < l ∧ a = .ofNat (high + m) := by
  simp only [Bool.and_eq_true, decide_eq_true_eq, UInt8.le_iff_toNat_le, UInt8.lt_iff_toNat_lt,
    hm, hl] at h
  refine ⟨_, rfl, by omega, ?_⟩
  rw [Nat.sub_add_cancel h.1, UInt8.ofNat_toNat]

theorem marked (mark last : UInt8) (m l high : Nat) (hm : mark.toNat = m) (hl : last.toNat = l)
    (h : high + m < l) : (mark ≤ .ofNat (high + m) && .ofNat (high + m) < last) = true ∧
      (UInt8.ofNat (high + m)).toNat - m = high := by
  have hbyte : (UInt8.ofNat (high + m)).toNat = high + m :=
    UInt8.toNat_ofNat_of_lt' (Nat.lt_trans h (hl ▸ last.toNat_lt))
  simp only [Bool.and_eq_true, decide_eq_true_eq, UInt8.le_iff_toNat_le, UInt8.lt_iff_toNat_lt,
    hbyte, hm, hl]
  omega

/-! ## Encodings by length -/

theorem encode_one (hc : c.toNat < 0x80) : String.utf8EncodeChar c = [.ofNat c.toNat] := by
  have hv : c.val.toNat = c.toNat := rfl
  simp only [String.utf8EncodeChar, hv]
  rw [if_pos (by omega)]

theorem encode_two (high : Nat) (hk : k < 64) (hc : c.toNat = 64 * high + k)
    (hleast : 0x80 ≤ c.toNat) (hhigh : high < 32) :
    String.utf8EncodeChar c = [.ofNat (high + 192), .ofNat (k + 128)] := by
  have hv : c.val.toNat = c.toNat := rfl
  simp only [String.utf8EncodeChar, hv]
  rw [if_neg (by omega), if_pos (by omega)]
  congr <;> omega

theorem encode_three (high : Nat) (hj : j < 64) (hk : k < 64)
    (hc : c.toNat = 64 * (64 * high + j) + k) (hleast : 0x800 ≤ c.toNat) (hhigh : high < 16) :
    String.utf8EncodeChar c =
      [.ofNat (high + 224), .ofNat (j + 128), .ofNat (k + 128)] := by
  have hv : c.val.toNat = c.toNat := rfl
  simp only [String.utf8EncodeChar, hv]
  rw [if_neg (by omega), if_neg (by omega), if_pos (by omega)]
  congr <;> omega

theorem encode_four (high : Nat) (hi : i < 64) (hj : j < 64) (hk : k < 64)
    (hc : c.toNat = 64 * (64 * (64 * high + i) + j) + k) (hleast : 0x10000 ≤ c.toNat)
    (hhigh : high < 8) : String.utf8EncodeChar c =
      [.ofNat (high + 240), .ofNat (i + 128), .ofNat (j + 128), .ofNat (k + 128)] := by
  have hv : c.val.toNat = c.toNat := rfl
  simp only [String.utf8EncodeChar, hv]
  rw [if_neg (by omega), if_neg (by omega), if_neg (by omega)]
  congr <;> omega

/-! ## Decoding by length -/

theorem decodeAfter?_one (ha : a < 0x80) :
    decodeAfter? read (a :: rest) = decodeAfter? (Char.ofNat a.toNat :: read) rest := by
  rw [decodeAfter?.eq_def]
  simp only [if_pos ha]

/-- The first byte tells the length. -/
theorem marks_lt {mark last : UInt8} (ha : (mark ≤ a && a < last) = true) :
    (∀ m ≤ mark, ¬ a < m) ∧ ∀ m l : UInt8, l ≤ mark → (m ≤ a && a < l) = false := by
  simp only [Bool.and_eq_true, decide_eq_true_eq, UInt8.le_iff_toNat_le, UInt8.lt_iff_toNat_lt,
    Bool.and_eq_false_iff, decide_eq_false_iff_not] at ha ⊢
  exact ⟨fun m hm => by omega, fun m l hl => by omega⟩

theorem decodeAfter?_two (ha : (0xc0 ≤ a && a < 0xe0) = true)
    (hc : (joinBits (a.toNat - 0xc0) b).bind (charFrom? 0x80) = some c) :
    decodeAfter? read (a :: b :: rest) = decodeAfter? (c :: read) rest := by
  obtain ⟨hlow, -⟩ := marks_lt ha
  rw [decodeAfter?.eq_def]
  simp only [if_neg (hlow 0x80 (by decide)), if_pos ha, hc]

theorem decodeAfter?_three {b' : UInt8} (ha : (0xe0 ≤ a && a < 0xf0) = true)
    (hc : ((joinBits (a.toNat - 0xe0) b).bind (joinBits · b')).bind (charFrom? 0x800) = some c) :
    decodeAfter? read (a :: b :: b' :: rest) = decodeAfter? (c :: read) rest := by
  obtain ⟨hlow, hother⟩ := marks_lt ha
  rw [decodeAfter?.eq_def]
  simp only [if_neg (hlow 0x80 (by decide)), hother 0xc0 0xe0 (by decide), if_pos ha, hc]
  rfl

theorem decodeAfter?_four {b' b'' : UInt8} (ha : (0xf0 ≤ a && a < 0xf8) = true)
    (hc : (((joinBits (a.toNat - 0xf0) b).bind (joinBits · b')).bind (joinBits · b'')).bind
      (charFrom? 0x10000) = some c) :
    decodeAfter? read (a :: b :: b' :: b'' :: rest) = decodeAfter? (c :: read) rest := by
  obtain ⟨hlow, hother⟩ := marks_lt ha
  rw [decodeAfter?.eq_def]
  simp only [if_neg (hlow 0x80 (by decide)), hother 0xc0 0xe0 (by decide),
    hother 0xe0 0xf0 (by decide), if_pos ha, hc]
  rfl

/-- A character is read off its encoding, whatever follows. -/
theorem decodeAfter?_encode (c : Char) (read : List Char) (rest : List UInt8) :
    decodeAfter? read (String.utf8EncodeChar c ++ rest) = decodeAfter? (c :: read) rest := by
  have hvalid : c.toNat < 0x110000 := by
    have hvalid : c.toNat.isValidChar := c.valid
    simp only [Nat.isValidChar] at hvalid
    omega
  by_cases hone : c.toNat < 0x80
  · have hbyte : (UInt8.ofNat c.toNat).toNat = c.toNat :=
      UInt8.toNat_ofNat_of_lt' (Nat.lt_trans hone (by decide))
    rw [encode_one hone, List.singleton_append, decodeAfter?_one, hbyte, Char.ofNat_toNat]
    rwa [UInt8.lt_iff_toNat_lt, hbyte]
  have hk : c.toNat % 64 < 64 := Nat.mod_lt _ (by decide)
  have hj : c.toNat / 64 % 64 < 64 := Nat.mod_lt _ (by decide)
  have hi : c.toNat / 4096 % 64 < 64 := Nat.mod_lt _ (by decide)
  by_cases htwo : c.toNat < 0x800
  · obtain ⟨hmarked, hlow⟩ := marked 0xc0 0xe0 0xc0 0xe0 (c.toNat / 64) rfl rfl (by omega)
    rw [encode_two (c.toNat / 64) hk (by omega) (by omega) (by omega)]
    refine decodeAfter?_two hmarked ?_
    rw [hlow, joinBits_ofNat _ hk, Option.bind_some, charFrom?_eq_some]
    omega
  by_cases hthree : c.toNat < 0x10000
  · obtain ⟨hmarked, hlow⟩ := marked 0xe0 0xf0 0xe0 0xf0 (c.toNat / 4096) rfl rfl (by omega)
    rw [encode_three (c.toNat / 4096) hj hk (by omega) (by omega) (by omega)]
    refine decodeAfter?_three hmarked ?_
    rw [hlow, joinBits_ofNat _ hj, Option.bind_some, joinBits_ofNat _ hk, Option.bind_some,
      charFrom?_eq_some]
    omega
  · obtain ⟨hmarked, hlow⟩ := marked 0xf0 0xf8 0xf0 0xf8 (c.toNat / 262144) rfl rfl (by omega)
    rw [encode_four (c.toNat / 262144) hi hj hk (by omega) (by omega) (by omega)]
    refine decodeAfter?_four hmarked ?_
    rw [hlow, joinBits_ofNat _ hi, Option.bind_some, joinBits_ofNat _ hj, Option.bind_some,
      joinBits_ofNat _ hk, Option.bind_some, charFrom?_eq_some]
    omega

/-- Bytes that are decoded are none, or the encoding of a character comes first. -/
theorem exists_encoding {bytes : List UInt8} (h : decodeAfter? read bytes = some text) :
    bytes = [] ∧ text = read.reverse ∨ ∃ c rest, bytes = String.utf8EncodeChar c ++ rest ∧
      decodeAfter? (c :: read) rest = some text := by
  revert h
  fun_cases decodeAfter? read bytes with
  | case1 => exact fun h => Or.inl ⟨rfl, (Option.some.inj h).symm⟩
  | case2 a rest ha =>
      refine fun h => Or.inr ⟨_, rest, ?_, h⟩
      have hlt : a.toNat < 0x80 := UInt8.lt_iff_toNat_lt.1 ha
      have hcode : (Char.ofNat a.toNat).toNat = a.toNat := by
        rw [Char.ofNat, dif_pos (Or.inl (Nat.lt_trans hlt (by decide)))]
        rfl
      rw [encode_one (hcode.symm ▸ hlt), hcode, UInt8.ofNat_toNat, List.singleton_append]
  | case4 a ha b rest hlead c hc =>
      refine fun h => Or.inr ⟨c, rest, ?_, h⟩
      obtain ⟨high, hlow, hhigh, rfl⟩ := exists_high (m := 0xc0) (l := 0xe0) rfl rfl hlead
      obtain ⟨_, hjoin, hc⟩ := Option.bind_eq_some_iff.1 hc
      obtain ⟨k, hk, rfl, rfl⟩ := joinBits_eq_some.1 hjoin
      obtain ⟨hleast, hcode⟩ := charFrom?_eq_some.1 hc
      rw [hlow] at hcode
      rw [encode_two _ hk hcode (by omega) (by omega)]
      rfl
  | case7 a ha b hb b' rest hlead c hc =>
      refine fun h => Or.inr ⟨c, rest, ?_, h⟩
      obtain ⟨high, hlow, hhigh, rfl⟩ := exists_high (m := 0xe0) (l := 0xf0) rfl rfl hlead
      obtain ⟨_, hjoin, hc⟩ := Option.bind_eq_some_iff.1 hc
      obtain ⟨_, hjoin, hjoin'⟩ := Option.bind_eq_some_iff.1 hjoin
      obtain ⟨j, hj, rfl, rfl⟩ := joinBits_eq_some.1 hjoin
      obtain ⟨k, hk, rfl, rfl⟩ := joinBits_eq_some.1 hjoin'
      obtain ⟨hleast, hcode⟩ := charFrom?_eq_some.1 hc
      rw [hlow] at hcode
      rw [encode_three _ hj hk hcode (by omega) (by omega)]
      rfl
  | case10 a ha b hb b' hb' b'' rest hlead c hc =>
      refine fun h => Or.inr ⟨c, rest, ?_, h⟩
      obtain ⟨high, hlow, hhigh, rfl⟩ := exists_high (m := 0xf0) (l := 0xf8) rfl rfl hlead
      obtain ⟨_, hjoin, hc⟩ := Option.bind_eq_some_iff.1 hc
      obtain ⟨_, hjoin, hjoin''⟩ := Option.bind_eq_some_iff.1 hjoin
      obtain ⟨_, hjoin, hjoin'⟩ := Option.bind_eq_some_iff.1 hjoin
      obtain ⟨i, hi, rfl, rfl⟩ := joinBits_eq_some.1 hjoin
      obtain ⟨j, hj, rfl, rfl⟩ := joinBits_eq_some.1 hjoin'
      obtain ⟨k, hk, rfl, rfl⟩ := joinBits_eq_some.1 hjoin''
      obtain ⟨hleast, hcode⟩ := charFrom?_eq_some.1 hc
      rw [hlow] at hcode
      rw [encode_four _ hi hj hk hcode (by omega) (by omega)]
      rfl
  | _ => exact fun h => by cases h

/-- The bytes that are decoded are the encodings of texts. -/
theorem decodeAfter?_eq_some {read text : List Char} {bytes : List UInt8} :
    decodeAfter? read bytes = some text ↔
      ∃ rest, text = read.reverse ++ rest ∧ bytes = rest.flatMap String.utf8EncodeChar := by
  constructor
  · intro h
    rcases exists_encoding h with ⟨rfl, rfl⟩ | ⟨c, rest, rfl, hrest⟩
    · exact ⟨[], by simp, rfl⟩
    · have hshorter : rest.length < (String.utf8EncodeChar c ++ rest).length := by
        have hpos := c.utf8Size_pos
        rw [List.length_append, String.length_utf8EncodeChar]
        omega
      obtain ⟨others, rfl, rfl⟩ := decodeAfter?_eq_some.1 hrest
      exact ⟨c :: others, by simp, rfl⟩
  · rintro ⟨rest, rfl, rfl⟩
    induction rest generalizing read with
    | nil => simp [decodeAfter?]
    | cons c rest ih => simp [decodeAfter?_encode, ih]
termination_by bytes.length

theorem decode?_eq_some {bytes : List UInt8} :
    decode? bytes = some text ↔ bytes = text.flatMap String.utf8EncodeChar := by
  simp [decode?, decodeAfter?_eq_some]

/-- A line feed is part of no other encoding. -/
theorem eq_of_lineFeed_mem (h : 10 ∈ String.utf8EncodeChar c) :
    String.utf8EncodeChar c = [10] := by
  by_cases hone : c.toNat < 0x80
  · rw [encode_one hone] at h ⊢
    rw [List.mem_singleton.1 h]
  · have hv : c.val.toNat = c.toNat := rfl
    have hlarge : ∀ b ∈ String.utf8EncodeChar c, 0x80 ≤ b.toNat := by
      intro b hb
      simp only [String.utf8EncodeChar, hv, if_neg (show ¬ c.toNat ≤ 127 by omega)] at hb
      split at hb
      · simp only [List.mem_cons, List.not_mem_nil, or_false] at hb
        rcases hb with rfl | rfl <;> rw [UInt8.toNat_ofNat'] <;> omega
      split at hb
      · simp only [List.mem_cons, List.not_mem_nil, or_false] at hb
        rcases hb with rfl | rfl | rfl <;> rw [UInt8.toNat_ofNat'] <;> omega
      · simp only [List.mem_cons, List.not_mem_nil, or_false] at hb
        rcases hb with rfl | rfl | rfl | rfl <;> rw [UInt8.toNat_ofNat'] <;> omega
    exact absurd (hlarge 10 h) (by decide)

end Scheme.Text
