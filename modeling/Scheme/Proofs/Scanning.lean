import Mathlib.Tactic.SplitIfs
import Scheme.Datum.Text
import Scheme.Token.Scan
/-!
# Where the scanner stops

A cursor stands at a text when the characters of the text, and then the end of file, are what it
answers next. Each spelling of a token, in front of a text that it does not run into, is scanned
as that token without a report, and the scanner then stands at the text.
-/

namespace Scheme

/-! ## Positions -/

@[simp] theorem Event.ofText_nil : Event.ofText [] = [] :=
  rfl

@[simp] theorem Event.ofText_cons (c : Char) (rest : List Char) :
    Event.ofText (c :: rest) = .char c :: Event.ofText rest :=
  rfl

/-- An answer taken back, and the events after it, amount to a text. -/
def StandsAt (pushed : Option (Option Char)) (upcoming : List Event) (text : List Char) : Prop :=
  match pushed with
  | none => upcoming = Event.ofText text
  | some none => text = [] ∧ upcoming = []
  | some (some c) => ∃ rest, text = c :: rest ∧ upcoming = Event.ofText rest

/-- The cursor is positioned exactly at the beginning of the text. -/
def Cursor.StandsAt (c : Cursor) (text : List Char) : Prop :=
  Scheme.StandsAt c.pushed c.upcoming text

theorem standsAt_ofText (text : List Char) : (Cursor.ofText text).StandsAt text :=
  rfl

theorem standsAt_head?_tail (text : List Char) :
    StandsAt (some text.head?) (Event.ofText text.tail) text := by
  cases text with
  | nil => exact ⟨rfl, rfl⟩
  | cons c rest => exact ⟨rest, rfl, rfl⟩

/-- A cursor at a text answers its first character, or the end of file, and stands at the rest. -/
theorem Cursor.StandsAt.next {c : Cursor} {text : List Char} (hc : c.StandsAt text) :
    c.next.1 = text.head? ∧ c.next.2.StandsAt text.tail ∧ c.next.2.entries = c.entries := by
  unfold Cursor.StandsAt Scheme.StandsAt at hc
  split at hc
  · rename_i hpushed
    cases text with
    | nil => simp_all [Cursor.next, Cursor.StandsAt, Scheme.StandsAt]
    | cons char rest => simp_all [Cursor.next, Cursor.StandsAt, Scheme.StandsAt]
  · rename_i hpushed
    obtain ⟨rfl, hupcoming⟩ := hc
    simp [Cursor.next, hpushed, hupcoming, Cursor.StandsAt, Scheme.StandsAt]
  · rename_i char hpushed
    obtain ⟨rest, rfl, hupcoming⟩ := hc
    simp [Cursor.next, hpushed, hupcoming, Cursor.StandsAt, Scheme.StandsAt]

/-- Empty, or a delimiter in front. -/
def Delimited : List Char → Prop
  | [] => True
  | c :: _ => isDelimiter c = true

/-! ## Spellings -/

/-- Scanning the first text answers the token without a report, and stops at the second text. -/
structure Spells (text : List Char) (token : Token) (rest : List Char) : Prop where
  token : (scan .between (Event.ofText text)).token = token
  standsAt : StandsAt (scan .between (Event.ofText text)).pushed
    (scan .between (Event.ofText text)).rest rest
  entries : (scan .between (Event.ofText text)).entries = []

theorem spells_opening (rest : List Char) : Spells ('(' :: rest) .opening rest :=
  ⟨rfl, rfl, rfl⟩

theorem spells_closing (rest : List Char) : Spells (')' :: rest) .closing rest :=
  ⟨rfl, rfl, rfl⟩

theorem spells_quote (rest : List Char) : Spells ('\x27' :: rest) .quote rest :=
  ⟨rfl, rfl, rfl⟩

theorem spells_backquote (rest : List Char) : Spells ('\x60' :: rest) .backquote rest :=
  ⟨rfl, rfl, rfl⟩

theorem spells_commaAt (rest : List Char) : Spells (',' :: '@' :: rest) .commaAt rest :=
  ⟨rfl, rfl, rfl⟩

theorem spells_vectorOpening (rest : List Char) :
    Spells ('#' :: '(' :: rest) .vectorOpening rest :=
  ⟨rfl, rfl, rfl⟩

theorem spells_boolean (value : Bool) (rest : List Char) :
    Spells ((Style.boolean value).toList ++ rest) (.boolean value) rest := by
  cases value <;> exact ⟨rfl, rfl, rfl⟩

/-- A comma alone, in front of anything that does not turn it into the other mark. -/
theorem spells_comma {c : Char} (hc : c ≠ '@') (rest : List Char) :
    Spells (',' :: c :: rest) .comma (c :: rest) := by
  have hscan : scan .between (Event.ofText (',' :: c :: rest)) =
      { token := .comma, pushed := some (some c), rest := Event.ofText rest } := by
    change Scanned.comma (Event.ofText (c :: rest)) = _
    rw [Event.ofText_cons, Scanned.comma, if_neg hc]
  refine ⟨by rw [hscan], ?_, by rw [hscan]⟩
  rw [hscan]
  exact ⟨rest, rfl, rfl⟩

/-- A space in front of a token is passed over. -/
theorem Spells.space {text rest : List Char} {token : Token} (h : Spells text token rest) :
    Spells (' ' :: text) token rest :=
  ⟨h.token, h.standsAt, h.entries⟩

/-! ## Names -/

/-- A name extends to the delimiter after it. -/
theorem Scanned.Name.scan_append (read chars : List Char) {rest : List Char}
    (hchars : ∀ c ∈ chars, isDelimiter c = false) (hrest : Delimited rest) :
    Name.scan read (Event.ofText (chars ++ rest)) =
      { chars := read.reverse ++ chars, delimiter := rest.head?,
        rest := Event.ofText rest.tail } := by
  induction chars generalizing read with
  | nil =>
      cases rest with
      | nil => simp [Name.scan]
      | cons c rest =>
          have hc : isDelimiter c = true := hrest
          simp [Name.scan, hc]
  | cons c chars ih =>
      have hc := hchars c (List.mem_cons_self ..)
      have hnext := ih (c :: read) fun c hmem => hchars c (List.mem_cons_of_mem _ hmem)
      rw [List.cons_append, Event.ofText_cons, Name.scan, if_neg (by simp [hc]), hnext]
      simp

/-- An atom is scanned as its whole name. -/
theorem spells_atom {first : Char} (chars : List Char) {rest : List Char} {token : Token}
    (hfirst : isDelimiter first = false) (hhash : first ≠ '#')
    (hchars : ∀ c ∈ chars, isDelimiter c = false) (hrest : Delimited rest)
    (htoken : Scanned.atomOf first (first :: chars) = token) :
    Spells (first :: chars ++ rest) token rest := by
  have hscan : scan .between (Event.ofText (first :: chars ++ rest)) =
      { token, pushed := some rest.head?, rest := Event.ofText rest.tail } := by
    have hname := Scanned.Name.scan_append [first] chars hchars hrest
    simp only [isDelimiter, Bool.or_eq_false_iff, beq_eq_false_iff_ne] at hfirst
    obtain ⟨⟨⟨⟨⟨⟨⟨hblank, hopen⟩, hclose⟩, hquote⟩, hcomment⟩, hstring⟩, hcomma⟩, hback⟩ := hfirst
    simp only [List.cons_append, Event.ofText_cons, scan, hblank, Bool.false_eq_true, if_false,
      hcomment, hhash, hopen, hclose, hquote, hback, hcomma, hstring, Scanned.atom, hname]
    simp [Scanned.Name.toScanned, htoken]
  refine ⟨by rw [hscan], ?_, by rw [hscan]⟩
  rw [hscan]
  exact standsAt_head?_tail rest

theorem spells_dot {rest : List Char} (hrest : Delimited rest) : Spells ('.' :: rest) .dot rest :=
  spells_atom [] (by decide) (by decide) (by simp) hrest rfl

/-! ## Characters and strings -/

/-- A character alone after its mark. Only an alphabetic one looks at what follows. -/
theorem spells_character {c : Char} {rest : List Char} (hrest : Delimited rest) :
    Spells ('#' :: '\\' :: c :: rest) (.character c) rest := by
  have hscan : scan .between (Event.ofText ('#' :: '\\' :: c :: rest)) =
      Scanned.character (Event.ofText (c :: rest)) := rfl
  by_cases halphabetic : Text.isAlphabetic c = true
  · have hcharacter : Scanned.character (Event.ofText (c :: rest)) =
        { token := .character c, pushed := some rest.head?, rest := Event.ofText rest.tail } := by
      have hname := Scanned.Name.scan_append [c] [] (by simp) hrest
      rw [List.nil_append] at hname
      simp [Scanned.character, halphabetic, hname, Scanned.Name.toScanned]
    rw [hcharacter] at hscan
    refine ⟨by rw [hscan], ?_, by rw [hscan]⟩
    rw [hscan]
    exact standsAt_head?_tail rest
  · have hcharacter : Scanned.character (Event.ofText (c :: rest)) =
        { token := .character c, rest := Event.ofText rest } := by
      simp [Scanned.character, halphabetic]
    rw [hcharacter] at hscan
    exact ⟨by rw [hscan], by rw [hscan]; rfl, by rw [hscan]⟩

/-- A character by its name. -/
theorem spells_named {first c : Char} (chars : List Char) {rest : List Char}
    (halphabetic : Text.isAlphabetic first = true) (hlong : chars ≠ [])
    (hchars : ∀ c ∈ chars, isDelimiter c = false) (hrest : Delimited rest)
    (hnamed : Scanned.characterNamed? (first :: chars) = some c) :
    Spells ('#' :: '\\' :: first :: chars ++ rest) (.character c) rest := by
  have hname := Scanned.Name.scan_append [first] chars hchars hrest
  have hscan : scan .between (Event.ofText ('#' :: '\\' :: first :: chars ++ rest)) =
      { token := .character c, pushed := some rest.head?, rest := Event.ofText rest.tail } := by
    change Scanned.character (Event.ofText (first :: (chars ++ rest))) = _
    simp [Scanned.character, halphabetic, hname, hlong, hnamed, Scanned.Name.toScanned]
  refine ⟨by rw [hscan], ?_, by rw [hscan]⟩
  rw [hscan]
  exact standsAt_head?_tail rest

/-- The written text of a character is scanned as that character. -/
theorem spells_writtenCharacter (c : Char) {rest : List Char} (hrest : Delimited rest) :
    Spells ((Style.written.character c).toList ++ rest) (.character c) rest := by
  simp only [Style.character]
  split_ifs with hspace hnewline
  · subst hspace
    exact spells_named ['p', 'a', 'c', 'e'] (by decide) (by simp) (by simp; decide) hrest
      (by decide)
  · subst hnewline
    exact spells_named ['e', 'w', 'l', 'i', 'n', 'e'] (by decide) (by simp)
      (by simp; decide) hrest (by decide)
  · simp only [String.toList_append, Char.toString_eq_singleton, String.toList_singleton]
    exact spells_character hrest

/-- The characters of a quoted string come back from their escaped forms. -/
theorem Scanned.string_flatMap_escape (read chars rest : List Char) :
    Scanned.string read false
        (Event.ofText (chars.flatMap Style.escape ++ '\x22' :: rest)) =
      { token := .string (read.reverse ++ chars), rest := Event.ofText rest } := by
  induction chars generalizing read with
  | nil => simp [Scanned.string]
  | cons c chars ih =>
      rw [List.flatMap_cons, Style.escape]
      split_ifs with hescaped
      · simp [Scanned.string, ih]
      · rw [not_or] at hescaped
        simp [Scanned.string, hescaped, ih]

/-- The written text of a string is scanned as that string. -/
theorem spells_writtenString (chars rest : List Char) :
    Spells ((Style.written.string chars).toList ++ rest) (.string chars) rest := by
  have hscan : scan .between (Event.ofText ((Style.written.string chars).toList ++ rest)) =
      { token := .string chars, rest := Event.ofText rest } := by
    simp only [Style.string, String.toList_append, String.toList_ofList, List.append_assoc]
    exact Scanned.string_flatMap_escape [] chars rest
  exact ⟨by rw [hscan], by rw [hscan]; rfl, by rw [hscan]⟩

/-! ## Numbers -/

private theorem isDelimiter_of_isDigit {c : Char} (hc : c.isDigit = true) :
    isDelimiter c = false ∧ c ≠ '#' := by
  have hrange : 48 ≤ c.toNat ∧ c.toNat ≤ 57 := by
    simpa [Char.isDigit, Char.le_def, UInt32.le_iff_toNat_le] using hc
  have hne : ∀ other : Char, other.toNat < 48 ∨ 57 < other.toNat → c ≠ other := by
    rintro other hother rfl
    omega
  have hblank : Text.isBlank c = false := by
    simp only [Text.isBlank, if_pos (show c.toNat < 128 by omega)]
    simp only [Bool.or_eq_false_iff, beq_eq_false_iff_ne, Bool.and_eq_false_iff,
      decide_eq_false_iff_not]
    exact ⟨hne _ (by decide), by omega⟩
  refine ⟨?_, hne _ (by decide)⟩
  simp only [isDelimiter, hblank, Bool.false_or, Bool.or_eq_false_iff, beq_eq_false_iff_ne]
  refine ⟨⟨⟨⟨⟨⟨?_, ?_⟩, ?_⟩, ?_⟩, ?_⟩, ?_⟩, ?_⟩ <;> exact hne _ (by decide)

theorem Number.isDelimiter_of_isNumeralChar {c : Char} (hc : isNumeralChar c = true) :
    isDelimiter c = false ∧ c ≠ '#' := by
  simp only [isNumeralChar, Bool.or_eq_true, beq_iff_eq] at hc
  rcases hc with ((((hc | rfl) | rfl) | rfl) | rfl) | rfl
  · exact isDelimiter_of_isDigit hc
  all_goals decide

/-- A numeral starts like one, is not a lone dot, and holds numeral characters only. -/
theorem Number.exists_of_parse? {text : List Char} {x : Float} (h : parse? text = some x) :
    ∃ first chars, text = first :: chars ∧ startsNumber first = true ∧ text ≠ ['.'] ∧
      ∀ c ∈ text, isNumeralChar c = true := by
  unfold parse? at h
  split at h
  · rename_i hnumeral
    rw [Bool.and_eq_true, List.any_eq_true, List.all_eq_true] at hnumeral
    obtain ⟨⟨digit, hdigit, hisDigit⟩, hall⟩ := hnumeral
    cases text with
    | nil => simp at hdigit
    | cons first chars =>
        refine ⟨first, chars, rfl, ?_, ?_, hall⟩
        · have hfirst := hall first (List.mem_cons_self ..)
          simp only [isNumeralChar, Bool.or_eq_true, beq_iff_eq] at hfirst
          -- without a digit or a dot in front there is no numeral, only an exponent
          rcases hfirst with ((((hfirst | rfl) | rfl) | rfl) | rfl) | rfl
          · simp [startsNumber, hfirst]
          · rfl
          · rfl
          · rfl
          · simp [ofDecimalText?, takeSign] at h
          · simp [ofDecimalText?, takeSign] at h
        · intro heq
          rw [heq, List.mem_singleton] at hdigit
          subst hdigit
          simp at hisDigit
  · simp at h

theorem spells_number {text rest : List Char} {x : Float} (h : Number.parse? text = some x)
    (hrest : Delimited rest) : Spells (text ++ rest) (.number x) rest := by
  obtain ⟨first, chars, rfl, hstarts, hdot, hall⟩ := Number.exists_of_parse? h
  obtain ⟨hfirst, hhash⟩ :=
    Number.isDelimiter_of_isNumeralChar (hall first (List.mem_cons_self ..))
  refine spells_atom chars hfirst hhash ?_ hrest ?_
  · intro c hc
    exact (Number.isDelimiter_of_isNumeralChar (hall c (List.mem_cons_of_mem _ hc))).1
  · simp [Scanned.atomOf, hdot, hstarts, h]

end Scheme
