import Scheme.Proofs.DecodedLines
import Scheme.Proofs.Readings
/-!
# Reading makes progress

What is left of a source after a token is the end of what was left before it, and a token has taken
one character at least. So a datum is read in so many turns, with no more constructs open than
tokens were used up, and a source has no more data than characters. A source that is a text stays
at its end.

A line that cannot be decoded has no characters, but answers the end of file once; so the length of
the events is no measure here, and the end of the input is not final.
-/

namespace Scheme

/-! ## Characters to come -/

/-- The characters among events. -/
def Event.characters (events : List Event) : List Char :=
  events.filterMap fun
    | .char c => some c
    | .undecodable => none

@[simp] theorem Event.characters_nil : Event.characters [] = [] :=
  rfl

@[simp] theorem Event.characters_char (c : Char) (events : List Event) :
    Event.characters (.char c :: events) = c :: Event.characters events :=
  rfl

@[simp] theorem Event.characters_undecodable (events : List Event) :
    Event.characters (.undecodable :: events) = Event.characters events :=
  rfl

theorem Event.characters_ofText (text : List Char) :
    Event.characters (Event.ofText text) = text := by
  induction text with
  | nil => rfl
  | cons c text ih => rw [Event.ofText_cons, Event.characters_char, ih]

theorem Event.length_characters_le {events others : List Event} (h : events <:+ others) :
    (Event.characters events).length ≤ (Event.characters others).length :=
  (h.filterMap _).length_le

/-- The event that an answer taken back amounts to. -/
def Event.ofPushed : Option (Option Char) → List Event
  | some (some c) => [.char c]
  | _ => []

namespace Scanned

/-- What is left of the source, with a character that was taken back. -/
def left (s : Scanned) : List Event :=
  Event.ofPushed s.pushed ++ s.rest

theorem Name.left_scan (read : List Char) (events : List Event) :
    Event.ofPushed (some (Name.scan read events).delimiter) ++ (Name.scan read events).rest <:+
      events := by
  fun_induction Name.scan read events with
  | case1 => exact List.suffix_refl []
  | case2 => exact List.suffix_cons _ _
  | case3 => exact List.suffix_refl _
  | case4 _ _ _ _ ih => exact ih.trans (List.suffix_cons _ _)

theorem left_atom (first : Char) (events : List Event) : (atom first events).left <:+ events :=
  Name.left_scan [first] events

theorem left_character (events : List Event) : (character events).left <:+ events := by
  fun_cases character events with
  | case1 => exact List.suffix_refl []
  | case2 => exact List.suffix_cons _ _
  | case3 | case4 | case5 => exact (Name.left_scan _ _).trans (List.suffix_cons _ _)
  | case6 => exact List.suffix_cons _ _

theorem left_string (read : List Char) (escaped : Bool) (events : List Event) :
    (string read escaped events).left <:+ events := by
  fun_induction string read escaped events with
  | case1 => exact List.suffix_refl []
  | case2 => exact List.suffix_cons _ _
  | case3 _ _ _ ih => exact ih.trans (List.suffix_cons _ _)
  | case4 => exact List.suffix_cons _ _
  | case5 _ _ _ _ _ ih => exact ih.trans (List.suffix_cons _ _)
  | case6 _ _ _ _ _ _ _ ih => exact ih.trans (List.suffix_cons _ _)

theorem left_comma (events : List Event) : (comma events).left <:+ events := by
  fun_cases comma events with
  | case1 => exact List.suffix_refl []
  | case2 => exact List.suffix_cons _ _
  | case3 => exact List.suffix_cons _ _
  | case4 => exact List.suffix_refl _

end Scanned

/-- What is left after a character and what comes with it. -/
theorem Scans.left {mode : ScanMode} {c : Char} {f : List Event → Scanned} (h : Scans mode c f)
    {rest : List Event} (hrest : ∀ next, (scan next rest).left <:+ rest) :
    (f rest).left <:+ rest := by
  cases h with
  | skip next => exact hrest next
  | mark => exact List.suffix_refl _
  | character => exact Scanned.left_character rest
  | comma => exact Scanned.left_comma rest
  | string => exact Scanned.left_string [] false rest
  | atom => exact Scanned.left_atom c rest

theorem left_scan (mode : ScanMode) (events : List Event) : (scan mode events).left <:+ events := by
  induction events generalizing mode with
  | nil => cases mode <;> exact List.suffix_refl []
  | cons event rest ih =>
      cases event with
      | undecodable =>
          cases mode with
          | hash => exact (ih .between).trans (List.suffix_cons _ _)
          | between | comment => exact List.suffix_cons _ _
      | char c =>
          obtain ⟨f, hf, hscan⟩ := scan_char mode c
          rw [hscan]
          exact (hf.left ih).trans (List.suffix_cons _ _)

/-- A scanner that found a token has read a character. -/
theorem characters_scan {mode : ScanMode} {events : List Event}
    (h : (scan mode events).token ≠ .endOfInput) :
    (Event.characters (scan mode events).left).length < (Event.characters events).length := by
  induction events generalizing mode with
  | nil => cases mode <;> exact absurd rfl h
  | cons event rest ih =>
      cases event with
      | undecodable =>
          cases mode with
          | hash => exact ih h
          | between | comment => exact absurd rfl h
      | char c =>
          obtain ⟨f, hf, hscan⟩ := scan_char mode c
          rw [hscan]
          have hleft : (f rest).left <:+ rest := hf.left fun next => left_scan next rest
          exact Nat.lt_succ_of_le (Event.length_characters_le hleft)

namespace Cursor

/-- The events to come, with a character that was taken back. -/
def left (c : Cursor) : List Event :=
  Event.ofPushed c.pushed ++ c.upcoming

/-- The characters still to come. -/
def toCome (c : Cursor) : List Char :=
  Event.characters c.left

/-- Unless an end of file was taken back, a token is what the scanner finds in the events to
come. -/
theorem token_eq_scan {c : Cursor} (h : c.pushed ≠ some none) :
    c.token = token.settle c (scan .between c.left) := by
  unfold Cursor.token
  split
  · exact absurd (by assumption) h
  · rename_i char hpushed
    simp [left, hpushed, Event.ofPushed]
  · rename_i hpushed
    simp [left, hpushed, Event.ofPushed]

theorem left_token (c : Cursor) : c.token.2.left <:+ c.left := by
  by_cases hpushed : c.pushed = some none
  · simp [Cursor.token, hpushed, left, Event.ofPushed]
  · rw [token_eq_scan hpushed]
    exact left_scan .between c.left

theorem toCome_token_lt {c : Cursor} (h : c.token.1 ≠ .endOfInput) :
    c.token.2.toCome.length < c.toCome.length := by
  have hpushed : c.pushed ≠ some none := by
    intro hpushed
    exact h (by simp [Cursor.token, hpushed])
  rw [token_eq_scan hpushed] at h ⊢
  exact characters_scan h

theorem left_next (c : Cursor) : c.next.2.left <:+ c.left := by
  fun_cases next c <;> simp_all [left, Event.ofPushed]

theorem toCome_peek (c : Cursor) : c.peek.2.toCome = c.toCome := by
  obtain ⟨upcoming, pushed, abandoned, entries⟩ := c
  cases pushed with
  | some answer => cases answer <;> simp [peek, next, pushBack, toCome, left, Event.ofPushed]
  | none =>
      cases upcoming with
      | nil => simp [peek, next, pushBack, toCome, left, Event.ofPushed]
      | cons event rest =>
          cases event <;> simp [peek, next, pushBack, toCome, left, Event.ofPushed]

end Cursor

/-- The end of the input is not taken back. -/
theorem Stage.back_endOfInput (stage : Stage) : (stage.absorb .endOfInput).2.1 = none := by
  rcases stage.absorb_endOfInput with ⟨-, habsorb⟩ | habsorb <;> rw [habsorb]

namespace Reader

/-! ## Tokens used up -/

/-- What a reader can make tokens of: the characters to come, and a token that was taken back. -/
def supply (r : Reader) : Nat :=
  (if r.pushed.isSome then 1 else 0) + r.cursor.toCome.length

theorem supply_token (r : Reader) :
    r.token.2.supply ≤ r.supply ∧ (r.token.1 ≠ .endOfInput → r.token.2.supply < r.supply) := by
  unfold Reader.token
  split
  · rename_i hpushed
    simp [supply, hpushed]
  · rename_i hpushed
    simp only [supply, hpushed, Nat.add_lt_add_iff_left, Nat.add_le_add_iff_left]
    exact ⟨Event.length_characters_le r.cursor.left_token, Cursor.toCome_token_lt⟩

theorem supply_turn (stage : Stage) (r : Reader) : (r.turn stage).2.supply =
    (if (stage.absorb r.token.1).2.1.isSome then 1 else 0) + r.token.2.supply := by
  have hsupply : r.token.2.supply = r.token.2.cursor.toCome.length := by
    simp [supply, r.size_token.1]
  rw [hsupply]
  rfl

/-- A turn that takes no token back uses one up. -/
theorem supply_turn_le (stage : Stage) (r : Reader) : (r.turn stage).2.supply ≤ r.supply := by
  rw [supply_turn]
  by_cases htoken : r.token.1 = .endOfInput
  · simpa [htoken, stage.back_endOfInput] using r.supply_token.1
  · have hless := r.supply_token.2 htoken
    split <;> omega

/-- So many turns into a datum so many tokens are used up; one that is taken back is not. -/
inductive Takes (r : Reader) : Nat → Nat → Stage → Reader → Prop where
  | none : Takes r 0 0 (.datum []) r
  | turn {turns used : Nat} {stage next : Stage} {r' : Reader} (h : Takes r turns used stage r')
      (hmore : (r'.turn stage).1 = .more next) :
      Takes r (turns + 1) (used + if (r'.turn stage).2.pushed.isSome then 0 else 1) next
        (r'.turn stage).2

/-- No more constructs are open than tokens were used up, and each turn uses up a token or ends a
construct. -/
theorem Takes.bounds {r r' : Reader} {turns used : Nat} {stage : Stage}
    (h : r.Takes turns used stage r') : stage.size ≤ used ∧ used + r'.supply ≤ r.supply ∧
      turns + 2 * r'.supply + stage.size ≤ 2 * r.supply := by
  induction h with
  | none => simp [Stage.size]
  | @turn turns used stage next r' h hmore ih =>
      have htoken := token_ne_of_turn hmore
      have hless := r'.supply_token.2 htoken
      have hnext := (stage.absorbs_of_ne htoken).size next hmore
      have hpushed : (r'.turn stage).2.pushed = (stage.absorb r'.token.1).2.1 := rfl
      rw [supply_turn, hpushed]
      split at hnext <;> simp_all <;> omega

/-! ## Data -/

/-- The data that are read one after the other, up to the first answer that is none. -/
inductive Yields : Reader → List Datum → Reading → Reader → Prop where
  | last {r r' : Reader} {last : Reading} (hread : r.read = (last, r'))
      (hlast : ∀ d, last ≠ .datum d) : Yields r [] last r'
  | datum {r r₁ r' : Reader} {d : Datum} {data : List Datum} {last : Reading}
      (hread : r.read = (.datum d, r₁)) (hrest : Yields r₁ data last r') :
      Yields r (d :: data) last r'

theorem Turns.supply_le {stage : Stage} {r r' : Reader} {reading : Reading}
    (h : Turns stage r reading r') : r'.supply ≤ r.supply := by
  induction h with
  | done h => exact supply_turn_le _ _
  | more h hrest ih => exact Nat.le_trans ih (supply_turn_le _ _)

theorem supply_of_datum {r r' : Reader} {d : Datum} (h : r.read = (.datum d, r')) :
    r'.supply < r.supply := by
  have hturns : Turns (.datum []) r (.datum d) r' := by simpa only [h] using r.turns_read
  -- the first token is not taken back
  have hfirst (htoken : r.token.1 ≠ .endOfInput) :
      (r.turn (.datum [])).2.supply < r.supply := by
    have hless := r.supply_token.2 htoken
    rw [supply_turn]
    simpa [Stage.absorb] using hless
  cases hturns with
  | done hdone =>
      refine hfirst fun htoken => ?_
      simp [turn, htoken, Stage.absorb, Stage.start] at hdone
  | more hmore hrest => exact Nat.lt_of_le_of_lt hrest.supply_le (hfirst (token_ne_of_turn hmore))

theorem Yields.length_le {r r' : Reader} {data : List Datum} {last : Reading}
    (h : r.Yields data last r') : data.length ≤ r.supply := by
  induction h with
  | last => exact Nat.zero_le _
  | datum hread hrest ih => exact Nat.lt_of_le_of_lt ih (supply_of_datum hread)

theorem yields_of_readAll {r r' : Reader} {data : List Datum} {last : Reading}
    (h : r.readAll = (data, last, r')) : r.Yields data last r' := by
  induction data generalizing r with
  | nil =>
      rcases read_of_readAll h with ⟨-, hread, hlast⟩ | ⟨d, others, r₁, hcons, -⟩
      · exact .last hread hlast
      · cases hcons
  | cons d data ih =>
      rcases read_of_readAll h with ⟨hnil, -⟩ | ⟨d, others, r₁, hcons, hread, hothers⟩
      · cases hnil
      · cases hcons
        exact .datum hread (ih hothers)

/-! ## Readers over a source -/

/-- What reading can make of a reader: turns of any datum, characters read or looked at, what is
reported, and the end of the source. -/
inductive Leads (r : Reader) : Reader → Prop where
  | refl : Leads r r
  | turn {r' : Reader} (stage : Stage) (h : Leads r r') : Leads r (r'.turn stage).2
  | readChar {r' : Reader} (h : Leads r r') : Leads r r'.readChar.2
  | peekChar {r' : Reader} (h : Leads r r') : Leads r r'.peekChar.2
  | close {r' : Reader} (h : Leads r r') : Leads r r'.close
  | report {r' : Reader} (entries : List Entry) (h : Leads r r') : Leads r (r'.report entries)
  | drain {r' : Reader} (h : Leads r r') : Leads r r'.drain.2

theorem Leads.trans {r r' r'' : Reader} (h : r.Leads r') (h' : r'.Leads r'') : r.Leads r'' := by
  induction h' with
  | refl => exact h
  | turn stage _ ih => exact ih.turn stage
  | readChar _ ih => exact ih.readChar
  | peekChar _ ih => exact ih.peekChar
  | close _ ih => exact ih.close
  | report entries _ ih => exact ih.report entries
  | drain _ ih => exact ih.drain

theorem Turns.leads {stage : Stage} {r r' : Reader} {reading : Reading}
    (h : Turns stage r reading r') : r.Leads r' := by
  induction h with
  | done => exact (Leads.refl.turn _).report _
  | more _ _ ih => exact (Leads.refl.turn _).trans ih

theorem leads_read (r : Reader) : r.Leads r.read.2 :=
  r.turns_read.leads

theorem Leads.supply_le {r r' : Reader} (h : r.Leads r') : r'.supply ≤ r.supply := by
  induction h with
  | refl => exact Nat.le_refl _
  | turn stage _ ih => exact Nat.le_trans (supply_turn_le stage _) ih
  | @readChar r' _ ih =>
      have hless := Event.length_characters_le r'.cursor.left_next
      exact Nat.le_trans (Nat.add_le_add_left hless _) ih
  | @peekChar r' _ ih =>
      have hpeek : r'.peekChar.2.supply = r'.supply :=
        congrArg (fun chars => (if r'.pushed.isSome then 1 else 0) + chars.length)
          r'.cursor.toCome_peek
      exact hpeek ▸ ih
  | close =>
      simp [supply, Reader.close, Cursor.close, Cursor.toCome, Cursor.left, Event.ofPushed]
  | report entries _ ih => exact ih
  | drain _ ih => exact ih

theorem supply_ofBytes (bytes : List UInt8) :
    (Reader.ofBytes bytes).supply = (Event.characters (Event.ofBytes bytes)).length := by
  simp [supply, Reader.ofBytes, Cursor.ofBytes, Cursor.toCome, Cursor.left, Event.ofPushed]

end Reader

/-! ## Texts -/

theorem scan_ended {mode : ScanMode} {text : List Char}
    (h : (scan mode (Event.ofText text)).token = .endOfInput) :
    StandsAt (scan mode (Event.ofText text)).pushed (scan mode (Event.ofText text)).rest [] := by
  induction text generalizing mode with
  | nil => cases mode <;> rfl
  | cons c text ih =>
      obtain ⟨f, hf, hscan⟩ := scan_char mode c
      rw [Event.ofText_cons, hscan] at h ⊢
      cases hf with
      | skip next entries => exact ih h
      | mark _ htoken => exact absurd h htoken
      | character =>
          cases text with
          | nil => rfl
          | cons first text =>
              simp only [Event.ofText_cons, Scanned.character, Scanned.Name.toScanned] at h
              split at h
              · split at h
                · cases h
                · split at h <;> cases h
              · cases h
      | comma =>
          cases text with
          | nil => cases h
          | cons c text =>
              simp only [Event.ofText_cons, Scanned.comma] at h
              split at h <;> cases h
      | string => exact absurd h (Scanned.size_string [] false _).2
      | atom => exact absurd h (Scanned.size_atom c _).2

namespace Cursor

theorem StandsAt.token_text {c : Cursor} {text : List Char} (hc : c.StandsAt text) :
    (∃ rest, c.token.2.StandsAt rest) ∧ (c.token.1 = .endOfInput → c.token.2.StandsAt []) := by
  -- a text that is followed by nothing but an empty line
  obtain ⟨token, entries, rest, hgives, -⟩ := scan_across .between (y := ['\n']) (x := text)
    (Or.inr (Or.inr rfl))
  refine ⟨⟨rest, (hc.gives hgives).2.1⟩, ?_⟩
  rw [hc.token_eq]
  exact scan_ended

theorem StandsAt.peek {c : Cursor} {text : List Char} (hc : c.StandsAt text) :
    c.peek.2.StandsAt text := by
  unfold Cursor.StandsAt Scheme.StandsAt at hc
  split at hc
  · rename_i hpushed
    cases text <;> simp_all [Cursor.peek, Cursor.next, pushBack, Cursor.StandsAt, Scheme.StandsAt]
  · rename_i hpushed
    simp_all [Cursor.peek, Cursor.next, pushBack, Cursor.StandsAt, Scheme.StandsAt]
  · rename_i char hpushed
    obtain ⟨rest, rfl, hupcoming⟩ := hc
    simp [Cursor.peek, Cursor.next, hpushed, hupcoming, pushBack, Cursor.StandsAt, Scheme.StandsAt]

theorem standsAt_close (c : Cursor) : c.close.StandsAt [] :=
  rfl

end Cursor

namespace Reader

/-- A reader with a text to come, and no end of the input taken back. -/
structure AtText (r : Reader) : Prop where
  pushed : r.pushed ≠ some .endOfInput
  standsAt : ∃ text, r.cursor.StandsAt text

/-- A reader with nothing to come. -/
structure Spent (r : Reader) : Prop where
  pushed : r.pushed = none
  standsAt : r.cursor.StandsAt []

variable {r r' : Reader}

theorem AtText.turn (h : r.AtText) (stage : Stage) : (r.turn stage).2.AtText := by
  refine ⟨?_, ?_⟩
  · change (stage.absorb r.token.1).2.1 ≠ _
    by_cases htoken : r.token.1 = .endOfInput
    · simp [htoken, stage.back_endOfInput]
    · rcases (stage.absorbs_of_ne htoken).back with hback | hback <;> simp [hback, htoken]
  · change ∃ text, r.token.2.cursor.StandsAt text
    unfold Reader.token
    obtain ⟨text, hstands⟩ := h.standsAt
    split
    · exact ⟨text, hstands⟩
    · exact hstands.token_text.1

theorem AtText.leads (h : r.AtText) (hleads : r.Leads r') : r'.AtText := by
  induction hleads with
  | refl => exact h
  | turn stage _ ih => exact ih.turn stage
  | readChar _ ih =>
      obtain ⟨text, hstands⟩ := ih.standsAt
      exact ⟨ih.pushed, _, hstands.next.2.1⟩
  | peekChar _ ih =>
      obtain ⟨text, hstands⟩ := ih.standsAt
      exact ⟨ih.pushed, _, hstands.peek⟩
  | close => exact ⟨by simp [Reader.close], [], Cursor.standsAt_close _⟩
  | report entries _ ih => exact ⟨ih.pushed, ih.standsAt⟩
  | drain _ ih => exact ⟨ih.pushed, ih.standsAt⟩

theorem Spent.token (h : r.Spent) : r.token.1 = .endOfInput ∧ r.token.2.Spent := by
  have hscan : r.cursor.token = Cursor.token.settle r.cursor (scan .between []) :=
    h.standsAt.token_eq
  simp only [Reader.token, h.pushed, hscan]
  exact ⟨rfl, rfl, rfl⟩

theorem Spent.turn (h : r.Spent) (stage : Stage) : (r.turn stage).2.Spent := by
  obtain ⟨htoken, hspent⟩ := h.token
  refine ⟨?_, hspent.standsAt⟩
  change (stage.absorb r.token.1).2.1 = none
  rw [htoken, stage.back_endOfInput]

theorem Spent.leads (h : r.Spent) (hleads : r.Leads r') : r'.Spent := by
  induction hleads with
  | refl => exact h
  | turn stage _ ih => exact ih.turn stage
  | readChar _ ih => exact ⟨ih.pushed, ih.standsAt.next.2.1⟩
  | peekChar _ ih => exact ⟨ih.pushed, ih.standsAt.peek⟩
  | close => exact ⟨rfl, Cursor.standsAt_close _⟩
  | report entries _ ih => exact ⟨ih.pushed, ih.standsAt⟩
  | drain _ ih => exact ⟨ih.pushed, ih.standsAt⟩

theorem Spent.read (h : r.Spent) : r.read.1 = .endOfInput := by
  have hturn : (r.turn (.datum [])).1 = .done .endOfInput := by
    simp [Reader.turn, h.token.1, Stage.absorb, Stage.start]
  rw [(Turns.done hturn).read_eq]

/-- Where a text is read, the end of the input is the end of the text. -/
theorem Turns.spent {stage : Stage} (h : Turns stage r .endOfInput r') (hr : r.AtText) :
    r'.Spent := by
  generalize hreading : Reading.endOfInput = reading at h
  induction h with
  | @done stage r reading hdone =>
      subst hreading
      have htoken : r.token.1 = .endOfInput := by
        refine Decidable.byContradiction fun htoken => ?_
        exact absurd ((stage.absorbs_of_ne htoken).found _ hdone) (by simp [Reading.isFound])
      have hpushed : (r.turn stage).2.pushed = none := by
        change (stage.absorb r.token.1).2.1 = none
        rw [htoken, stage.back_endOfInput]
      refine ⟨hpushed, ?_⟩
      change r.token.2.cursor.StandsAt []
      obtain ⟨text, hstands⟩ := hr.standsAt
      unfold Reader.token at htoken ⊢
      split at htoken
      · rename_i token hback
        exact absurd (hback.trans (congrArg some htoken)) hr.pushed
      · exact hstands.token_text.2 htoken
  | more hmore hrest ih => exact ih (hr.turn _) hreading

end Reader

namespace Reader

theorem atText_ofBytes {bytes : List UInt8} {text : List Char}
    (h : Text.decode? bytes = some text) : (Reader.ofBytes bytes).AtText :=
  ⟨by simp [Reader.ofBytes], text, Event.ofBytes_of_decode? h⟩

/-- A token takes a character of those to come. A datum is read in so many turns, while no more
constructs are open than tokens were used up, and there are no more data than characters, with a
token that was taken back counted. Over a source that is no more than the source has; and if the
source is a text, a reader that has come to the end of the input stays there, whatever is read. -/
theorem reading_progresses (r : Reader) :
    (r.cursor.token.2.left <:+ r.cursor.left ∧
      (r.cursor.token.1 ≠ .endOfInput →
        r.cursor.token.2.toCome.length < r.cursor.toCome.length)) ∧
    (Turns (.datum []) r r.read.1 r.read.2 ∧
      ∀ turns used stage r', r.Takes turns used stage r' →
        stage.size ≤ used ∧ used ≤ r.supply ∧ turns ≤ 2 * r.supply) ∧
    (∃ data last r', r.Yields data last r' ∧ data.length ≤ r.supply) ∧
    ∀ bytes, (Reader.ofBytes bytes).Leads r →
      r.supply ≤ (Event.characters (Event.ofBytes bytes)).length ∧
      ∀ text, Text.decode? bytes = some text →
        Event.characters (Event.ofBytes bytes) = text ∧
        ∀ r' r'', r.read = (.endOfInput, r') → r'.Leads r'' → r''.read.1 = .endOfInput := by
  refine ⟨⟨r.cursor.left_token, Cursor.toCome_token_lt⟩, ⟨r.turns_read, ?_⟩, ?_, ?_⟩
  · intro turns used stage r' htakes
    obtain ⟨hdepth, hused, hturns⟩ := htakes.bounds
    exact ⟨hdepth, by omega, by omega⟩
  · have hyields : r.Yields r.readAll.1 r.readAll.2.1 r.readAll.2.2 := yields_of_readAll rfl
    exact ⟨_, _, _, hyields, hyields.length_le⟩
  · intro bytes hleads
    refine ⟨supply_ofBytes bytes ▸ hleads.supply_le, fun text htext => ⟨?_, ?_⟩⟩
    · rw [Event.ofBytes_of_decode? htext, Event.characters_ofText]
    · intro r' r'' hread hafter
      have hturns : Turns (.datum []) r .endOfInput r' := by simpa only [hread] using r.turns_read
      have hspent : r'.Spent := hturns.spent ((atText_ofBytes htext).leads hleads)
      exact (hspent.leads hafter).read

/-- The text `(a)`: its first token, the list that is open after it, and the end after the list,
also when a character is looked at in between. -/
theorem reading_progresses_over_list :
    let r := Reader.ofBytes [40, 97, 41]
    r.cursor.token.2.toCome.length < r.cursor.toCome.length ∧
      (Stage.datum [.items .list []]).size ≤ 1 ∧
      r.read.2.supply ≤ 3 ∧ r.read.2.read.2.peekChar.2.read.1 = .endOfInput := by
  intro r
  obtain ⟨⟨-, htoken⟩, ⟨-, hturns⟩, -⟩ := reading_progresses r
  have hopen : r.Takes 1 1 (.datum [.items .list []]) (r.turn (.datum [])).2 := .turn .none rfl
  obtain ⟨-, -, -, hsource⟩ := reading_progresses r.read.2
  obtain ⟨hsupply, htext⟩ := hsource [40, 97, 41] (leads_read r)
  obtain ⟨hchars, hends⟩ := htext ['(', 'a', ')'] rfl
  rw [hchars] at hsupply
  refine ⟨htoken ?_, (hturns _ _ _ _ hopen).1, hsupply, hends _ _ rfl Leads.refl.peekChar⟩
  have hopening : r.cursor.token.1 = .opening := rfl
  simp [hopening]

end Reader

end Scheme
