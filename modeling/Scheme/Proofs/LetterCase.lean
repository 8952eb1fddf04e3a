import Mathlib.Tactic.FinCases
import Scheme.Proofs.ReadData
import Scheme.Proofs.ReadingProgress
/-!
# The case of letters

Outside of strings and characters the case of letters does not matter: the scanner does with each
character what it does with its lower case, and puts names in lower case itself. That is said of one
text and the same text in lower case; two texts that differ in case only have that one in common.
-/

namespace Scheme

/-! ## Characters in lower case -/

/-- Lower case changes the letters from `A` to `Z` alone. -/
theorem toLower_cases (c : Char) : c.toLower = c ∨ ∃ i : Fin 26, c = Char.ofNat (65 + i) := by
  by_cases hc : c.isUpper = true
  · have hrange : 65 ≤ c.toNat ∧ c.toNat ≤ 90 := by
      simpa [Char.isUpper, Char.le_def, UInt32.le_iff_toNat_le] using hc
    refine Or.inr ⟨⟨c.toNat - 65, by omega⟩, ?_⟩
    rw [show 65 + (c.toNat - 65) = c.toNat by omega, Char.ofNat_toNat]
  · exact Or.inl (Char.toLower_eq_of_not_isUpper hc)

theorem toLower_congr {α : Type} {f : Char → α}
    (h : ∀ i : Fin 26, f (Char.ofNat (65 + i)).toLower = f (Char.ofNat (65 + i))) (c : Char) :
    f c.toLower = f c := by
  rcases toLower_cases c with hself | ⟨i, rfl⟩
  · rw [hself]
  · exact h i

/-- A character that is no letter is the lower case of itself only. -/
theorem toLower_eq_iff {d : Char} (hd : d.isAlpha = false) (c : Char) : c.toLower = d ↔ c = d := by
  have hne : ∀ i : Fin 26, (Char.ofNat (65 + i)).toLower.isAlpha = true ∧
      (Char.ofNat (65 + i)).isAlpha = true := by decide
  refine iff_of_eq (toLower_congr (f := (· = d)) (fun i => ?_) c)
  obtain ⟨hlower, hupper⟩ := hne i
  refine propext ⟨?_, ?_⟩ <;> rintro rfl <;> simp_all

theorem isBlank_toLower (c : Char) : Text.isBlank c.toLower = Text.isBlank c :=
  toLower_congr (by decide) c

theorem isDelimiter_toLower (c : Char) : isDelimiter c.toLower = isDelimiter c :=
  toLower_congr (by decide) c

theorem startsNumber_toLower (c : Char) : startsNumber c.toLower = startsNumber c :=
  toLower_congr (by decide) c

/-- Marks are recognized in either case. -/
theorem HashMark.ofChar_toLower (c : Char) : ofChar c.toLower = ofChar c :=
  toLower_congr (by intro i; fin_cases i <;> rfl) c

theorem Number.isNumeralChar_toLower (c : Char) : isNumeralChar c.toLower = isNumeralChar c :=
  toLower_congr (by decide) c

namespace Text

theorem lower_toLower (c : Char) : lower c.toLower = lower c :=
  toLower_congr (by decide) c

theorem isCased_toLower (c : Char) : isCased c.toLower = isCased c :=
  toLower_congr (by decide) c

theorem isCaseIgnorable_toLower (c : Char) : isCaseIgnorable c.toLower = isCaseIgnorable c :=
  toLower_congr (by decide) c

theorem reachesCased_map_toLower (cs : List Char) :
    reachesCased (cs.map Char.toLower) = reachesCased cs := by
  induction cs with
  | nil => rfl
  | cons c cs ih =>
      unfold reachesCased at ih ⊢
      by_cases hc : isCaseIgnorable c = true
      · simpa [isCaseIgnorable_toLower, hc] using ih
      · simp [isCaseIgnorable_toLower, hc, isCased_toLower]

theorem lowerWithin_map_toLower (before : List Char) (c : Char) (after : List Char) :
    lowerWithin (before.map Char.toLower) c.toLower (after.map Char.toLower) =
      lowerWithin before c after := by
  simp only [lowerWithin, reachesCased_map_toLower, lower_toLower,
    toLower_eq_iff (by decide : 'Σ'.isAlpha = false),
    toLower_eq_iff (by decide : 'İ'.isAlpha = false)]

/-- A text and the same in lower case have one lower case. -/
theorem lowercase_map_toLower (cs : List Char) :
    lowercase (cs.map Char.toLower) = lowercase cs := by
  suffices hafter : ∀ before, lowercaseAfter (before.map Char.toLower) (cs.map Char.toLower) =
      lowercaseAfter before cs from hafter []
  induction cs with
  | nil => exact fun _ => rfl
  | cons c cs ih =>
      intro before
      rw [List.map_cons, lowercaseAfter, lowercaseAfter, lowerWithin_map_toLower,
        ← ih (c :: before)]
      rfl

end Text

/-- Whether a text is a numeral, and of which number, does not depend on case. -/
theorem Number.parse?_map_toLower (text : List Char) :
    parse? (text.map Char.toLower) = parse? text := by
  have hall : (text.map Char.toLower).all isNumeralChar = text.all isNumeralChar := by
    rw [List.all_map, show isNumeralChar ∘ Char.toLower = isNumeralChar from
      funext isNumeralChar_toLower]
  by_cases hnumeral : text.all isNumeralChar = true
  · have hmark : text.map Char.toLower = text.map smallMark := by
      refine List.map_congr_left fun c hc => ?_
      have hletters : ∀ i : Fin 26, isNumeralChar (Char.ofNat (65 + i)) = true →
          (Char.ofNat (65 + i)).toLower = smallMark (Char.ofNat (65 + i)) := by decide
      rcases toLower_cases c with hself | ⟨i, rfl⟩
      · rw [hself, smallMark, if_neg]
        rintro rfl
        exact absurd hself (by decide)
      · exact hletters i (List.all_eq_true.1 hnumeral _ hc)
    rw [hmark, parse?_map_smallMark]
  · unfold parse?
    rw [hall]
    simp [hnumeral]

/-! ## Scanning in lower case -/

/-- An event with its character in lower case. -/
def Event.fold : Event → Event
  | .char c => .char c.toLower
  | .undecodable => .undecodable

/-- A text without strings and characters. -/
structure PlainText (text : List Char) : Prop where
  noString : '\x22' ∉ text
  noCharacter : ¬ ['#', '\\'] <:+: text

theorem PlainText.of_suffix {text rest : List Char} (h : PlainText text) (hrest : rest <:+ text) :
    PlainText rest :=
  ⟨fun hmem => h.noString (hrest.subset hmem),
    fun hfound => h.noCharacter (hfound.trans hrest.isInfix)⟩

namespace Scanned

/-- The second is the first with what is left in lower case. -/
structure Folds (s s' : Scanned) : Prop where
  token : s'.token = s.token
  pushed : s'.pushed = s.pushed.map (Option.map Char.toLower)
  rest : s'.rest = s.rest.map Event.fold

/-- A choice that does not depend on case. -/
theorem Folds.ite {p q : Prop} [Decidable p] [Decidable q] {s s' t t' : Scanned} (hpq : q ↔ p)
    (hthen : p → s.Folds s') (helse : ¬ p → t.Folds t') :
    (if p then s else t).Folds (if q then s' else t') := by
  by_cases hp : p
  · rw [if_pos hp, if_pos (hpq.2 hp)]
    exact hthen hp
  · rw [if_neg hp, if_neg (mt hpq.1 hp)]
    exact helse hp

theorem Folds.after {s s' : Scanned} (h : s.Folds s') (entries entries' : List Entry) :
    (s.after entries).Folds (s'.after entries') :=
  ⟨h.token, h.pushed, h.rest⟩

theorem Name.scan_fold (read : List Char) (events : List Event) :
    (Name.scan (read.map Char.toLower) (events.map Event.fold)).chars =
        (Name.scan read events).chars.map Char.toLower ∧
      (Name.scan (read.map Char.toLower) (events.map Event.fold)).delimiter =
        (Name.scan read events).delimiter.map Char.toLower ∧
      (Name.scan (read.map Char.toLower) (events.map Event.fold)).rest =
        (Name.scan read events).rest.map Event.fold := by
  induction events generalizing read with
  | nil => simp [Name.scan]
  | cons event events ih =>
      cases event with
      | undecodable => simp [Name.scan, Event.fold]
      | char c =>
          simp only [List.map_cons, Event.fold, Name.scan, isDelimiter_toLower]
          split
          · simp
          · exact ih (c :: read)

theorem atomOf_fold (first : Char) (chars : List Char) :
    atomOf first.toLower (chars.map Char.toLower) = atomOf first chars := by
  have hdot : chars.map Char.toLower = ['.'] ↔ chars = ['.'] := by
    cases chars with
    | nil => simp
    | cons c rest => simp [toLower_eq_iff (by decide : '.'.isAlpha = false)]
  simp only [atomOf, hdot, startsNumber_toLower, Number.parse?_map_toLower,
    Text.lowercase_map_toLower]

theorem atom_fold (first : Char) (events : List Event) :
    (atom first events).Folds (atom first.toLower (events.map Event.fold)) := by
  obtain ⟨hchars, hdelimiter, hrest⟩ := Name.scan_fold [first] events
  simp only [List.map_cons, List.map_nil] at hchars hdelimiter hrest
  refine ⟨?_, ?_, hrest⟩
  · simp only [atom, Name.toScanned, hchars]
    exact atomOf_fold first _
  · simp only [atom, Name.toScanned, hdelimiter, Option.map_some]

theorem comma_fold (events : List Event) :
    (comma events).Folds (comma (events.map Event.fold)) := by
  cases events with
  | nil => exact ⟨rfl, rfl, rfl⟩
  | cons event events =>
      cases event with
      | undecodable => exact ⟨rfl, rfl, rfl⟩
      | char c =>
          exact .ite (toLower_eq_iff (by decide) c) (fun _ => ⟨rfl, rfl, rfl⟩)
            fun _ => ⟨rfl, rfl, rfl⟩

end Scanned

/-- Where the scanner reads a plain text; after a hash mark no character begins. -/
structure ScanMode.Plain (mode : ScanMode) (events : List Event) : Prop where
  text : PlainText (Event.characters events)
  hash : mode = .hash → events.head? ≠ some (.char '\\')

theorem ScanMode.Plain.tail {mode : ScanMode} {event : Event} {rest : List Event}
    (h : mode.Plain (event :: rest)) : PlainText (Event.characters rest) :=
  h.text.of_suffix ((List.suffix_cons event rest).filterMap _)

/-- A plain text in lower case has the tokens that it has itself. -/
theorem scan_fold {mode : ScanMode} {events : List Event} (h : mode.Plain events) :
    (scan mode events).Folds (scan mode (events.map Event.fold)) := by
  induction events generalizing mode with
  | nil => cases mode <;> exact ⟨rfl, rfl, rfl⟩
  | cons event rest ih =>
      have hrest {next : ScanMode} (hnext : next ≠ .hash) :
          (scan next rest).Folds (scan next (rest.map Event.fold)) := ih ⟨h.tail, (absurd · hnext)⟩
      cases event with
      | undecodable =>
          cases mode with
          | hash => exact (hrest (by simp)).after _ _
          | between | comment => exact ⟨rfl, rfl, rfl⟩
      | char c =>
          have hsame {d : Char} (hd : d.isAlpha = false) : c.toLower = d ↔ c = d :=
            toLower_eq_iff hd c
          cases mode with
          | comment =>
              exact .ite (or_congr (hsame (by decide)) (hsame (by decide)))
                (fun _ => hrest (by simp)) fun _ => hrest (by simp)
          | hash =>
              have hmark : HashMark.ofChar c ≠ .character := by
                intro hmark
                refine h.hash rfl ?_
                unfold HashMark.ofChar at hmark
                split_ifs at hmark with h₁ h₂ h₃ h₄
                rw [h₄]
                rfl
              simp only [List.map_cons, Event.fold, scan, HashMark.ofChar_toLower]
              split
              · exact ⟨rfl, rfl, rfl⟩
              · exact ⟨rfl, rfl, rfl⟩
              · exact absurd (by assumption) hmark
              · exact hrest (by simp)
              · exact (hrest (by simp)).after _ _
              · exact (hrest (by simp)).after _ _
          | between =>
              have hstring : c ≠ '\x22' := by
                rintro rfl
                exact h.text.noString (List.mem_cons_self ..)
              have hnext : c = '#' → ScanMode.Plain .hash rest := by
                rintro rfl
                refine ⟨h.tail, fun _ hhead => ?_⟩
                cases rest with
                | nil => cases hhead
                | cons event rest =>
                    cases hhead
                    exact h.text.noCharacter ⟨[], Event.characters rest, rfl⟩
              exact .ite (by rw [isBlank_toLower]) (fun _ => hrest (by simp)) fun _ =>
                .ite (hsame (by decide)) (fun _ => hrest (by simp)) fun _ =>
                .ite (hsame (by decide)) (fun hhash => ih (hnext hhash)) fun _ =>
                .ite (hsame (by decide)) (fun _ => ⟨rfl, rfl, rfl⟩) fun _ =>
                .ite (hsame (by decide)) (fun _ => ⟨rfl, rfl, rfl⟩) fun _ =>
                .ite (hsame (by decide)) (fun _ => ⟨rfl, rfl, rfl⟩) fun _ =>
                .ite (hsame (by decide)) (fun _ => ⟨rfl, rfl, rfl⟩) fun _ =>
                .ite (hsame (by decide)) (fun _ => Scanned.comma_fold rest) fun _ =>
                .ite (hsame (by decide)) (fun heq => absurd heq hstring) fun _ =>
                Scanned.atom_fold c rest

/-! ## Two sources -/

theorem Event.characters_map_fold (events : List Event) :
    Event.characters (events.map Event.fold) = (Event.characters events).map Char.toLower := by
  induction events with
  | nil => rfl
  | cons event events ih =>
      cases event with
      | undecodable => exact ih
      | char c => exact congrArg (c.toLower :: ·) ih

theorem PlainText.of_map_toLower {text text' : List Char} (h : PlainText text)
    (hcase : text.map Char.toLower = text'.map Char.toLower) : PlainText text' := by
  constructor
  · intro hmem
    have hlower : '\x22' ∈ text.map Char.toLower := by
      rw [hcase]
      exact List.mem_map.2 ⟨_, hmem, by decide⟩
    obtain ⟨c, hc, heq⟩ := List.mem_map.1 hlower
    rw [(toLower_eq_iff (by decide) c).1 heq] at hc
    exact h.noString hc
  · intro hfound
    have hlower : ['#', '\\'] <:+: text.map Char.toLower := by
      rw [hcase]
      exact hfound.map Char.toLower
    obtain ⟨marks, hmarks, heq⟩ := List.infix_map_iff.1 hlower
    obtain ⟨c, rest, rfl, hc, hrest⟩ := List.map_eq_cons_iff.1 heq.symm
    obtain ⟨c', rest', rfl, hc', hnil⟩ := List.map_eq_cons_iff.1 hrest
    rw [(toLower_eq_iff (by decide) c).1 hc, (toLower_eq_iff (by decide) c').1 hc',
      List.map_eq_nil_iff.1 hnil] at hmarks
    exact h.noCharacter hmarks

namespace Cursor

/-- Two cursors with the same events to come, except for the case of letters. -/
structure SameButCase (c c' : Cursor) : Prop where
  left : c.left.map Event.fold = c'.left.map Event.fold
  ended : c.pushed = some none ↔ c'.pushed = some none

/-- Cursors in one state with texts to come that differ in case only. -/
theorem sameButCase_texts (c : Cursor) {text text' : List Char}
    (hcase : text.map Char.toLower = text'.map Char.toLower) :
    SameButCase { c with upcoming := Event.ofText text }
      { c with upcoming := Event.ofText text' } := by
  have hfold (text : List Char) :
      (Event.ofText text).map Event.fold = Event.ofText (text.map Char.toLower) := by
    simp [Event.ofText, Function.comp_def, Event.fold]
  refine ⟨?_, Iff.rfl⟩
  simp only [left, List.map_append, hfold, hcase]

end Cursor

/-- What is left after a token, in lower case. -/
theorem Scanned.Folds.left {s s' : Scanned} (h : s.Folds s') :
    s'.left = s.left.map Event.fold ∧ (s'.pushed = some none ↔ s.pushed = some none) := by
  rw [Scanned.left, Scanned.left, h.pushed, h.rest]
  cases s.pushed with
  | none => simp [Event.ofPushed]
  | some answer => cases answer <;> simp [Event.ofPushed, Event.fold]

namespace Cursor

variable {c c' : Cursor}

theorem SameButCase.toCome (h : c.SameButCase c') :
    c.toCome.map Char.toLower = c'.toCome.map Char.toLower := by
  rw [Cursor.toCome, Cursor.toCome, ← Event.characters_map_fold, h.left,
    Event.characters_map_fold]

theorem SameButCase.token (h : c.SameButCase c') (hplain : PlainText c.toCome) :
    c.token.1 = c'.token.1 ∧ c.token.2.SameButCase c'.token.2 := by
  have hplain' : PlainText c'.toCome := hplain.of_map_toLower h.toCome
  by_cases hended : c.pushed = some none
  · have hended' := h.ended.1 hended
    have hleft := h.left
    simp only [Cursor.left, hended, hended', Event.ofPushed] at hleft
    simp only [Cursor.token, hended, hended']
    exact ⟨trivial, hleft, Iff.rfl⟩
  · rw [token_eq_scan hended, token_eq_scan (mt h.ended.2 hended)]
    have hfolds : (scan .between c.left).Folds (scan .between (c.left.map Event.fold)) :=
      scan_fold ⟨hplain, fun hmode => by cases hmode⟩
    have hfolds' : (scan .between c'.left).Folds (scan .between (c.left.map Event.fold)) := by
      rw [h.left]
      exact scan_fold ⟨hplain', fun hmode => by cases hmode⟩
    refine ⟨hfolds.token.symm.trans hfolds'.token, ?_, ?_⟩
    · exact hfolds.left.1.symm.trans hfolds'.left.1
    · exact hfolds.left.2.symm.trans hfolds'.left.2

/-- The cursor after so many tokens. -/
def skip : Nat → Cursor → Cursor
  | 0, c => c
  | n + 1, c => skip n c.token.2

theorem SameButCase.skip (h : c.SameButCase c') (hplain : PlainText c.toCome) (n : Nat) :
    (c.skip n).token.1 = (c'.skip n).token.1 := by
  induction n generalizing c c' with
  | zero => exact (h.token hplain).1
  | succ n ih =>
      exact ih (h.token hplain).2 (hplain.of_suffix (c.left_token.filterMap _))

end Cursor

namespace Reader

/-- Two readers with the same to come, except for the case of letters, and with neither strings nor
characters in it. -/
structure SameButCase (r r' : Reader) : Prop where
  pushed : r.pushed = r'.pushed
  cursor : r.cursor.SameButCase r'.cursor
  plain : PlainText r.cursor.toCome

variable {r r' r₁ : Reader} {stage : Stage} {reading : Reading}

theorem SameButCase.token (h : r.SameButCase r') :
    r.token.1 = r'.token.1 ∧ r.token.2.SameButCase r'.token.2 := by
  have hplain : PlainText r.cursor.token.2.toCome :=
    h.plain.of_suffix (r.cursor.left_token.filterMap _)
  obtain ⟨htoken, hcursor⟩ := h.cursor.token h.plain
  unfold Reader.token
  rw [← h.pushed]
  cases hpushed : r.pushed with
  | some token => exact ⟨rfl, rfl, h.cursor, h.plain⟩
  | none => exact ⟨htoken, rfl, hcursor, hplain⟩

theorem SameButCase.report (h : r.SameButCase r') (entries : List Entry) :
    (r.report entries).SameButCase (r'.report entries) :=
  ⟨h.pushed, ⟨h.cursor.left, h.cursor.ended⟩, h.plain⟩

theorem SameButCase.turn (h : r.SameButCase r') (stage : Stage) :
    (r.turn stage).1 = (r'.turn stage).1 ∧ (r.turn stage).2.SameButCase (r'.turn stage).2 := by
  obtain ⟨htoken, hsame⟩ := h.token
  simp only [Reader.turn, htoken]
  exact ⟨trivial, rfl, (hsame.report _).cursor, hsame.plain⟩

theorem Turns.sameButCase (hturns : Turns stage r reading r₁) (h : r.SameButCase r') :
    ∃ r₁', Turns stage r' reading r₁' ∧ r₁.SameButCase r₁' := by
  induction hturns generalizing r' with
  | @done stage r reading hdone =>
      obtain ⟨hprogress, hsame⟩ := h.turn stage
      exact ⟨_, .done (hprogress ▸ hdone), hsame.report _⟩
  | @more stage next r r₁ reading hmore hrest ih =>
      obtain ⟨hprogress, hsame⟩ := h.turn stage
      obtain ⟨r₁', hturns, hafter⟩ := ih hsame
      exact ⟨r₁', .more (hprogress ▸ hmore) hturns, hafter⟩

theorem SameButCase.read (h : r.SameButCase r') :
    r.read.1 = r'.read.1 ∧ r.read.2.SameButCase r'.read.2 := by
  obtain ⟨r₁', hturns, hsame⟩ := r.turns_read.sameButCase h
  rw [hturns.read_eq]
  exact ⟨rfl, hsame⟩

theorem SameButCase.yields {data : List Datum} {last : Reading} (h : r.SameButCase r')
    (hyields : r.Yields data last r₁) :
    ∃ r₁', r'.Yields data last r₁' ∧ r₁.SameButCase r₁' := by
  induction hyields generalizing r' with
  | @last r r₁ last hread hlast =>
      obtain ⟨hreading, hsame⟩ := h.read
      rw [hread] at hreading hsame
      exact ⟨r'.read.2, .last (Prod.ext hreading.symm rfl) hlast, hsame⟩
  | @datum r r₁ r₂ d data last hread hrest ih =>
      obtain ⟨hreading, hsame⟩ := h.read
      rw [hread] at hreading hsame
      obtain ⟨r₁', hyields, hafter⟩ := ih hsame
      have hread' : r'.read = (.datum d, r'.read.2) := Prod.ext hreading.symm rfl
      exact ⟨r₁', .datum hread' hyields, hafter⟩

theorem Yields.sound {data : List Datum} {last : Reading} (h : r.Yields data last r₁)
    (hr : r.Sound) : ∀ d ∈ data, d.Sound := by
  induction h with
  | last => exact fun _ hd => absurd hd List.not_mem_nil
  | @datum r r₁ r₂ d data last hread hrest ih =>
      have hsound := hr.read
      rw [hread] at hsound
      exact List.forall_mem_cons.2 ⟨hsound.1, ih hsound.2⟩

end Reader

namespace Datum

mutual

/-- A datum of good form is like itself. -/
theorem Sound.alike {d : Datum} (hd : d.Sound) : d.Alike d := by
  cases d with
  | number value =>
      have hnumber : ¬ value.isNaN = true := by rw [show value.isNaN = false from hd]; decide
      rw [Float.isNaN_eq_decide_eq_nan, decide_eq_true_eq] at hnumber
      exact Float.beq_self_iff.2 hnumber
  | vector elements => exact AllSound.allAlike hd
  | pair first rest => exact ⟨Sound.alike hd.1, Sound.alike hd.2⟩
  | _ => rfl

theorem AllSound.allAlike {ds : List Datum} (hds : AllSound ds) : AllAlike ds ds := by
  cases ds with
  | nil => trivial
  | cons d ds => exact ⟨Sound.alike hds.1, AllSound.allAlike hds.2⟩

end

/-- A datum of good form that is built twice is built as two equal values. -/
theorem Sound.equal_build {d : Datum} (hd : d.Sound) (h : Heap) {h' : Heap}
    (hext : (h.build d).2.Extends h') :
    (h'.build d).2.equal (h.build d).1 (h'.build d).1 = true :=
  Heap.equal_of_sameTree ⟨d, d, (Heap.denotes_build h d).extend
    (hext.trans (Heap.extends_build h' d)), Heap.denotes_build h' d, hd.alike⟩

end Datum

namespace Reader

/-- The same reader with another text to come after what was taken back. -/
def facing (text : List Char) (r : Reader) : Reader :=
  { r with cursor := { r.cursor with upcoming := Event.ofText text } }

/-- Texts that differ in the case of letters have the same tokens, from any state of a reader, as
long as there are neither strings nor characters in what is to come: a character that was taken
back belongs to it. So they have the same data, which are equal where they are built, and the same
end. -/
theorem letter_case_is_ignored {r : Reader} (hr : r.Sound) {text text' : List Char}
    (hcase : text.map Char.toLower = text'.map Char.toLower)
    (hplain : PlainText (r.facing text).cursor.toCome) :
    (∀ n, ((r.facing text).cursor.skip n).token.1 = ((r.facing text').cursor.skip n).token.1) ∧
    ∃ data last r₁ r₁', (r.facing text).Yields data last r₁ ∧
      (r.facing text').Yields data last r₁' ∧
      ∀ d ∈ data, ∀ h h' : Heap, (h.build d).2.Extends h' →
        (h'.build d).2.equal (h.build d).1 (h'.build d).1 = true := by
  have hsame : (r.facing text).SameButCase (r.facing text') :=
    ⟨rfl, r.cursor.sameButCase_texts hcase, hplain⟩
  have hyields := yields_of_readAll (r := r.facing text) rfl
  obtain ⟨r₁', hyields', -⟩ := hsame.yields hyields
  exact ⟨hsame.cursor.skip hplain, _, _, _, r₁', hyields, hyields', fun d hd h h' hext =>
    (hyields.sound hr d hd).equal_build h hext⟩

/-- Names, marks, an exponent and a comment, after a parenthesis that was taken back. -/
theorem letter_case_is_ignored_after_parenthesis :
    let r : Reader := { cursor := { upcoming := [], pushed := some (some '(') } }
    let upper := "Foo #T 1E3) ; X".toList
    let lower := "fOO #t 1e3) ; x".toList
    PlainText (r.facing upper).cursor.toCome ∧
      (∀ n, ((r.facing upper).cursor.skip n).token.1 = ((r.facing lower).cursor.skip n).token.1) ∧
      ∃ data last r₁ r₁', (r.facing upper).Yields data last r₁ ∧
        (r.facing lower).Yields data last r₁' ∧
        ∀ d ∈ data, (((Heap.build {} d).2.build d).2.equal (Heap.build {} d).1
          ((Heap.build {} d).2.build d).1) = true := by
  intro r upper lower
  have hr : r.Sound := fun _ hpushed => by cases hpushed
  have hcase : upper.map Char.toLower = lower.map Char.toLower := by decide
  have hplain : PlainText (r.facing upper).cursor.toCome := ⟨by decide, by decide⟩
  obtain ⟨htokens, data, last, r₁, r₁', h, h', hequal⟩ := letter_case_is_ignored hr hcase hplain
  exact ⟨hplain, htokens, data, last, r₁, r₁', h, h', fun d hd => hequal d hd {} _ (.refl _)⟩

/-- A double quote that was taken back begins a string with what is to come, where the case of
letters matters, though there is none in the texts themselves. So it is after `x` has been read off
a text where such a mark follows it. -/
theorem letter_case_after_quote :
    let text : List Char := ['x', '\x22']
    let r := (Reader.ofText text).read.2
    let upper : List Char := ['A']
    let lower : List Char := ['a']
    (Reader.ofText text).read.1 = .datum (.symbol ⟨"x"⟩) ∧ r.Sound ∧
      upper.map Char.toLower = lower.map Char.toLower ∧ PlainText upper ∧ PlainText lower ∧
      (r.facing upper).cursor.token.1 ≠ (r.facing lower).cursor.token.1 ∧
      ∃ r₁ r₁', (r.facing upper).Yields [.string upper] .endOfInput r₁ ∧
        (r.facing lower).Yields [.string lower] .endOfInput r₁' ∧
        ((Heap.build {} (.string upper)).2.build (.string lower)).2.equal
          (Heap.build {} (.string upper)).1
          ((Heap.build {} (.string upper)).2.build (.string lower)).1 = false := by
  intro text r upper lower
  have hr : r = { cursor := { upcoming := [], pushed := some (some '\x22') } } := by cbv
  have hsound : r.Sound := fun _ hpushed => by
    rw [hr] at hpushed
    cases hpushed
  have htoken : (r.facing upper).cursor.token.1 ≠ (r.facing lower).cursor.token.1 := by
    rw [hr]
    decide +kernel
  -- each text is one string that is not closed
  have hyields : ∀ text ∈ [upper, lower],
      ∃ r₁, (r.facing text).Yields [.string text] .endOfInput r₁ := by
    intro text htext
    have hread : (r.facing text).read.1 = .datum (.string text) := by
      rw [hr]
      rcases List.mem_pair.1 htext with rfl | rfl <;> cbv
    have hend : (r.facing text).read.2.read.1 = .endOfInput := by
      rw [hr]
      rcases List.mem_pair.1 htext with rfl | rfl <;> cbv
    exact ⟨_, .datum (Prod.ext hread rfl) (.last (Prod.ext hend rfl) (by simp))⟩
  obtain ⟨r₁, hupper⟩ := hyields upper (by simp)
  obtain ⟨r₁', hlower⟩ := hyields lower (by simp)
  exact ⟨by cbv, hsound, by decide, ⟨by decide, by decide⟩, ⟨by decide, by decide⟩, htoken,
    r₁, r₁', hupper, hlower, by cbv⟩

end Reader

end Scheme
