import Scheme.Proofs.Readings
/-!
# Reading across a line break

A reader on two texts, with a line break between them, reads the data of the first as if it were
alone, and where it ends without an open construct goes on as a reader on the second does. Of the
reports only that of a mark at the end of the first text is another one.
-/

namespace Scheme

namespace Reader

/-- The second reader has before it what the first has, and then another text on a line of its own.
Lexing what the first has cuts off no token, and reports nothing but what is listed. -/
structure Ahead (y : List Char) (reports : List Entry) (r r' : Reader) : Prop where
  pushed : r'.pushed = r.pushed
  noEnd : r.pushed ≠ some .endOfInput
  entries : r'.cursor.entries = r.cursor.entries
  noHash : .hashAtEnd ∉ r.cursor.entries
  notClosed : r'.cursor.abandoned = none
  text : ∃ x tokens others, r.cursor.StandsAt x ∧ r'.cursor.StandsAt (x ++ y) ∧
    (x = [] ∨ Breaks x y) ∧ Lexes x tokens others ∧ Unbroken others ∧ others ⊆ reports

/-- A reader on a text after earlier reports, where reports of the end of an input before it are
made at a line break. -/
def resuming (y : List Char) (earlier : List Entry) : Reader :=
  (ofText y).prefaced (earlier.map .atLineBreak)

theorem ahead_ofText {x y : List Char} {tokens : List Token} {entries : List Entry}
    (hbreak : x = [] ∨ Breaks x y) (hx : Lexes x tokens entries) (hunbroken : Unbroken entries) :
    Ahead y entries (ofText x) (ofText (x ++ y)) where
  pushed := rfl
  noEnd := by simp [ofText]
  entries := rfl
  noHash := by simp [ofText, Cursor.ofText]
  notClosed := rfl
  text := ⟨x, tokens, entries, standsAt_ofText x, standsAt_ofText (x ++ y), hbreak, hx, hunbroken,
    List.Subset.refl _⟩

variable {y : List Char} {reports : List Entry} {r r' : Reader}

/-- More reports on both sides, of anything but the end of the input. -/
theorem Ahead.report (h : Ahead y reports r r') {entries : List Entry}
    (hentries : .hashAtEnd ∉ entries) : Ahead y reports (r.report entries) (r'.report entries) where
  pushed := h.pushed
  noEnd := h.noEnd
  entries := congrArg (· ++ entries) h.entries
  noHash := by simp [Reader.report, h.noHash, hentries]
  notClosed := h.notClosed
  text := h.text

theorem Ahead.drained (h : Ahead y reports r r') : Ahead y reports r.drain.2 r'.drain.2 where
  pushed := h.pushed
  noEnd := h.noEnd
  entries := rfl
  noHash := by simp [drain]
  notClosed := h.notClosed
  text := h.text

theorem abandoned_token (c : Cursor) : c.token.2.abandoned = c.abandoned := by
  unfold Cursor.token
  split <;> rfl

/-- The second reader finds the token that the first finds. -/
theorem Ahead.token (h : Ahead y reports r r') (htoken : r.token.1 ≠ .endOfInput) :
    r'.token.1 = r.token.1 ∧ Ahead y reports r.token.2 r'.token.2 := by
  unfold Reader.token at htoken ⊢
  rw [h.pushed]
  cases hpushed : r.pushed with
  | some token => exact ⟨rfl, rfl, by simp, h.entries, h.noHash, h.notClosed, h.text⟩
  | none =>
      simp only [hpushed] at htoken ⊢
      obtain ⟨x, tokens, others, hr, hr', hbreak, hlexes, hunbroken, hreports⟩ := h.text
      cases hlexes with
      | done hend => exact absurd (hr.gives hend).1 htoken
      | more hgives hne hrest =>
          rw [unbroken_append] at hunbroken
          rw [List.append_subset] at hreports
          obtain ⟨hnot, hbreak', hgives'⟩ := (hgives.across hbreak hunbroken.1).1 hne
          obtain ⟨htoken₁, hstands₁, hentries₁⟩ := hr.gives hgives
          obtain ⟨htoken₂, hstands₂, hentries₂⟩ := hr'.gives hgives'
          refine ⟨htoken₂.trans htoken₁.symm, rfl, by simp, ?_, ?_, ?_, ?_⟩
          · exact hentries₂.trans ((congrArg (· ++ _) h.entries).trans hentries₁.symm)
          · simp only [hentries₁, List.mem_append, not_or]
            exact ⟨h.noHash, hnot⟩
          · exact (abandoned_token _).trans h.notClosed
          · exact ⟨_, _, _, hstands₁, hstands₂, hbreak', hrest, hunbroken.2, hreports.2⟩

/-- Where the first reader is at the end, the second goes on with the other text. -/
theorem Ahead.token_end (h : Ahead y reports r r') (htoken : r.token.1 = .endOfInput) :
    r'.token = (resuming y r.token.2.cursor.entries).token ∧
      (.hashAtEnd ∈ r.token.2.cursor.entries → .hashAtEnd ∈ reports) := by
  have hnone : r.pushed = none := by
    cases hpushed : r.pushed with
    | none => rfl
    | some token =>
        simp only [Reader.token, hpushed] at htoken
        exact absurd (by rw [hpushed, htoken]) h.noEnd
  obtain ⟨x, tokens, others, hr, hr', hbreak, hlexes, hunbroken, hreports⟩ := h.text
  simp only [Reader.token, hnone] at htoken
  cases hlexes with
  | more hgives hne hrest => exact absurd ((hr.gives hgives).1.symm.trans htoken) hne
  | @done _ _ rest hend =>
      have hentries : r.token.2.cursor.entries = r.cursor.entries ++ others := by
        simp only [Reader.token, hnone]
        exact (hr.gives hend).2.2
      have hscan := (hend.across hbreak hunbroken).2 rfl
      rw [hentries]
      constructor
      · have hy : Cursor.StandsAt (resuming y (r.cursor.entries ++ others)).cursor y := rfl
        simp only [Reader.token, h.pushed, hnone, hr'.token_eq, hscan, hy.token_eq]
        simp [Cursor.token.settle, Scanned.after, resuming, prefaced, ofText, Cursor.ofText,
          h.entries, h.notClosed, map_atLineBreak h.noHash]
      · intro hhash
        exact hreports ((List.mem_append.1 hhash).resolve_left h.noHash)

theorem Ahead.turn (h : Ahead y reports r r') (htoken : r.token.1 ≠ .endOfInput) (stage : Stage) :
    (r'.turn stage).1 = (r.turn stage).1 ∧
      Ahead y reports (r.turn stage).2 (r'.turn stage).2 := by
  obtain ⟨hsame, hahead⟩ := h.token htoken
  obtain ⟨hback, hnot, -, -⟩ := stage.absorbs_of_ne htoken
  have hreport := hahead.report hnot
  simp only [Reader.turn, hsame]
  refine ⟨trivial, rfl, ?_, hreport.entries, hreport.noHash, hreport.notClosed, hreport.text⟩
  rcases hback with hback | hback
  · simp [hback]
  · simpa [hback] using htoken

theorem noHash_entries (reading : Reading) : .hashAtEnd ∉ reading.entries := by
  cases reading <;> simp [Reading.entries]

/-- An answer that a token brings comes to the second reader too. -/
theorem Ahead.turns {stage : Stage} {reading : Reading} {r₁ : Reader}
    (hturns : Turns stage r reading r₁) (h : Ahead y reports r r') (hfound : reading.isFound = true) :
    ∃ r₁', Turns stage r' reading r₁' ∧ Ahead y reports r₁ r₁' := by
  induction hturns generalizing r' with
  | @done stage r reading hdone =>
      have htoken : r.token.1 ≠ .endOfInput := by
        intro htoken
        simp only [Reader.turn, htoken] at hdone
        rcases stage.absorb_endOfInput with ⟨-, habsorb⟩ | habsorb
        all_goals
          rw [habsorb] at hdone
          cases hdone
          simp [Reading.isFound] at hfound
      obtain ⟨hsame, hahead⟩ := h.turn htoken stage
      exact ⟨_, .done (hsame.trans hdone), hahead.report (noHash_entries reading)⟩
  | @more stage next r _ reading hmore hrest ih =>
      obtain ⟨hsame, hahead⟩ := h.turn (token_ne_of_turn hmore) stage
      obtain ⟨r₁', hturns', hahead'⟩ := ih hahead hfound
      exact ⟨r₁', .more (hsame.trans hmore) hturns', hahead'⟩

/-- At the end of the first text the second reader is still at the start of a datum, and its
turns go on as those of a reader on the other text. -/
theorem Ahead.turns_end {stage : Stage} {r₁ : Reader} (hturns : Turns stage r .endOfInput r₁)
    (h : Ahead y reports r r') :
    (∀ reading r₂, Turns (.datum []) (resuming y r₁.cursor.entries) reading r₂ →
      Turns stage r' reading r₂) ∧
    (.hashAtEnd ∈ r₁.cursor.entries → .hashAtEnd ∈ reports) := by
  generalize hreading : Reading.endOfInput = reading at hturns
  induction hturns generalizing r' with
  | @done stage r reading hdone =>
      subst hreading
      have htoken : r.token.1 = .endOfInput := by
        refine Decidable.byContradiction fun htoken => ?_
        have hfound := (stage.absorbs_of_ne htoken).found _ hdone
        simp [Reading.isFound] at hfound
      obtain ⟨hsame, hhash⟩ := h.token_end htoken
      have hstage : stage = .datum [] ∧ (r.turn stage).2.cursor.entries =
          r.token.2.cursor.entries := by
        simp only [Reader.turn, htoken] at hdone ⊢
        rcases stage.absorb_endOfInput with ⟨rfl, habsorb⟩ | habsorb
        · simp [habsorb, Reader.report]
        · simp [habsorb] at hdone
      obtain ⟨rfl, hentries⟩ := hstage
      simp only [Reading.entries, Reader.report, List.append_nil, hentries]
      exact ⟨fun reading r₂ hnext => hnext.congr hsame.symm, hhash⟩
  | @more stage next r _ reading hmore hrest ih =>
      obtain ⟨hsame, hahead⟩ := h.turn (token_ne_of_turn hmore) stage
      obtain ⟨hgoes, hhash⟩ := ih hahead hreading
      exact ⟨fun reading r₂ hnext => .more (hsame.trans hmore) (hgoes reading r₂ hnext), hhash⟩

/-! ## Data -/

theorem Ahead.read_found (h : Ahead y reports r r') {reading : Reading} {r₁ : Reader}
    (hread : r.read = (reading, r₁)) (hfound : reading.isFound = true) :
    ∃ r₁', r'.read = (reading, r₁') ∧ Ahead y reports r₁ r₁' := by
  have hturns : Turns (.datum []) r reading r₁ := by simpa only [hread] using r.turns_read
  obtain ⟨r₁', hturns', hahead⟩ := h.turns hturns hfound
  exact ⟨r₁', hturns'.read_eq, hahead⟩

theorem Ahead.read_end (h : Ahead y reports r r') {r₁ : Reader}
    (hread : r.read = (.endOfInput, r₁)) :
    r'.read = (resuming y r₁.cursor.entries).read ∧
      (.hashAtEnd ∈ r₁.cursor.entries → .hashAtEnd ∈ reports) := by
  have hturns : Turns (.datum []) r .endOfInput r₁ := by simpa only [hread] using r.turns_read
  obtain ⟨hgoes, hhash⟩ := h.turns_end hturns
  exact ⟨(hgoes _ _ (turns_read _)).read_eq, hhash⟩

/-- All data of the first text, and then what a reader on the other text reads. -/
theorem Ahead.readAll_end (h : Ahead y reports r r') {data : List Datum} {r₁ : Reader}
    (hread : r.readAll = (data, .endOfInput, r₁)) :
    r'.readAll = (data ++ (resuming y r₁.cursor.entries).readAll.1,
      (resuming y r₁.cursor.entries).readAll.2) ∧
    (.hashAtEnd ∈ r₁.cursor.entries → .hashAtEnd ∈ reports) := by
  induction data generalizing r r' with
  | nil =>
      rcases read_of_readAll hread with ⟨-, hlast, -⟩ | ⟨d, others, r₂, hcons, -⟩
      · obtain ⟨hsame, hhash⟩ := h.read_end hlast
        exact ⟨readAll_congr hsame, hhash⟩
      · cases hcons
  | cons d data ih =>
      rcases read_of_readAll hread with ⟨hnil, -⟩ | ⟨d', others, r₂, hcons, hfirst, hothers⟩
      · cases hnil
      · cases hcons
        obtain ⟨r₂', hfirst', hahead⟩ := h.read_found hfirst rfl
        obtain ⟨hall, hhash⟩ := ih hahead hothers
        exact ⟨by rw [readAll_of_datum hfirst', hall]; rfl, hhash⟩

/-- A datum of the first text that cannot be read cannot be read in the two texts. -/
theorem Ahead.readAll_failed (h : Ahead y reports r r') {data : List Datum} {cause : Failure}
    {r₁ : Reader} (hread : r.readAll = (data, .failed cause, r₁)) :
    r'.readAll.2.1 = .failed cause := by
  induction data generalizing r r' with
  | nil =>
      rcases read_of_readAll hread with ⟨-, hlast, hne⟩ | ⟨d, others, r₂, hcons, -⟩
      · obtain ⟨r₁', hlast', -⟩ := h.read_found hlast rfl
        rw [readAll_of_last hlast' hne]
      · cases hcons
  | cons d data ih =>
      rcases read_of_readAll hread with ⟨hnil, -⟩ | ⟨d', others, r₂, hcons, hfirst, hothers⟩
      · cases hnil
      · cases hcons
        obtain ⟨r₂', hfirst', hahead⟩ := h.read_found hfirst rfl
        rw [readAll_of_datum hfirst', ih hahead hothers]

/-- A line break in front of a text is passed over. -/
theorem read_resuming_lineBreak (y : List Char) (earlier : List Entry) :
    (resuming ('\n' :: y) earlier).read = (resuming y earlier).read := by
  have htoken : (resuming y earlier).token = (resuming ('\n' :: y) earlier).token := rfl
  exact ((turns_read (resuming y earlier)).congr htoken).read_eq

end Reader

end Scheme
