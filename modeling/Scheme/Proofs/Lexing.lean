import Scheme.Proofs.Scanning
/-!
# Lexing

What the scanner does with one character, said once. It follows that scanning shortens the source,
so that all tokens of a source can be listed, and that the scanner takes a line break for the end
of the input: up to there it finds the same tokens whatever the text goes on with.
-/

namespace Scheme

/-! ## One character -/

/-- What the scanner does with the source after a character. -/
inductive Scans (mode : ScanMode) (c : Char) : (List Event → Scanned) → Prop where
  /-- The character is passed over. A line break ends a comment and a mark. -/
  | skip (next : ScanMode) (entries : List Entry) (hbreak : c = '\n' → next = .between)
      (hentries : entries = [] ∨ entries = [.ignoredRadix c] ∨ entries = [.ignoredHash c]) :
      Scans mode c fun rest => (scan next rest).after entries
  /-- The character is the last of a token. -/
  | mark {token : Token} (hbreak : c ≠ '\n') (htoken : token ≠ .endOfInput) :
      Scans mode c fun rest => { token, rest }
  | character (hbreak : c ≠ '\n') : Scans mode c Scanned.character
  | comma (hbreak : c ≠ '\n') : Scans mode c Scanned.comma
  | string (hbreak : c ≠ '\n') : Scans mode c (Scanned.string [] false)
  | atom (hbreak : c ≠ '\n') : Scans mode c (Scanned.atom c)

@[simp] theorem Scanned.after_nil (s : Scanned) : s.after [] = s :=
  rfl

theorem Scanned.after_after (earlier entries : List Entry) (s : Scanned) :
    (s.after entries).after earlier = s.after (earlier ++ entries) := by
  simp [Scanned.after]

private theorem scans_comment (c : Char) :
    ∃ f, Scans .comment c f ∧ ∀ rest, scan .comment (.char c :: rest) = f rest := by
  by_cases hend : c = '\n' ∨ c = '\r'
  · exact ⟨_, .skip .between [] (fun _ => rfl) (Or.inl rfl), fun rest => if_pos hend⟩
  · exact ⟨_, .skip .comment [] (fun hc => absurd (Or.inl hc) hend) (Or.inl rfl),
      fun rest => if_neg hend⟩

private theorem scans_hash (c : Char) :
    ∃ f, Scans .hash c f ∧ ∀ rest, scan .hash (.char c :: rest) = f rest := by
  have hbreak : HashMark.ofChar c ≠ .unknown → c ≠ '\n' := by
    rintro hmark rfl
    exact hmark rfl
  cases hmark : HashMark.ofChar c with
  | boolean value =>
      exact ⟨_, .mark (hbreak (by simp [hmark])) (by simp : Token.boolean value ≠ _), fun _ => by
        simp only [scan, hmark]⟩
  | vector =>
      exact ⟨_, .mark (hbreak (by simp [hmark])) (by simp : Token.vectorOpening ≠ _), fun _ => by
        simp only [scan, hmark]⟩
  | character =>
      exact ⟨_, .character (hbreak (by simp [hmark])), fun _ => by simp only [scan, hmark]⟩
  | void =>
      exact ⟨_, .skip .between [] (fun _ => rfl) (Or.inl rfl), fun _ => by
        simp only [scan, hmark, Scanned.after_nil]⟩
  | radix =>
      exact ⟨_, .skip .between [.ignoredRadix c] (fun _ => rfl) (Or.inr (Or.inl rfl)), fun _ => by
        simp only [scan, hmark]⟩
  | unknown =>
      exact ⟨_, .skip .between [.ignoredHash c] (fun _ => rfl) (Or.inr (Or.inr rfl)), fun _ => by
        simp only [scan, hmark]⟩

private theorem scans_between (c : Char) :
    ∃ f, Scans .between c f ∧ ∀ rest, scan .between (.char c :: rest) = f rest := by
  by_cases hblank : Text.isBlank c = true
  · exact ⟨_, .skip .between [] (fun _ => rfl) (Or.inl rfl), fun _ => if_pos hblank⟩
  have hbreak : c ≠ '\n' := by
    rintro rfl
    exact hblank (by decide)
  by_cases hcomment : c = ';'
  · subst hcomment
    exact ⟨_, .skip .comment [] (fun h => absurd h hbreak) (Or.inl rfl), fun _ => rfl⟩
  by_cases hhash : c = '#'
  · subst hhash
    exact ⟨_, .skip .hash [] (fun h => absurd h hbreak) (Or.inl rfl), fun _ => rfl⟩
  by_cases hopening : c = '('
  · subst hopening
    exact ⟨_, .mark hbreak (by simp : Token.opening ≠ _), fun _ => rfl⟩
  by_cases hclosing : c = ')'
  · subst hclosing
    exact ⟨_, .mark hbreak (by simp : Token.closing ≠ _), fun _ => rfl⟩
  by_cases hquote : c = '\x27'
  · subst hquote
    exact ⟨_, .mark hbreak (by simp : Token.quote ≠ _), fun _ => rfl⟩
  by_cases hback : c = '\x60'
  · subst hback
    exact ⟨_, .mark hbreak (by simp : Token.backquote ≠ _), fun _ => rfl⟩
  by_cases hcomma : c = ','
  · subst hcomma
    exact ⟨_, .comma hbreak, fun _ => rfl⟩
  by_cases hstring : c = '\x22'
  · subst hstring
    exact ⟨_, .string hbreak, fun _ => rfl⟩
  · refine ⟨_, .atom hbreak, fun _ => ?_⟩
    simp only [scan, hblank, Bool.false_eq_true, hcomment, hhash, hopening, hclosing, hquote, hback,
      hcomma, hstring, if_false]

theorem scan_char (mode : ScanMode) (c : Char) :
    ∃ f, Scans mode c f ∧ ∀ rest, scan mode (.char c :: rest) = f rest := by
  cases mode with
  | between => exact scans_between c
  | comment => exact scans_comment c
  | hash => exact scans_hash c

/-! ## Scanning shortens the source -/

/-- The characters that an answer taken back amounts to. -/
def pushedSize : Option (Option Char) → Nat
  | some (some _) => 1
  | _ => 0

namespace Scanned

/-- How much is left of the source. -/
def size (s : Scanned) : Nat :=
  pushedSize s.pushed + s.rest.length

theorem Name.size_scan (read : List Char) (events : List Event) :
    pushedSize (some (Name.scan read events).delimiter) + (Name.scan read events).rest.length ≤
      events.length := by
  fun_induction Name.scan read events with
  | case1 => simp [pushedSize]
  | case2 => simp [pushedSize]
  | case3 => simp [pushedSize, Nat.add_comm]
  | case4 _ _ _ _ ih => exact Nat.le_succ_of_le ih

theorem size_atom (first : Char) (events : List Event) :
    (atom first events).size ≤ events.length ∧ (atom first events).token ≠ .endOfInput := by
  refine ⟨Name.size_scan [first] events, ?_⟩
  simp only [atom, Name.toScanned, atomOf]
  split
  · simp
  · split <;> simp

theorem size_character (events : List Event) : (character events).size ≤ events.length := by
  fun_cases character events with
  | case1 => simp [size, pushedSize]
  | case2 => simp [size, pushedSize]
  | case3 | case4 | case5 => exact Nat.le_succ_of_le (Name.size_scan _ _)
  | case6 => simp [size, pushedSize]

theorem size_string (read : List Char) (escaped : Bool) (events : List Event) :
    (string read escaped events).size ≤ events.length ∧
      (string read escaped events).token ≠ .endOfInput := by
  fun_induction string read escaped events with
  | case1 => simp [size, pushedSize]
  | case2 => simp [size, pushedSize]
  | case3 _ _ _ ih => exact ⟨Nat.le_succ_of_le ih.1, ih.2⟩
  | case4 => simp [size, pushedSize]
  | case5 _ _ _ _ _ ih => exact ⟨Nat.le_succ_of_le ih.1, ih.2⟩
  | case6 _ _ _ _ _ _ _ ih => exact ⟨Nat.le_succ_of_le ih.1, ih.2⟩

theorem size_comma (events : List Event) : (comma events).size ≤ events.length := by
  fun_cases comma events <;> simp [size, pushedSize, Nat.add_comm]

end Scanned

/-- A scanner that found a token has read some of the source. -/
theorem size_scan (mode : ScanMode) (events : List Event) :
    (scan mode events).size ≤ events.length ∧
      ((scan mode events).token ≠ .endOfInput → (scan mode events).size < events.length) := by
  induction events generalizing mode with
  | nil => cases mode <;> simp [scan, Scanned.size, pushedSize]
  | cons event rest ih =>
      cases event with
      | undecodable =>
          cases mode with
          | hash =>
              have hrest := ih .between
              exact ⟨Nat.le_succ_of_le hrest.1, fun _ => Nat.lt_succ_of_le hrest.1⟩
          | between | comment => simp [scan, Scanned.size, pushedSize]
      | char c =>
          obtain ⟨f, hf, hscan⟩ := scan_char mode c
          rw [hscan]
          have hle : (f rest).size ≤ rest.length := by
            cases hf with
            | skip next entries => exact (ih next).1
            | mark => simp [Scanned.size, pushedSize]
            | character => exact Scanned.size_character rest
            | comma => exact Scanned.size_comma rest
            | string => exact (Scanned.size_string [] false rest).1
            | atom => exact (Scanned.size_atom c rest).1
          exact ⟨Nat.le_succ_of_le hle, fun _ => Nat.lt_succ_of_le hle⟩

namespace Cursor

/-- How much a cursor has to come. -/
def size (c : Cursor) : Nat :=
  pushedSize c.pushed + c.upcoming.length

theorem size_token (c : Cursor) :
    c.token.2.size ≤ c.size ∧ (c.token.1 ≠ .endOfInput → c.token.2.size < c.size) := by
  unfold Cursor.token
  split
  · rename_i hpushed
    simp [size, hpushed, pushedSize]
  · rename_i char hpushed
    have hsize : c.size = (Event.char char :: c.upcoming).length := by
      simp [size, hpushed, pushedSize, Nat.add_comm]
    rw [hsize]
    exact size_scan .between (.char char :: c.upcoming)
  · rename_i hpushed
    have hsize : c.size = c.upcoming.length := by simp [size, hpushed, pushedSize]
    rw [hsize]
    exact size_scan .between c.upcoming

/-- All tokens up to the end of the input, and the cursor there. -/
def tokens (c : Cursor) : List Token × Cursor :=
  if c.token.1 = .endOfInput then ([], c.token.2)
  else (c.token.1 :: c.token.2.tokens.1, c.token.2.tokens.2)
termination_by c.size
decreasing_by exact c.size_token.2 (by assumption)

end Cursor

/-! ## Scanning across a line break -/

/-- No report of a token that the end of the input cuts off. -/
structure Unbroken (entries : List Entry) : Prop where
  string : .unclosedString ∉ entries
  character : .characterCutShort ∉ entries

theorem unbroken_append {entries others : List Entry} :
    Unbroken (entries ++ others) ↔ Unbroken entries ∧ Unbroken others := by
  constructor
  · rintro ⟨hstring, hcharacter⟩
    rw [List.mem_append, not_or] at hstring hcharacter
    exact ⟨⟨hstring.1, hcharacter.1⟩, ⟨hstring.2, hcharacter.2⟩⟩
  · rintro ⟨hentries, hothers⟩
    exact ⟨by simp [hentries.string, hothers.string], by
      simp [hentries.character, hothers.character]⟩

/-- What is reported where a line break comes in the place of the end of the input. -/
def Entry.atLineBreak : Entry → Entry
  | .hashAtEnd => .ignoredHash '\n'
  | entry => entry

theorem map_atLineBreak {entries : List Entry} (h : .hashAtEnd ∉ entries) :
    entries.map .atLineBreak = entries := by
  induction entries with
  | nil => rfl
  | cons entry entries ih =>
      rw [List.mem_cons, not_or] at h
      rw [List.map_cons, ih h.2]
      cases entry <;> first | rfl | exact absurd rfl h.1

/-- A line ends where the first text meets the second. -/
def Breaks (x y : List Char) : Prop :=
  x.getLast? = some '\n' ∨ y.head? = some '\n'

theorem Breaks.of_nil {y : List Char} (h : Breaks [] y) : ∃ rest, y = '\n' :: rest := by
  rcases h with hlast | hhead
  · simp at hlast
  · cases y with
    | nil => simp at hhead
    | cons c rest => exact ⟨rest, by simpa using hhead⟩

theorem Breaks.of_cons {c : Char} {x y : List Char} (h : Breaks (c :: x) y) :
    c = '\n' ∧ x = [] ∨ Breaks x y := by
  rcases h with hlast | hhead
  · cases x with
    | nil => exact Or.inl ⟨by simpa using hlast, rfl⟩
    | cons c' x => exact Or.inr (Or.inl (by simpa using hlast))
  · exact Or.inr (Or.inr hhead)

namespace Scanned

/-- The token, the reports and the text that is left. -/
structure Gives (s : Scanned) (token : Token) (entries : List Entry) (rest : List Char) :
    Prop where
  token : s.token = token
  entries : s.entries = entries
  standsAt : StandsAt s.pushed s.rest rest

theorem Gives.after {s : Scanned} {token : Token} {entries : List Entry} {rest : List Char}
    (h : s.Gives token entries rest) (earlier : List Entry) :
    (s.after earlier).Gives token (earlier ++ entries) rest :=
  ⟨h.token, congrArg (earlier ++ ·) h.entries, h.standsAt⟩

/-- A token is found in the first text as if it went on with the second. -/
def Across (f : List Event → Scanned) (x y : List Char) : Prop :=
  ∃ token entries rest, (f (Event.ofText x)).Gives token entries rest ∧ rest <:+ x ∧
    (Unbroken entries → token ≠ .endOfInput ∧ .hashAtEnd ∉ entries ∧
      (f (Event.ofText (x ++ y))).Gives token entries (rest ++ y))

/-- A name ends at a line break as it does at the end of the input. -/
theorem Name.scan_across (read : List Char) {x y : List Char} (hbreak : Breaks x y) :
    ∃ chars rest, rest <:+ x ∧
      (∀ token, ((Name.scan read (Event.ofText x)).toScanned token).Gives token [] rest) ∧
      (∀ token,
        ((Name.scan read (Event.ofText (x ++ y))).toScanned token).Gives token [] (rest ++ y)) ∧
      (Name.scan read (Event.ofText x)).chars = chars ∧
      (Name.scan read (Event.ofText (x ++ y))).chars = chars := by
  induction x generalizing read with
  | nil =>
      obtain ⟨y, rfl⟩ := hbreak.of_nil
      exact ⟨read.reverse, [], List.suffix_refl [], fun _ => ⟨rfl, rfl, rfl, rfl⟩,
        fun _ => ⟨rfl, rfl, y, rfl, rfl⟩, rfl, rfl⟩
  | cons c x ih =>
      simp only [List.cons_append, Event.ofText_cons, Name.scan]
      by_cases hc : isDelimiter c = true
      · simp only [hc, if_true]
        exact ⟨read.reverse, c :: x, List.suffix_refl _, fun _ => ⟨rfl, rfl, x, rfl, rfl⟩,
          fun _ => ⟨rfl, rfl, x ++ y, rfl, rfl⟩, rfl, rfl⟩
      · simp only [hc, Bool.false_eq_true, if_false]
        have hrest : Breaks x y := by
          refine hbreak.of_cons.resolve_left ?_
          rintro ⟨rfl, -⟩
          exact hc (by decide)
        obtain ⟨chars, rest, hsuffix, hhere, hthere⟩ := ih (c :: read) hrest
        exact ⟨chars, rest, hsuffix.trans (List.suffix_cons c x), hhere, hthere⟩

theorem atom_across (first : Char) {x y : List Char} (hbreak : Breaks x y) :
    Across (atom first) x y := by
  obtain ⟨chars, rest, hsuffix, hhere, hthere, hchars, hchars'⟩ := Name.scan_across [first] hbreak
  have htoken := (size_atom first (Event.ofText x)).2
  simp only [Across, atom, hchars, hchars'] at htoken ⊢
  exact ⟨_, [], rest, hhere _, hsuffix, fun _ => ⟨htoken, by simp, hthere _⟩⟩

theorem character_across {x y : List Char} (hbreak : Breaks x y) : Across character x y := by
  cases x with
  | nil =>
      refine ⟨.endOfInput, [.characterCutShort], [], ⟨rfl, rfl, rfl⟩, List.suffix_refl [], ?_⟩
      intro h
      exact absurd (List.mem_singleton_self _) h.character
  | cons first x =>
      by_cases halphabetic : Text.isAlphabetic first = true
      · have hrest : Breaks x y := by
          refine hbreak.of_cons.resolve_left ?_
          rintro ⟨rfl, -⟩
          revert halphabetic
          decide
        obtain ⟨chars, rest, hsuffix, hhere, hthere, hchars, hchars'⟩ :=
          Name.scan_across [first] hrest
        have hsuffix' := hsuffix.trans (List.suffix_cons first x)
        simp only [Across, List.cons_append, Event.ofText_cons, character, halphabetic, if_true,
          hchars, hchars']
        split
        · exact ⟨_, [], rest, hhere _, hsuffix', fun _ => ⟨by simp, by simp, hthere _⟩⟩
        · split
          · exact ⟨_, [], rest, hhere _, hsuffix', fun _ => ⟨by simp, by simp, hthere _⟩⟩
          · have hreport : ∀ {s : Scanned} {rest : List Char},
                s.Gives (.character first) [] rest →
                Gives { s with entries := s.entries ++ [.unknownCharacter chars first] }
                  (.character first) [.unknownCharacter chars first] rest :=
              fun h => ⟨h.token, by rw [h.entries]; rfl, h.standsAt⟩
            exact ⟨_, _, rest, hreport (hhere _), hsuffix',
              fun _ => ⟨by simp, by simp, hreport (hthere _)⟩⟩
      · simp only [Across, List.cons_append, Event.ofText_cons, character, halphabetic,
          Bool.false_eq_true, if_false]
        exact ⟨.character first, [], x, ⟨rfl, rfl, rfl⟩, List.suffix_cons first x,
          fun _ => ⟨by simp, by simp, rfl, rfl, rfl⟩⟩

theorem string_across (read : List Char) (escaped : Bool) (x y : List Char) :
    Across (string read escaped) x y := by
  induction x generalizing read escaped with
  | nil =>
      refine ⟨.string read.reverse, [.unclosedString], [], ⟨rfl, rfl, rfl⟩, List.suffix_refl [], ?_⟩
      intro h
      exact absurd (List.mem_singleton_self _) h.string
  | cons c x ih =>
      have hmore : ∀ read escaped, Across (fun events => string read escaped events.tail) (c :: x) y :=
        fun read escaped => by
          obtain ⟨token, entries, rest, hhere, hsuffix, hthere⟩ := ih read escaped
          exact ⟨token, entries, rest, hhere, hsuffix.trans (List.suffix_cons c x), hthere⟩
      simp only [Across, List.cons_append, Event.ofText_cons, string]
      split
      · exact hmore (c :: read) false
      · split
        · exact ⟨.string read.reverse, [], x, ⟨rfl, rfl, rfl⟩, List.suffix_cons c x,
            fun _ => ⟨by simp, by simp, rfl, rfl, rfl⟩⟩
        · split
          · exact hmore read true
          · exact hmore (c :: read) false

theorem comma_across {x y : List Char} (hbreak : Breaks x y) : Across comma x y := by
  cases x with
  | nil =>
      obtain ⟨y, rfl⟩ := hbreak.of_nil
      exact ⟨.comma, [], [], ⟨rfl, rfl, rfl, rfl⟩, List.suffix_refl [],
        fun _ => ⟨by simp, by simp, rfl, rfl, y, rfl, rfl⟩⟩
  | cons c x =>
      simp only [Across, List.cons_append, Event.ofText_cons, comma]
      split
      · exact ⟨.commaAt, [], x, ⟨rfl, rfl, rfl⟩, List.suffix_cons c x,
          fun _ => ⟨by simp, by simp, rfl, rfl, rfl⟩⟩
      · exact ⟨.comma, [], c :: x, ⟨rfl, rfl, x, rfl, rfl⟩, List.suffix_refl _,
          fun _ => ⟨by simp, by simp, rfl, rfl, x ++ y, rfl, rfl⟩⟩

end Scanned

/-- The scanner finds the same token before a line break, whatever comes after it, and goes on
after it where the first text has no more tokens. -/
theorem scan_across (mode : ScanMode) {x y : List Char}
    (hbreak : mode = .between ∧ x = [] ∨ Breaks x y) :
    ∃ token entries rest, (scan mode (Event.ofText x)).Gives token entries rest ∧ rest <:+ x ∧
      (Unbroken entries →
        (token ≠ .endOfInput → .hashAtEnd ∉ entries ∧
          (scan mode (Event.ofText (x ++ y))).Gives token entries (rest ++ y)) ∧
        (token = .endOfInput → scan mode (Event.ofText (x ++ y)) =
          (scan .between (Event.ofText y)).after (entries.map .atLineBreak))) := by
  induction x generalizing mode with
  | nil =>
      have hnil : mode = .between ∨ ∃ rest, y = '\n' :: rest :=
        hbreak.imp (fun h => h.1) fun h => h.of_nil
      cases mode with
      | between =>
          exact ⟨.endOfInput, [], [], ⟨rfl, rfl, rfl⟩, List.suffix_refl [],
            fun _ => ⟨fun h => absurd rfl h, fun _ => rfl⟩⟩
      | comment | hash =>
          obtain ⟨y, rfl⟩ := hnil.resolve_left (by simp)
          exact ⟨.endOfInput, _, [], ⟨rfl, rfl, rfl⟩, List.suffix_refl [],
            fun _ => ⟨fun h => absurd rfl h, fun _ => rfl⟩⟩
  | cons c x ih =>
      have hbreak : Breaks (c :: x) y := hbreak.resolve_left (by simp)
      obtain ⟨f, hf, hscan⟩ := scan_char mode c
      simp only [List.cons_append, Event.ofText_cons, hscan]
      -- All but a character that is passed over is one token, found in the first text.
      have htoken : Scanned.Across f x y → ∃ token entries rest,
          (f (Event.ofText x)).Gives token entries rest ∧ rest <:+ c :: x ∧
          (Unbroken entries →
            (token ≠ .endOfInput → .hashAtEnd ∉ entries ∧
              (f (Event.ofText (x ++ y))).Gives token entries (rest ++ y)) ∧
            (token = .endOfInput → f (Event.ofText (x ++ y)) =
              (scan .between (Event.ofText y)).after (entries.map .atLineBreak))) := by
        rintro ⟨token, entries, rest, hhere, hsuffix, hthere⟩
        refine ⟨token, entries, rest, hhere, hsuffix.trans (List.suffix_cons c x), ?_⟩
        intro hunbroken
        obtain ⟨hne, hnot, hthere⟩ := hthere hunbroken
        exact ⟨fun _ => ⟨hnot, hthere⟩, fun h => absurd h hne⟩
      have hafter (hc : c ≠ '\n') : Breaks x y := hbreak.of_cons.resolve_left fun h => hc h.1
      cases hf with
      | skip next entries hnext hentries =>
          obtain ⟨token, others, rest, hhere, hsuffix, hthere⟩ :=
            ih next (hbreak.of_cons.imp_left fun h => ⟨hnext h.1, h.2⟩)
          have hnot : .hashAtEnd ∉ entries := by
            rcases hentries with rfl | rfl | rfl <;> simp
          refine ⟨token, entries ++ others, rest, hhere.after entries,
            hsuffix.trans (List.suffix_cons c x), ?_⟩
          intro hunbroken
          obtain ⟨hfound, hend⟩ := hthere (unbroken_append.1 hunbroken).2
          refine ⟨fun hne => ⟨?_, (hfound hne).2.after entries⟩, fun heq => ?_⟩
          · simp [hnot, (hfound hne).1]
          · change (scan next (Event.ofText (x ++ y))).after entries = _
            rw [List.map_append, map_atLineBreak hnot, hend heq, Scanned.after_after]
      | mark hc htoken' =>
          exact htoken ⟨_, [], x, ⟨rfl, rfl, rfl⟩, List.suffix_refl x,
            fun _ => ⟨htoken', by simp, rfl, rfl, rfl⟩⟩
      | character hc => exact htoken (Scanned.character_across (hafter hc))
      | comma hc => exact htoken (Scanned.comma_across (hafter hc))
      | string hc => exact htoken (Scanned.string_across [] false x y)
      | atom hc => exact htoken (Scanned.atom_across c (hafter hc))

/-! ## Characters at the end of a line -/

namespace Scanned

theorem Name.cutShort (read : List Char) (events : List Event) :
    .characterCutShort ∉ (Name.scan read events).entries := by
  fun_induction Name.scan read events with
  | case1 | case2 | case3 => simp
  | case4 _ _ _ _ ih => exact ih

theorem cutShort_character {x : List Char}
    (h : .characterCutShort ∈ (character (Event.ofText x)).entries) : x = [] := by
  cases x with
  | nil => rfl
  | cons first x =>
      have hname := Name.cutShort [first] (Event.ofText x)
      simp only [Event.ofText_cons, character] at h
      split at h
      · split at h
        · exact absurd h hname
        · split at h
          · exact absurd h hname
          · simp [hname] at h
      · simp at h

theorem cutShort_string (read : List Char) (escaped : Bool) (events : List Event) :
    .characterCutShort ∉ (string read escaped events).entries := by
  fun_induction string read escaped events with
  | case1 | case2 | case4 => simp
  | case3 _ _ _ ih => exact ih
  | case5 _ _ _ _ _ ih => exact ih
  | case6 _ _ _ _ _ _ _ ih => exact ih

theorem cutShort_comma (events : List Event) : .characterCutShort ∉ (comma events).entries := by
  fun_cases comma events <;> simp

end Scanned

/-- A character that is cut off is not at the end of a line. -/
theorem scan_cutShort {mode : ScanMode} {x : List Char}
    (h : .characterCutShort ∈ (scan mode (Event.ofText x)).entries) :
    x ≠ [] ∧ x.getLast? ≠ some '\n' := by
  induction x generalizing mode with
  | nil => cases mode <;> simp [scan] at h
  | cons c x ih =>
      refine ⟨by simp, ?_⟩
      obtain ⟨f, hf, hscan⟩ := scan_char mode c
      rw [Event.ofText_cons, hscan] at h
      cases hf with
      | skip next entries hnext hentries =>
          have hnot : .characterCutShort ∉ entries := by
            rcases hentries with rfl | rfl | rfl <;> simp
          obtain ⟨hne, hlast⟩ := ih ((List.mem_append.1 h).resolve_left hnot)
          rwa [List.getLast?_cons_of_ne_nil hne]
      | mark => simp at h
      | character hc =>
          rw [Scanned.cutShort_character h]
          simpa using hc
      | comma => exact absurd h (Scanned.cutShort_comma _)
      | string => exact absurd h (Scanned.cutShort_string _ _ _)
      | atom => exact absurd h (Scanned.Name.cutShort _ _)

/-! ## All tokens of a text -/

/-- The tokens of a text, and all that is reported of it. -/
inductive Lexes : List Char → List Token → List Entry → Prop where
  | done {text : List Char} {entries : List Entry} {rest : List Char}
      (h : (scan .between (Event.ofText text)).Gives .endOfInput entries rest) :
      Lexes text [] entries
  | more {text : List Char} {token : Token} {entries : List Entry} {rest : List Char}
      {tokens : List Token} {others : List Entry}
      (h : (scan .between (Event.ofText text)).Gives token entries rest)
      (htoken : token ≠ .endOfInput) (hrest : Lexes rest tokens others) :
      Lexes text (token :: tokens) (entries ++ others)

theorem StandsAt.size {pushed : Option (Option Char)} {upcoming : List Event} {text : List Char}
    (h : StandsAt pushed upcoming text) : pushedSize pushed + upcoming.length = text.length := by
  unfold StandsAt at h
  split at h
  · simp [pushedSize, h, Event.ofText]
  · simp [pushedSize, h.1, h.2]
  · obtain ⟨rest, rfl, rfl⟩ := h
    simp [pushedSize, Event.ofText, Nat.add_comm]

/-- A cursor at a text goes on as scanning the text does. -/
theorem Cursor.StandsAt.token_eq {c : Cursor} {text : List Char} (hc : c.StandsAt text) :
    c.token = Cursor.token.settle c (scan .between (Event.ofText text)) := by
  unfold Cursor.StandsAt Scheme.StandsAt at hc
  unfold Cursor.token
  split at hc
  · rename_i hpushed
    simp only [hpushed, hc]
  · rename_i hpushed
    obtain ⟨rfl, hupcoming⟩ := hc
    simp [hpushed, hupcoming, Cursor.token.settle, scan]
  · rename_i char hpushed
    obtain ⟨rest, rfl, hupcoming⟩ := hc
    simp only [hpushed, hupcoming, Event.ofText_cons]

theorem Cursor.StandsAt.gives {c : Cursor} {text rest : List Char} {token : Token}
    {entries : List Entry} (hc : c.StandsAt text)
    (h : (scan .between (Event.ofText text)).Gives token entries rest) :
    c.token.1 = token ∧ c.token.2.StandsAt rest ∧ c.token.2.entries = c.entries ++ entries := by
  rw [hc.token_eq]
  exact ⟨h.token, h.standsAt, congrArg (c.entries ++ ·) h.entries⟩

theorem Cursor.StandsAt.tokens {c : Cursor} {text : List Char} {tokens : List Token}
    {entries : List Entry} (hc : c.StandsAt text) (h : Lexes text tokens entries) :
    c.tokens.1 = tokens ∧ c.tokens.2.entries = c.entries ++ entries := by
  induction h generalizing c with
  | done h =>
      obtain ⟨htoken, -, hentries⟩ := hc.gives h
      rw [Cursor.tokens, if_pos htoken]
      exact ⟨rfl, hentries⟩
  | more h hne hrest ih =>
      obtain ⟨htoken, hstands, hentries⟩ := hc.gives h
      obtain ⟨hothers, hreports⟩ := ih hstands
      rw [Cursor.tokens, if_neg (by rwa [htoken])]
      exact ⟨by rw [htoken, hothers], by rw [hreports, hentries, List.append_assoc]⟩


theorem StandsAt.unique {pushed : Option (Option Char)} {upcoming : List Event}
    {text text' : List Char} (h : StandsAt pushed upcoming text)
    (h' : StandsAt pushed upcoming text') : text = text' := by
  have hinjective {text text' : List Char} (h : Event.ofText text = Event.ofText text') :
      text = text' := (List.map_inj_right fun _ _ => Event.char.inj).1 h
  unfold StandsAt at h h'
  split at h
  · exact hinjective (h.symm.trans h')
  · exact h.1.trans h'.1.symm
  · obtain ⟨rest, rfl, hrest⟩ := h
    obtain ⟨rest', rfl, hrest'⟩ := h'
    rw [hinjective (hrest.symm.trans hrest')]

theorem Breaks.of_suffix {x y rest : List Char} (h : x = [] ∨ Breaks x y) (hrest : rest <:+ x) :
    rest = [] ∨ Breaks rest y := by
  rcases h with rfl | hlast | hhead
  · exact Or.inl (List.suffix_nil.1 hrest)
  · obtain ⟨before, rfl⟩ := hrest
    by_cases hnil : rest = []
    · exact Or.inl hnil
    · refine Or.inr (Or.inl ?_)
      rw [List.getLast?_append] at hlast
      rw [List.getLast?_eq_some_getLast hnil] at hlast ⊢
      exact hlast
  · exact Or.inr (Or.inr hhead)

/-- What was found in the first text alone is found, or gone on from, in the two. -/
theorem Scanned.Gives.across {x y rest : List Char} {token : Token} {entries : List Entry}
    (h : (scan .between (Event.ofText x)).Gives token entries rest)
    (hbreak : x = [] ∨ Breaks x y) (hunbroken : Unbroken entries) :
    (token ≠ .endOfInput → .hashAtEnd ∉ entries ∧ (rest = [] ∨ Breaks rest y) ∧
      (scan .between (Event.ofText (x ++ y))).Gives token entries (rest ++ y)) ∧
    (token = .endOfInput → scan .between (Event.ofText (x ++ y)) =
      (scan .between (Event.ofText y)).after (entries.map .atLineBreak)) := by
  obtain ⟨token', entries', rest', hgives, hsuffix, hacross⟩ :=
    scan_across .between (hbreak.imp_left fun hx => ⟨rfl, hx⟩)
  obtain rfl : token' = token := hgives.token.symm.trans h.token
  obtain rfl : entries' = entries := hgives.entries.symm.trans h.entries
  obtain rfl : rest' = rest := hgives.standsAt.unique h.standsAt
  obtain ⟨hfound, hend⟩ := hacross hunbroken
  exact ⟨fun hne => ⟨(hfound hne).1, Breaks.of_suffix hbreak hsuffix, (hfound hne).2⟩, hend⟩

theorem Lexes.total (text : List Char) : ∃ tokens entries, Lexes text tokens entries := by
  -- a text that is followed by nothing but an empty line
  obtain ⟨token, entries, rest, hgives, -⟩ := scan_across .between (y := ['\n']) (x := text)
    (Or.inr (Or.inr rfl))
  by_cases htoken : token = .endOfInput
  · subst htoken
    exact ⟨[], entries, .done hgives⟩
  · have hshorter : rest.length < text.length := by
      have hsize := (size_scan .between (Event.ofText text)).2 (by rwa [hgives.token])
      rw [Scanned.size, hgives.standsAt.size] at hsize
      simpa [Event.ofText] using hsize
    obtain ⟨tokens, others, hrest⟩ := Lexes.total rest
    exact ⟨token :: tokens, entries ++ others, .more hgives htoken hrest⟩
termination_by text.length

/-- A text of whole lines cuts off a string, if anything. -/
theorem Lexes.unbroken {x : List Char} {tokens : List Token} {entries : List Entry}
    (h : Lexes x tokens entries) (hlines : x = [] ∨ x.getLast? = some '\n')
    (hstring : .unclosedString ∉ entries) : Unbroken entries := by
  have hfirst : ∀ {x rest : List Char} {token : Token} {entries : List Entry},
      (scan .between (Event.ofText x)).Gives token entries rest →
      x = [] ∨ x.getLast? = some '\n' → .unclosedString ∉ entries → Unbroken entries := by
    intro x rest token entries hgives hlines hstring
    refine ⟨hstring, fun hcut => ?_⟩
    rw [← hgives.entries] at hcut
    obtain ⟨hne, hlast⟩ := scan_cutShort hcut
    exact hlines.elim hne hlast
  induction h with
  | done hgives => exact hfirst hgives hlines hstring
  | more hgives htoken hrest ih =>
      rw [List.mem_append, not_or] at hstring
      have hunbroken := hfirst hgives hlines hstring.1
      have hbreak : _ ∨ Breaks _ [] := hlines.imp_right Or.inl
      obtain ⟨-, hbreak', -⟩ := (hgives.across hbreak hunbroken).1 htoken
      have hlines' := hbreak'.imp_right fun h => h.resolve_right (by simp)
      exact unbroken_append.2 ⟨hunbroken, ih hlines' hstring.2⟩

/-- A line break in front of a text is passed over. -/
theorem Lexes.lineBreak {text : List Char} {tokens : List Token} {entries : List Entry}
    (h : Lexes text tokens entries) : Lexes ('\n' :: text) tokens entries := by
  cases h with
  | done h => exact .done h
  | more h htoken hrest => exact .more h htoken hrest

/-- The tokens before a line break and those after it. -/
theorem Lexes.across {x y : List Char} {tokens tokens' : List Token}
    {entries entries' : List Entry} (hx : Lexes x tokens entries) (hy : Lexes y tokens' entries')
    (hbreak : x = [] ∨ Breaks x y) (hunbroken : Unbroken entries) :
    Lexes (x ++ y) (tokens ++ tokens') (entries.map .atLineBreak ++ entries') := by
  induction hx with
  | done h =>
      have hscan := (h.across hbreak hunbroken).2 rfl
      cases hy with
      | done h' => exact .done (hscan ▸ h'.after _)
      | more h' htoken hrest =>
          rw [List.nil_append, ← List.append_assoc]
          exact .more (hscan ▸ h'.after _) htoken hrest
  | more h htoken hrest ih =>
      rw [unbroken_append] at hunbroken
      obtain ⟨hnot, hbreak', hgives⟩ := (h.across hbreak hunbroken.1).1 htoken
      rw [List.map_append, map_atLineBreak hnot, List.append_assoc]
      exact .more hgives htoken (ih hbreak' hunbroken.2)

end Scheme
