import Scheme.Datum.Reader
import Scheme.Proofs.Numerals
import Scheme.Proofs.Scanning
import Scheme.Proofs.UnfoldedText
import Scheme.Proofs.Unfolding
/-!
# The reader undoes the writer

The written text of a readable datum, in front of a text that does not run into it, is read as
the datum itself, without a report, and the reader then stands at the text that follows. Reading
goes through the constructs that are open, so the statement for a datum is about the stage that
its delivery leads to.
-/

namespace Scheme

/-! ## What is readable -/

/-- The name is spelled like a symbol and like nothing else. -/
structure Symbol.Readable (s : Symbol) : Prop where
  nonempty : s.name.toList ≠ []
  lowercase : Text.lowercase s.name.toList = s.name.toList
  undelimited : ∀ c ∈ s.name.toList, isDelimiter c = false
  noHash : s.name.toList.head? ≠ some '#'
  noDot : s.name ≠ "."
  noNumber : ∀ c, s.name.toList.head? = some c → startsNumber c = true →
    Number.parse? s.name.toList = none

namespace Datum

/-- A list that prints as a comma run into an at sign. -/
def isSplicingLookalike : Datum → Bool
  | .pair (.symbol head) (.pair (.symbol s) .nil) =>
    head == .unquote && s.name.toList.head? == some '@'
  | _ => false

mutual

/-- Its text spells the datum and nothing else. -/
def Readable : Datum → Prop
  | .number value => value.isFinite = true
  | .symbol value => value.Readable
  | .vector elements => AllReadable elements
  | .pair first rest =>
    Readable first ∧ Readable rest ∧ isSplicingLookalike (.pair first rest) = false
  | _ => True

def AllReadable : List Datum → Prop
  | [] => True
  | d :: rest => Readable d ∧ AllReadable rest

end

mutual

/-- What reading gives back: a negative zero loses its sign. -/
def unsigned : Datum → Datum
  | .number value => .number (Number.unsigned value)
  | .vector elements => .vector (allUnsigned elements)
  | .pair first rest => .pair (unsigned first) (unsigned rest)
  | d => d

def allUnsigned : List Datum → List Datum
  | [] => []
  | d :: rest => unsigned d :: allUnsigned rest

end

end Datum

/-! ## Tokens at a reader -/

/-- Spaces in front of a token are passed over. -/
theorem Spells.blank {text rest : List Char} {token : Token} (h : Spells text token rest)
    (count : Nat) : Spells (List.replicate count ' ' ++ text) token rest := by
  induction count with
  | zero => exact h
  | succ count ih => exact ih.space

theorem Cursor.StandsAt.token {c : Cursor} {text rest : List Char} {token : Token}
    (hc : c.StandsAt text) (h : Spells text token rest) (htext : text ≠ []) :
    c.token.1 = token ∧ c.token.2.StandsAt rest ∧ c.token.2.entries = c.entries := by
  have hscan : c.token = Cursor.token.settle c (scan .between (Event.ofText text)) := by
    unfold Cursor.StandsAt Scheme.StandsAt at hc
    unfold Cursor.token
    split at hc
    · rename_i hpushed
      simp only [hpushed, hc]
    · exact absurd hc.1 htext
    · rename_i char hpushed
      obtain ⟨rest, rfl, hupcoming⟩ := hc
      simp only [hpushed, hupcoming, Event.ofText_cons]
  rw [hscan]
  refine ⟨h.token, h.standsAt, ?_⟩
  simp [Cursor.token.settle, h.entries]

namespace Reader

/-- No token is taken back, nothing is reported, and the source stands at the text. -/
structure At (r : Reader) (text : List Char) : Prop where
  pushed : r.pushed = none
  standsAt : r.cursor.StandsAt text
  entries : r.cursor.entries = []

@[simp] theorem report_nil (r : Reader) : r.report [] = r := by
  simp [report]

theorem at_ofText (text : List Char) : (ofText text).At text :=
  ⟨rfl, standsAt_ofText text, rfl⟩

theorem At.token {r : Reader} {text rest : List Char} {token : Token} (hr : r.At text)
    (h : Spells text token rest) (htext : text ≠ []) :
    r.token.1 = token ∧ r.token.2.At rest := by
  obtain ⟨htoken, hstands, hentries⟩ := hr.standsAt.token h htext
  unfold Reader.token
  simp only [hr.pushed]
  exact ⟨htoken, rfl, hstands, hentries.trans hr.entries⟩

/-- What remains to be done after a token has been absorbed. -/
def proceed (budget : Nat) (progress : Progress) (r : Reader) : Reading × Reader :=
  match progress with
  | .more stage => assemble budget stage r
  | .done reading => (reading, r.report reading.entries)

/-- From the stage and the text, at most `cost` tokens lead without a report to the progress and
the rest of the text. -/
def Reaches (text : List Char) (stage : Stage) (progress : Progress) (rest : List Char)
    (cost : Nat) : Prop :=
  ∀ r : Reader, r.At text → ∃ spent r', spent ≤ cost ∧ r'.At rest ∧
    ∀ budget, assemble (spent + budget) stage r = proceed budget progress r'

theorem reaches_token {text rest : List Char} {token : Token} {stage : Stage}
    {progress : Progress} (h : Spells text token rest) (htext : text ≠ [])
    (habsorb : stage.absorb token = (progress, none, [])) :
    Reaches text stage progress rest 1 := by
  intro r hr
  obtain ⟨htoken, hat⟩ := hr.token h htext
  refine ⟨1, r.token.2, Nat.le_refl 1, hat, ?_⟩
  intro budget
  have hsame : ({ r.token.2.report [] with pushed := none } : Reader) = r.token.2 := by
    rw [report_nil, ← hat.pushed]
  rw [Nat.add_comm, assemble]
  simp only [htoken, habsorb, hsame]
  rfl

theorem Reaches.trans {text middle rest : List Char} {stage next : Stage} {progress : Progress}
    {cost cost' : Nat} (h : Reaches text stage (.more next) middle cost)
    (h' : Reaches middle next progress rest cost') :
    Reaches text stage progress rest (cost + cost') := by
  intro r hr
  obtain ⟨spent, r₁, hspent, hat, hrun⟩ := h r hr
  obtain ⟨spent', r₂, hspent', hat', hrun'⟩ := h' r₁ hat
  refine ⟨spent + spent', r₂, by omega, hat', ?_⟩
  intro budget
  rw [Nat.add_assoc, hrun (spent' + budget)]
  exact hrun' budget

/-- The same under another spelling of the text and the progress, with tokens to spare. -/
theorem Reaches.restate {text text' rest : List Char} {stage : Stage}
    {progress progress' : Progress} {cost cost' : Nat}
    (h : Reaches text stage progress rest cost) (htext : text' = text)
    (hprogress : progress' = progress) (hcost : cost ≤ cost') :
    Reaches text' stage progress' rest cost' := by
  subst htext hprogress
  intro r hr
  obtain ⟨spent, r', hspent, hat, hrun⟩ := h r hr
  exact ⟨spent, r', Nat.le_trans hspent hcost, hat, hrun⟩

end Reader

/-! ## The first character -/

theorem Number.startsNumber_toText {x : Float} (hx : x.isFinite = true) :
    ∃ c chars, (toText x).toList = c :: chars ∧ startsNumber c = true := by
  obtain ⟨c, chars, htext, hstarts, -⟩ := exists_of_parse? (parse?_toText hx)
  exact ⟨c, chars, htext, hstarts⟩

theorem Symbol.mark_eq {s : Symbol} {mark : String} (h : s.abbreviation? = some mark) :
    s = .quote ∧ mark = "'" ∨ s = .quasiquote ∧ mark = "\x60" ∨ s = .unquote ∧ mark = "," ∨
      s = .unquoteSplicing ∧ mark = ",@" := by
  unfold abbreviation? at h
  split_ifs at h with hquote hquasiquote hunquote hsplicing
  · exact Or.inl ⟨hquote, (Option.some.inj h).symm⟩
  · exact Or.inr (Or.inl ⟨hquasiquote, (Option.some.inj h).symm⟩)
  · exact Or.inr (Or.inr (Or.inl ⟨hunquote, (Option.some.inj h).symm⟩))
  · exact Or.inr (Or.inr (Or.inr ⟨hsplicing, (Option.some.inj h).symm⟩))

namespace Datum

/-- A text is not empty, and starts with an at sign only when it is the name of a symbol. -/
theorem text_head {d : Datum} (hd : d.Readable) :
    (d.text .written).toList ≠ [] ∧
      ((d.text .written).toList.head? = some '@' →
        ∃ s, d = .symbol s ∧ s.name.toList.head? = some '@') := by
  cases d with
  | number x =>
      obtain ⟨c, chars, htext, hstarts⟩ := Number.startsNumber_toText hd
      rw [text, htext]
      refine ⟨by simp, ?_⟩
      intro hhead
      obtain rfl : c = '@' := by simpa using hhead
      simp [startsNumber] at hstarts
  | symbol s =>
      rw [text]
      exact ⟨Symbol.Readable.nonempty hd, fun hhead => ⟨s, rfl, hhead⟩⟩
  | boolean value => cases value <;> simp [text, Style.boolean]
  | character c =>
      rw [text, Style.character]
      split_ifs <;> simp
  | pair first rest =>
      rw [text_pair]
      cases habbreviated : (Datum.pair first rest).abbreviated? with
      | none => simp
      | some abbreviation =>
          obtain ⟨mark, body⟩ := abbreviation
          obtain ⟨head, rfl, rfl, hmark⟩ := abbreviated?_eq_some_iff.1 habbreviated
          obtain ⟨-, rfl⟩ | ⟨-, rfl⟩ | ⟨-, rfl⟩ | ⟨-, rfl⟩ := Symbol.mark_eq hmark <;> simp
  | _ => simp [text, Style.string]

end Datum

theorem spells_symbol {s : Symbol} (hs : s.Readable) {rest : List Char} (hrest : Delimited rest) :
    Spells (s.name.toList ++ rest) (.symbol s) rest := by
  obtain ⟨first, chars, hname⟩ := List.exists_cons_of_ne_nil hs.nonempty
  have hchars := hs.undelimited
  have htoken : Scanned.atomOf first (first :: chars) = .symbol s := by
    have hdot : first :: chars ≠ ['.'] := by
      intro heq
      apply hs.noDot
      rw [← String.toList_inj, hname, heq]
      rfl
    have hnumber : (if startsNumber first then Number.parse? (first :: chars) else none) =
        none := by
      split_ifs with hstarts
      · rw [← hname]
        exact hs.noNumber first (by simp [hname]) hstarts
      · rfl
    rw [Scanned.atomOf, if_neg hdot, hnumber, ← hname, hs.lowercase, String.ofList_toList]
  rw [hname] at hchars ⊢
  refine spells_atom chars (hchars first (List.mem_cons_self ..)) ?_
    (fun c hc => hchars c (List.mem_cons_of_mem _ hc)) hrest htoken
  rintro rfl
  exact hs.noHash (by simp [hname])

/-! ## Reading texts -/

namespace Reader

/-- A datum that is one token. -/
theorem reaches_atom {text rest : List Char} {token : Token} {stack : List Opened} {d : Datum}
    (count : Nat) (h : Spells (text ++ rest) token rest) (htext : text ≠ [])
    (hstart : Stage.start stack token = (Stage.deliver d stack, [])) :
    Reaches (List.replicate count ' ' ++ (text ++ rest)) (.datum stack) (Stage.deliver d stack)
      rest text.length := by
  have hlength : 1 ≤ text.length := List.length_pos_iff.2 htext
  have habsorb : (Stage.datum stack).absorb token = (Stage.deliver d stack, none, []) := by
    simp [Stage.absorb, hstart]
  exact (reaches_token (h.blank count) (by simp [htext]) habsorb).restate rfl rfl hlength

/-- The mark of an abbreviation. Only the comma looks at what follows. -/
theorem reaches_mark {head : Symbol} {mark : String} {text : List Char} (count : Nat)
    (stack : List Opened) (hmark : head.abbreviation? = some mark) (htext : text ≠ [])
    (hcomma : head = .unquote → text.head? ≠ some '@') :
    Reaches (List.replicate count ' ' ++ (mark.toList ++ text)) (.datum stack)
      (.more (.datum (.abbreviated head :: stack))) text 1 := by
  obtain ⟨rfl, rfl⟩ | ⟨rfl, rfl⟩ | ⟨rfl, rfl⟩ | ⟨rfl, rfl⟩ := Symbol.mark_eq hmark
  · exact reaches_token ((spells_quote text).blank count) (by simp) rfl
  · exact reaches_token ((spells_backquote text).blank count) (by simp) rfl
  · obtain ⟨c, rest, rfl⟩ := List.exists_cons_of_ne_nil htext
    have hc : c ≠ '@' := by simpa using hcomma rfl
    exact reaches_token ((spells_comma hc rest).blank count) (by simp) rfl
  · exact reaches_token ((spells_commaAt text).blank count) (by simp) rfl

theorem reaches_opening (count : Nat) (stack : List Opened) (text : List Char) :
    Reaches (List.replicate count ' ' ++ '(' :: text) (.datum stack)
      (.more (.datum (.items .list [] :: stack))) text 1 :=
  reaches_token ((spells_opening text).blank count) (by simp) rfl

theorem reaches_vectorOpening (count : Nat) (stack : List Opened) (text : List Char) :
    Reaches (List.replicate count ' ' ++ '#' :: '(' :: text) (.datum stack)
      (.more (.datum (.items .vector [] :: stack))) text 1 :=
  reaches_token ((spells_vectorOpening text).blank count) (by simp) rfl

theorem reaches_closing {shape : Shape} {read : List Datum} {outer : List Opened} (count : Nat)
    (rest : List Char) :
    Reaches (List.replicate count ' ' ++ ')' :: rest) (.datum (.items shape read :: outer))
      (Stage.finish shape read .nil outer) rest 1 :=
  reaches_token ((spells_closing rest).blank count) (by simp) rfl

/-- The dot, the tail after it and the closing parenthesis. -/
theorem reaches_dotted {read : List Datum} {outer : List Opened} {text rest : List Char}
    {tail : Datum} {cost : Nat}
    (htail : Reaches (List.replicate 1 ' ' ++ (text ++ ')' :: rest))
      (.datum (.tail .list read :: outer)) (Stage.deliver tail (.tail .list read :: outer))
      (')' :: rest) cost) :
    Reaches (' ' :: '.' :: ' ' :: (text ++ ')' :: rest)) (.datum (.items .list read :: outer))
      (Stage.deliver (.listStar read.reverse tail) outer) rest (cost + 2) := by
  have hdot : Reaches (' ' :: '.' :: ' ' :: (text ++ ')' :: rest))
      (.datum (.items .list read :: outer)) (.more (.datum (.tail .list read :: outer)))
      (' ' :: (text ++ ')' :: rest)) 1 :=
    reaches_token (spells_dot (by simp [Delimited]; decide)).space (by simp) rfl
  have hclose : Reaches (')' :: rest) (.closing .list read tail outer)
      (Stage.deliver (.listStar read.reverse tail) outer) rest 1 :=
    reaches_token (spells_closing rest) (by simp) rfl
  exact ((hdot.trans htail).trans hclose).restate rfl rfl (by omega)

end Reader

theorem Datum.elements?_list (ds : List Datum) : (Datum.list ds).elements? = some ds := by
  induction ds with
  | nil => rfl
  | cons d ds ih =>
      change (Datum.pair d (Datum.list ds)).elements? = some (d :: ds)
      rw [elements?, ih]
      rfl

theorem Stage.finish_vector (read : List Datum) (outer : List Opened) :
    finish .vector read .nil outer = deliver (.vector read.reverse) outer := by
  have helements := Datum.elements?_list read.reverse
  rw [Datum.list] at helements
  simp [finish, helements]

theorem Datum.listStar_reverse_cons (d : Datum) (read : List Datum) (tail : Datum) :
    listStar (d :: read).reverse tail = listStar read.reverse (.pair d tail) := by
  simp [listStar]

theorem delimited_tailText (d : Datum) (rest : List Char) :
    Delimited ((d.tailText .written).toList ++ rest) := by
  cases d <;> simp [Datum.tailText, Delimited] <;> decide

namespace Reader

mutual

theorem reaches_text {d : Datum} (hd : d.Readable) (count : Nat) (stack : List Opened)
    {rest : List Char} (hrest : Delimited rest) :
    Reaches (List.replicate count ' ' ++ ((d.text .written).toList ++ rest)) (.datum stack)
      (Stage.deliver d.unsigned stack) rest (d.text .written).toList.length := by
  have hnonempty := (Datum.text_head hd).1
  cases d with
  | nil =>
      rw [Datum.text]
      exact (reaches_opening count stack (')' :: rest)).trans (reaches_closing 0 rest)
  | boolean value =>
      rw [Datum.text] at hnonempty ⊢
      exact reaches_atom count (spells_boolean value rest) hnonempty rfl
  | number x =>
      rw [Datum.text] at hnonempty ⊢
      exact reaches_atom count (spells_number (Number.parse?_toText hd) hrest) hnonempty rfl
  | character c =>
      rw [Datum.text] at hnonempty ⊢
      exact reaches_atom count (spells_writtenCharacter c hrest) hnonempty rfl
  | symbol s =>
      rw [Datum.text] at hnonempty ⊢
      exact reaches_atom count (spells_symbol hd hrest) hnonempty rfl
  | string chars =>
      rw [Datum.text] at hnonempty ⊢
      exact reaches_atom count (spells_writtenString chars rest) hnonempty rfl
  | vector elements =>
      have hopen := reaches_vectorOpening count stack
        ((Datum.elementTexts .written elements).toList ++ ')' :: rest)
      have hall := reaches_elementTexts hd 0 [] stack rest
      refine (hopen.trans hall).restate ?_ ?_ ?_
      · simp [Datum.text]
      · simp [Datum.unsigned]
      · simp [Datum.text]
        omega
  | pair first tail =>
      obtain ⟨hfirst, htail, hlookalike⟩ := hd
      rw [Datum.text_pair]
      cases habbreviated : (Datum.pair first tail).abbreviated? with
      | none =>
          have hopen := reaches_opening count stack
            ((first.text .written).toList ++ ((tail.tailText .written).toList ++ rest))
          have hread := reaches_text hfirst 0 (.items .list [] :: stack)
            (delimited_tailText tail rest)
          have hclose := reaches_tailText htail [first.unsigned] stack rest
          refine (hopen.trans (hread.trans hclose)).restate ?_ ?_ ?_
          · simp
          · simp [Datum.unsigned, Datum.listStar]
          · simp
            omega
      | some abbreviation =>
          obtain ⟨mark, body⟩ := abbreviation
          obtain ⟨head, rfl, rfl, hmark⟩ := Datum.abbreviated?_eq_some_iff.1 habbreviated
          obtain ⟨hbody, hhead⟩ := Datum.text_head htail.1
          -- A text that starts with an at sign is the name of a symbol, and excluded as a
          -- lookalike.
          have hcomma : head = .unquote →
              ((body.text .written).toList ++ rest).head? ≠ some '@' := by
            rintro rfl hat
            rw [List.head?_append_of_ne_nil _ hbody] at hat
            obtain ⟨s, rfl, hs⟩ := hhead hat
            simp [Datum.isSplicingLookalike, hs] at hlookalike
          have hmarked := reaches_mark count stack hmark (by simp [hbody]) hcomma
          have hread := reaches_text htail.1 0 (.abbreviated head :: stack) hrest
          refine (hmarked.trans hread).restate ?_ ?_ ?_
          · simp
          · simp [Stage.deliver, Datum.list, Datum.listStar, Datum.unsigned]
          · obtain ⟨-, rfl⟩ | ⟨-, rfl⟩ | ⟨-, rfl⟩ | ⟨-, rfl⟩ := Symbol.mark_eq hmark
            all_goals simp
            all_goals omega
termination_by 2 * sizeOf d
decreasing_by
  all_goals subst_vars
  all_goals simp only [Datum.pair.sizeOf_spec, Datum.vector.sizeOf_spec]
  all_goals omega

theorem reaches_tailText {d : Datum} (hd : d.Readable) (read : List Datum) (outer : List Opened)
    (rest : List Char) :
    Reaches ((d.tailText .written).toList ++ rest) (.datum (.items .list read :: outer))
      (Stage.deliver (.listStar read.reverse d.unsigned) outer) rest
      (d.tailText .written).toList.length := by
  cases d with
  | nil =>
      rw [Datum.tailText]
      exact reaches_closing 0 rest
  | pair first tail =>
      obtain ⟨hfirst, htail, -⟩ := hd
      have hread := reaches_text hfirst 1 (.items .list read :: outer)
        (delimited_tailText tail rest)
      have hclose := reaches_tailText htail (first.unsigned :: read) outer rest
      rw [Datum.listStar_reverse_cons] at hclose
      refine (hread.trans hclose).restate ?_ rfl ?_
      · simp [Datum.tailText]
      · simp [Datum.tailText]
  | _ =>
      have hread := reaches_text hd 1 (.tail .list read :: outer)
        (show Delimited (')' :: rest) by simp [Delimited]; decide)
      refine (reaches_dotted hread).restate ?_ rfl ?_
      · simp [Datum.tailText]
      · simp [Datum.tailText]
termination_by 2 * sizeOf d + 1
decreasing_by
  all_goals subst_vars
  all_goals try simp only [Datum.pair.sizeOf_spec]
  all_goals omega

theorem reaches_elementTexts {ds : List Datum} (hds : Datum.AllReadable ds) (count : Nat)
    (read : List Datum) (outer : List Opened) (rest : List Char) :
    Reaches (List.replicate count ' ' ++ ((Datum.elementTexts .written ds).toList ++ ')' :: rest))
      (.datum (.items .vector read :: outer))
      (Stage.deliver (.vector (read.reverse ++ Datum.allUnsigned ds)) outer) rest
      ((Datum.elementTexts .written ds).toList.length + 1) := by
  cases ds with
  | nil =>
      refine (reaches_closing count rest).restate ?_ ?_ (by omega)
      · simp [Datum.elementTexts]
      · simp [Stage.finish_vector, Datum.allUnsigned]
  | cons d ds =>
      obtain ⟨hd, hds⟩ := hds
      cases ds with
      | nil =>
          have hread := reaches_text hd count (.items .vector read :: outer)
            (show Delimited (')' :: rest) by simp [Delimited]; decide)
          refine (hread.trans (reaches_closing 0 rest)).restate ?_ ?_ ?_
          · simp [Datum.elementTexts]
          · simp [Stage.finish_vector, Datum.allUnsigned]
          · simp [Datum.elementTexts]
      | cons e es =>
          have hread := reaches_text hd count (.items .vector read :: outer)
            (show Delimited (' ' :: ((Datum.elementTexts .written (e :: es)).toList ++
              ')' :: rest)) by simp [Delimited]; decide)
          have hmore := reaches_elementTexts hds 1 (d.unsigned :: read) outer rest
          refine (hread.trans hmore).restate ?_ ?_ ?_
          · simp [Datum.elementTexts]
          · simp [Datum.allUnsigned]
          · simp [Datum.elementTexts]
termination_by 2 * sizeOf ds
decreasing_by
  all_goals subst_vars
  all_goals simp only [List.cons.sizeOf_spec]
  all_goals omega

end

end Reader

/-! ## Reading back a value -/

namespace Datum

mutual

theorem alike_unsigned {d : Datum} (hd : d.Readable) : d.Alike d.unsigned := by
  cases d with
  | number x => exact Number.unsigned_beq hd
  | vector elements => exact allAlike_allUnsigned hd
  | pair first rest => exact ⟨alike_unsigned hd.1, alike_unsigned hd.2.1⟩
  | _ => simp [unsigned, Alike]
termination_by structural d

theorem allAlike_allUnsigned {ds : List Datum} (hds : AllReadable ds) :
    AllAlike ds (allUnsigned ds) := by
  cases ds with
  | nil => simp [allUnsigned, AllAlike]
  | cons d ds => exact ⟨alike_unsigned hds.1, allAlike_allUnsigned hds.2⟩
termination_by structural ds

end

end Datum

/-- The text of a readable datum is read as the datum up to the signs of its zeros. -/
theorem Reader.read_text {d : Datum} (hd : d.Readable) {rest : List Char}
    (hrest : Delimited rest) :
    ∃ r, (ofText ((d.text .written).toList ++ rest)).read = (.datum d.unsigned, r) ∧
      r.At rest := by
  obtain ⟨spent, r, hspent, hat, hrun⟩ :=
    reaches_text hd 0 [] hrest _ (at_ofText ((d.text .written).toList ++ rest))
  refine ⟨r, ?_, hat⟩
  -- No more tokens are taken than the text has characters.
  have hbudget : spent ≤ (ofText ((d.text .written).toList ++ rest)).budget := by
    simp only [budget, ofText, Cursor.ofText, Event.ofText, List.length_map, List.length_append]
    omega
  obtain ⟨spare, hspare⟩ := Nat.exists_eq_add_of_le hbudget
  rw [read, hspare]
  refine (hrun spare).trans ?_
  simp [proceed, Stage.deliver, Reading.entries]

namespace Heap

/-- The value unfolds to a tree whose text spells that tree and nothing else. -/
def Readable (h : Heap) (v : Value) : Prop :=
  ∃ d, h.Denotes v d ∧ d.Readable

theorem read_written {h : Heap} {v : Value} (hv : h.Readable v) {rest : List Char}
    (hrest : Delimited rest) :
    ∃ d r, (Reader.ofText ((h.written v).toList ++ rest)).read = (.datum d, r) ∧
      (h.build d).2.equal v (h.build d).1 = true ∧ r.cursor.entries = [] ∧ r.pushed = none ∧
      r.cursor.StandsAt rest := by
  obtain ⟨d, hd, hreadable⟩ := hv
  obtain ⟨r, hread, hat⟩ := Reader.read_text hreadable hrest
  refine ⟨d.unsigned, r, ?_, ?_, hat.entries, hat.pushed, hat.standsAt⟩
  · rw [written, text_of_denotes hd]
    exact hread
  · apply equal_of_sameTree
    exact ⟨d, d.unsigned, hd.extend (extends_build h d.unsigned), denotes_build h d.unsigned,
      Datum.alike_unsigned hreadable⟩

/-- An abbreviation, a vector of atoms that each end in their own way, and a dotted tail. -/
theorem read_written_dotted :
    let d : Datum := .pair (.list [.symbol .quote, .vector [.number 0.1, .number (-0.0),
      .character ' ', .string ['"'], .boolean true]]) (.symbol ⟨"@x"⟩)
    let (v, h) := Heap.build {} d
    h.Readable v ∧ Delimited [')'] ∧
      ∃ d r, (Reader.ofText ((h.written v).toList ++ [')'])).read = (.datum d, r) ∧
        (h.build d).2.equal v (h.build d).1 = true ∧ r.cursor.entries = [] ∧ r.pushed = none ∧
        r.cursor.StandsAt [')'] := by
  intro d
  have hquote : Symbol.quote.Readable :=
    ⟨by decide, by decide +kernel, by simp [Symbol.quote, isDelimiter, Text.isBlank], by decide,
      by decide, fun c hc hstarts => by cases Option.some.inj hc; cases hstarts⟩
  have htail : (⟨"@x"⟩ : Symbol).Readable :=
    ⟨by decide, by decide +kernel, by simp [isDelimiter, Text.isBlank], by decide,
      by decide, fun c hc hstarts => by cases Option.some.inj hc; cases hstarts⟩
  have hvector : Datum.AllReadable [.number 0.1, .number (-0.0), .character ' ', .string ['"'],
      .boolean true] :=
    ⟨(by decide +kernel : (0.1 : Float).isFinite = true),
      (by decide +kernel : (-0.0 : Float).isFinite = true), trivial, trivial, trivial, trivial⟩
  have hreadable : d.Readable := ⟨⟨hquote, ⟨hvector, trivial, rfl⟩, rfl⟩, htail, rfl⟩
  have hv : (Heap.build {} d).2.Readable (Heap.build {} d).1 := ⟨d, denotes_build {} d, hreadable⟩
  have hrest : Delimited [')'] := (by decide : isDelimiter ')' = true)
  exact ⟨hv, hrest, read_written hv hrest⟩

end Heap

end Scheme
