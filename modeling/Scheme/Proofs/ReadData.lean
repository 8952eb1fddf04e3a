import Scheme.Port
import Scheme.Proofs.Reachability
import Scheme.Proofs.Readings
import Scheme.Proofs.Tokens
/-!
# What a reader answers

A reader that was made from a source, and has since been used in any way, answers data of good
form only: made of numbers, characters, strings, booleans and symbols that tokens can be, in lists
and vectors. What the source holds does not matter. Received in a world, such a datum is a tree of
new cells.
-/

namespace Scheme

/-! ## Data of good form -/

namespace Datum

mutual

/-- Made of what tokens can be. -/
def Sound : Datum → Prop
  | .number value => value.isNaN = false
  | .symbol value => value.Readable
  | .vector elements => AllSound elements
  | .pair first rest => Sound first ∧ Sound rest
  | _ => True

def AllSound : List Datum → Prop
  | [] => True
  | d :: rest => Sound d ∧ AllSound rest

end

theorem sound_listStar {items : List Datum} {tail : Datum} (hitems : ∀ d ∈ items, d.Sound)
    (htail : tail.Sound) : (listStar items tail).Sound := by
  induction items with
  | nil => exact htail
  | cons d items ih =>
      exact ⟨hitems d (List.mem_cons_self ..),
        ih fun d' hd' => hitems d' (List.mem_cons_of_mem _ hd')⟩

theorem Sound.elements {d : Datum} {elements : List Datum} (hd : d.Sound)
    (h : d.elements? = some elements) : AllSound elements := by
  induction d using elements?.induct generalizing elements with
  | case1 =>
      cases h
      trivial
  | case2 first rest ih =>
      rw [elements?, Option.map_eq_some_iff] at h
      obtain ⟨others, hothers, rfl⟩ := h
      exact ⟨hd.1, ih hd.2 hothers⟩
  | case3 d hnil hpair =>
      cases d with
      | nil => exact absurd rfl hnil
      | pair first rest => exact absurd rfl (hpair first rest)
      | _ => cases h

end Datum

/-! ## Turns -/

/-- Holds data of good form only. -/
def Opened.Sound : Opened → Prop
  | .items _ read | .tail _ read => ∀ d ∈ read, d.Sound
  | .abbreviated head => head.Readable

def Stage.Sound : Stage → Prop
  | .datum stack => ∀ opened ∈ stack, opened.Sound
  | .closing _ read tail outer =>
    (∀ d ∈ read, d.Sound) ∧ tail.Sound ∧ ∀ opened ∈ outer, opened.Sound

def Progress.Sound : Progress → Prop
  | .more stage => stage.Sound
  | .done (.datum d) => d.Sound
  | .done _ => True

/-- A symbol that its own name spells is readable. -/
theorem Symbol.readable_of_scan {s : Symbol}
    (h : (scan .between (Event.ofText s.name.toList)).token = .symbol s) : s.Readable := by
  have hsound := scan_sound .between (Event.ofText s.name.toList)
  rw [h] at hsound
  exact hsound

theorem Symbol.readable_abbreviations : Symbol.quote.Readable ∧ Symbol.quasiquote.Readable ∧
    Symbol.unquote.Readable ∧ Symbol.unquoteSplicing.Readable :=
  ⟨readable_of_scan (by decide +kernel), readable_of_scan (by decide +kernel),
    readable_of_scan (by decide +kernel), readable_of_scan (by decide +kernel)⟩

namespace Stage

theorem deliver_sound {d : Datum} {stack : List Opened} (hd : d.Sound)
    (hstack : ∀ opened ∈ stack, opened.Sound) : (deliver d stack).Sound := by
  fun_induction deliver d stack with
  | case1 => exact hd
  | case2 d shape read outer =>
      rw [List.forall_mem_cons] at hstack
      refine List.forall_mem_cons.2 ⟨?_, hstack.2⟩
      exact List.forall_mem_cons.2 ⟨hd, hstack.1⟩
  | case3 d shape read outer =>
      rw [List.forall_mem_cons] at hstack
      exact ⟨hstack.1, hd, hstack.2⟩
  | case4 d head outer ih =>
      rw [List.forall_mem_cons] at hstack
      exact ih ⟨hstack.1, hd, trivial⟩ hstack.2

theorem finish_sound {shape : Shape} {read : List Datum} {tail : Datum} {outer : List Opened}
    (hread : ∀ d ∈ read, d.Sound) (htail : tail.Sound) (houter : ∀ opened ∈ outer, opened.Sound) :
    (finish shape read tail outer).Sound := by
  have hwhole : (Datum.listStar read.reverse tail).Sound :=
    Datum.sound_listStar (fun d hd => hread d (List.mem_reverse.1 hd)) htail
  cases shape with
  | list => exact deliver_sound hwhole houter
  | vector =>
      simp only [finish]
      split
      · rename_i elements helements
        exact deliver_sound (d := .vector elements) (hwhole.elements helements) houter
      · trivial

theorem start_sound {stack : List Opened} {token : Token}
    (hstack : ∀ opened ∈ stack, opened.Sound) (htoken : token.Sound) :
    (start stack token).1.Sound := by
  obtain ⟨hquote, hquasiquote, hunquote, hsplicing⟩ := Symbol.readable_abbreviations
  cases token with
  | opening | vectorOpening => exact List.forall_mem_cons.2 ⟨by simp [Opened.Sound], hstack⟩
  | quote => exact List.forall_mem_cons.2 ⟨hquote, hstack⟩
  | backquote => exact List.forall_mem_cons.2 ⟨hquasiquote, hstack⟩
  | comma => exact List.forall_mem_cons.2 ⟨hunquote, hstack⟩
  | commaAt => exact List.forall_mem_cons.2 ⟨hsplicing, hstack⟩
  | boolean value => exact deliver_sound trivial hstack
  | number value => exact deliver_sound htoken hstack
  | character value => exact deliver_sound trivial hstack
  | string value => exact deliver_sound trivial hstack
  | symbol value => exact deliver_sound htoken hstack
  | closing =>
      simp only [start]
      split
      · rw [List.forall_mem_cons] at hstack
        exact finish_sound hstack.1 trivial hstack.2
      · exact hstack
  | dot =>
      simp only [start]
      split
      · rw [List.forall_mem_cons] at hstack
        exact List.forall_mem_cons.2 hstack
      · exact hstack
  | endOfInput =>
      simp only [start]
      split <;> trivial

/-- A token of good form brings data of good form, and none else is taken back. -/
theorem absorb_sound {stage : Stage} {token : Token} (hstage : stage.Sound)
    (htoken : token.Sound) :
    (stage.absorb token).1.Sound ∧ ∀ back, (stage.absorb token).2.1 = some back → back.Sound := by
  cases stage with
  | datum stack => exact ⟨start_sound hstage htoken, fun _ hback => by cases hback⟩
  | closing shape read tail outer =>
      have hfinish : (finish shape read tail outer).Sound :=
        finish_sound hstage.1 hstage.2.1 hstage.2.2
      cases token with
      | closing => exact ⟨hfinish, fun _ hback => by cases hback⟩
      | endOfInput => exact ⟨trivial, fun _ hback => by cases hback⟩
      | _ =>
          refine ⟨hfinish, fun _ hback => ?_⟩
          cases hback
          exact htoken

end Stage

namespace Reader

/-- A token that was taken back is of good form. -/
def Sound (r : Reader) : Prop :=
  ∀ token, r.pushed = some token → token.Sound

theorem Sound.token {r : Reader} (hr : r.Sound) : r.token.1.Sound := by
  unfold Reader.token
  split
  · rename_i token hpushed
    exact hr token hpushed
  · exact r.cursor.token_sound

theorem Sound.turn {r : Reader} (hr : r.Sound) {stage : Stage} (hstage : stage.Sound) :
    (r.turn stage).1.Sound ∧ (r.turn stage).2.Sound :=
  Stage.absorb_sound hstage hr.token

theorem Turns.sound {stage : Stage} {r r' : Reader} {reading : Reading}
    (h : Turns stage r reading r') (hr : r.Sound) (hstage : stage.Sound) :
    (Progress.done reading).Sound ∧ r'.Sound := by
  induction h with
  | done hdone =>
      obtain ⟨hprogress, hnext⟩ := hr.turn hstage
      rw [hdone] at hprogress
      exact ⟨hprogress, hnext⟩
  | more hmore hrest ih =>
      obtain ⟨hprogress, hnext⟩ := hr.turn hstage
      rw [hmore] at hprogress
      exact ih hnext hprogress

/-- What comes of a reader over any source, by reading data and characters, closing it, and taking
its reports; the rest of the source may change in between. -/
inductive Reached : Reader → Prop where
  | source (c : Cursor) : Reached { cursor := c }
  | read {r : Reader} (h : Reached r) : Reached r.read.2
  | readChar {r : Reader} (h : Reached r) : Reached r.readChar.2
  | peekChar {r : Reader} (h : Reached r) : Reached r.peekChar.2
  | close {r : Reader} (h : Reached r) : Reached r.close
  | drain {r : Reader} (h : Reached r) : Reached r.drain.2
  | change {r : Reader} (h : Reached r) (events : List Event) :
      Reached { r with cursor := { r.cursor with upcoming := events } }

theorem Sound.read {r : Reader} (hr : r.Sound) :
    (Progress.done r.read.1).Sound ∧ r.read.2.Sound :=
  r.turns_read.sound hr fun _ h => absurd h (List.not_mem_nil)

theorem Reached.sound {r : Reader} (h : r.Reached) : r.Sound := by
  induction h with
  | source c => exact fun _ hpushed => by cases hpushed
  | read h ih => exact ih.read.2
  | close h ih => exact fun _ hpushed => by cases hpushed
  | readChar h ih | peekChar h ih | drain h ih | change h events ih => exact ih

/-- The data that a reader can answer. -/
theorem Reached.read_sound {r r' : Reader} {d : Datum} (hr : r.Reached)
    (h : r.read = (.datum d, r')) : d.Sound := by
  have hdone := hr.sound.read.1
  rw [h] at hdone
  exact hdone

end Reader

/-! ## Trees of cells -/

/-- Where part of a datum is kept. -/
inductive Address where
  | pair (ref : Ref .pair)
  | string (ref : Ref .string)
  | vector (ref : Ref .vector)
deriving DecidableEq

namespace Heap

/-- The heap has a cell at the place. -/
def Holds (h : Heap) : Address → Prop
  | .pair ref => ref.index < h.pairs.size
  | .string ref => ref.index < h.strings.size
  | .vector ref => ref.index < h.vectors.size

mutual

/-- The value is a finite tree of atoms in the cells at the places, each named as often as the
tree comes to it. -/
inductive Tree (h : Heap) : Value → List Address → Prop where
  | nil : Tree h .nil []
  | boolean (value : Bool) : Tree h (.boolean value) []
  | number {value : Float} (hvalue : value.isNaN = false) : Tree h (.number (.float value)) []
  | character (value : Char) : Tree h (.character value) []
  | symbol {value : Symbol} (hvalue : value.Readable) : Tree h (.symbol value) []
  | string {ref : Ref .string} (href : h.Holds (.string ref)) : Tree h (.string ref) [.string ref]
  | vector {ref : Ref .vector} {elements : Array Value} {places : List Address}
      (helements : h.vectors[ref.index]? = some elements) (hall : Trees h elements.toList places) :
      Tree h (.vector ref) (.vector ref :: places)
  | pair {ref : Ref .pair} {p : Pair} {places places' : List Address}
      (hp : h.pairs[ref.index]? = some p) (hfirst : Tree h p.first places)
      (hrest : Tree h p.rest places') : Tree h (.pair ref) (.pair ref :: (places ++ places'))

inductive Trees (h : Heap) : List Value → List Address → Prop where
  | nil : Trees h [] []
  | cons {v : Value} {values : List Value} {places places' : List Address} (hfirst : Tree h v places)
      (hrest : Trees h values places') : Trees h (v :: values) (places ++ places')

end

theorem Extends.holds {h h' : Heap} (hext : Extends h h') {place : Address} (hplace : h.Holds place) :
    h'.Holds place := by
  have hlt : ∀ {α : Type} {xs ys : Array α} {i : Nat},
      (∀ (i : Nat) a, xs[i]? = some a → ys[i]? = some a) → i < xs.size → i < ys.size := by
    intro α xs ys i hsome hi
    have hget := hsome i xs[i] (Array.getElem?_eq_getElem hi)
    exact (Array.getElem?_eq_some_iff.1 hget).1
  cases place with
  | pair ref => exact hlt hext.pairs hplace
  | string ref => exact hlt hext.strings hplace
  | vector ref => exact hlt hext.vectors hplace

mutual

theorem Tree.extend {h h' : Heap} (hext : Extends h h') :
    ∀ {v : Value} {places : List Address}, h.Tree v places → h'.Tree v places
  | _, _, .nil => .nil
  | _, _, .boolean value => .boolean value
  | _, _, .number hvalue => .number hvalue
  | _, _, .character value => .character value
  | _, _, .symbol hvalue => .symbol hvalue
  | _, _, .string href => .string (hext.holds href)
  | _, _, .vector helements hall => .vector (hext.vectors _ _ helements) (Trees.extend hext hall)
  | _, _, .pair hp hfirst hrest =>
    .pair (hext.pairs _ _ hp) (Tree.extend hext hfirst) (Tree.extend hext hrest)

theorem Trees.extend {h h' : Heap} (hext : Extends h h') :
    ∀ {values : List Value} {places : List Address}, h.Trees values places → h'.Trees values places
  | _, _, .nil => .nil
  | _, _, .cons hfirst hrest => .cons (Tree.extend hext hfirst) (Trees.extend hext hrest)

end

/-- The places are all different, and came in between the two heaps. -/
structure New (h h' : Heap) (places : List Address) : Prop where
  nodup : places.Nodup
  fresh : ∀ place ∈ places, ¬ h.Holds place
  held : ∀ place ∈ places, h'.Holds place

theorem New.nil (h h' : Heap) : New h h' [] :=
  ⟨List.nodup_nil, by simp, by simp⟩

/-- New places, and then more. -/
theorem New.append {h₁ h₂ h₃ : Heap} {places places' : List Address} (h : New h₁ h₂ places)
    (h' : New h₂ h₃ places') (h₁₂ : Extends h₁ h₂) (h₂₃ : Extends h₂ h₃) :
    New h₁ h₃ (places ++ places') where
  nodup := by
    refine h.nodup.append h'.nodup ?_
    intro place hplace hplace'
    exact h'.fresh place hplace' (h.held place hplace)
  fresh place hplace := by
    rcases List.mem_append.1 hplace with hplace | hplace
    · exact h.fresh place hplace
    · exact fun hheld => h'.fresh place hplace (h₁₂.holds hheld)
  held place hplace := by
    rcases List.mem_append.1 hplace with hplace | hplace
    · exact h₂₃.holds (h.held place hplace)
    · exact h'.held place hplace

/-- New places, and then one more cell. -/
theorem New.cons {h₁ h₂ h₃ : Heap} {place : Address} {places : List Address} (h : New h₁ h₂ places)
    (h₁₂ : Extends h₁ h₂) (h₂₃ : Extends h₂ h₃) (hfresh : ¬ h₂.Holds place)
    (hheld : h₃.Holds place) : New h₁ h₃ (place :: places) where
  nodup := List.nodup_cons.2 ⟨fun hmem => hfresh (h.held place hmem), h.nodup⟩
  fresh := List.forall_mem_cons.2 ⟨fun hplace => hfresh (h₁₂.holds hplace), h.fresh⟩
  held := List.forall_mem_cons.2 ⟨hheld, fun other hother => h₂₃.holds (h.held other hother)⟩

mutual

/-- A datum of good form is built as a tree of new cells. -/
theorem tree_build (h : Heap) {d : Datum} (hd : d.Sound) :
    ∃ places, (h.build d).2.Tree (h.build d).1 places ∧ New h (h.build d).2 places := by
  cases d with
  | nil => exact ⟨[], .nil, .nil _ _⟩
  | boolean value => exact ⟨[], .boolean value, .nil _ _⟩
  | number value => exact ⟨[], .number hd, .nil _ _⟩
  | character value => exact ⟨[], .character value, .nil _ _⟩
  | symbol value => exact ⟨[], .symbol hd, .nil _ _⟩
  | string chars =>
      have hheld : (h.addString chars.toArray).2.Holds (.string ⟨h.strings.size⟩) := by
        simp [Holds, addString]
      exact ⟨_, .string hheld, (New.nil h h).cons (.refl h) (extends_addString _ _)
        (Nat.lt_irrefl _) hheld⟩
  | vector elements =>
      obtain ⟨places, htrees, hnew⟩ := trees_buildAll h hd
      have hext := extends_addVector (h.buildAll elements).2 (h.buildAll elements).1.toArray
      have hcell : (h.build (.vector elements)).2.vectors[(h.buildAll elements).2.vectors.size]? =
          some (h.buildAll elements).1.toArray := by
        simp [build, addVector]
      refine ⟨_, .vector hcell (htrees.extend hext), ?_⟩
      exact hnew.cons (extends_buildAll h elements) hext (Nat.lt_irrefl _)
        (Array.getElem?_eq_some_iff.1 hcell).1
  | pair first rest =>
      obtain ⟨places, hfirst, hnew⟩ := tree_build h hd.1
      obtain ⟨places', hrest, hnew'⟩ := tree_build (h.build first).2 hd.2
      have hext := extends_cons ((h.build first).2.build rest).2 (h.build first).1
        ((h.build first).2.build rest).1
      have hboth := hnew.append hnew' (extends_build h first) (extends_build _ rest)
      have hcell : (h.build (.pair first rest)).2.pairs[
          ((h.build first).2.build rest).2.pairs.size]? =
            some ⟨(h.build first).1, ((h.build first).2.build rest).1⟩ := by
        simp [build, cons]
      refine ⟨_, .pair hcell ((hfirst.extend (extends_build _ rest)).extend hext)
        (hrest.extend hext), ?_⟩
      exact hboth.cons ((extends_build h first).trans (extends_build _ rest)) hext
        (Nat.lt_irrefl _) (Array.getElem?_eq_some_iff.1 hcell).1
termination_by structural d

theorem trees_buildAll (h : Heap) {ds : List Datum} (hds : Datum.AllSound ds) :
    ∃ places, (h.buildAll ds).2.Trees (h.buildAll ds).1 places ∧
      New h (h.buildAll ds).2 places := by
  cases ds with
  | nil => exact ⟨[], .nil, .nil _ _⟩
  | cons d ds =>
      obtain ⟨places, hfirst, hnew⟩ := tree_build h hds.1
      obtain ⟨places', hrest, hnew'⟩ := trees_buildAll (h.build d).2 hds.2
      exact ⟨places ++ places', .cons (hfirst.extend (extends_buildAll _ ds)) hrest,
        hnew.append hnew' (extends_build h d) (extends_buildAll _ ds)⟩
termination_by structural ds

end

theorem Trees.exists_of_mem {h : Heap} {values : List Value} {places : List Address}
    (hall : h.Trees values places) {v : Value} (hv : v ∈ values) : ∃ places, h.Tree v places := by
  induction values generalizing places with
  | nil => cases hv
  | cons first values ih =>
      cases hall with
      | cons hfirst hrest =>
          rcases List.mem_cons.1 hv with rfl | hv
          · exact ⟨_, hfirst⟩
          · exact ih hrest hv

/-- Nothing in a tree is the end of file. -/
theorem reachesFrom_endOfFile {h : Heap} {budget : Nat} {met : Std.TreeSet Nat}
    {waiting : List Value} (hwaiting : ∀ v ∈ waiting, ∃ places, h.Tree v places) :
    h.reachesFrom .endOfFile budget met waiting = false := by
  fun_induction reachesFrom h .endOfFile budget met waiting with
  | case1 => rfl
  | case2 =>
      obtain ⟨_, htree⟩ := hwaiting _ (List.mem_cons_self ..)
      cases htree
  | case4 | case7 => rfl
  | case5 met waiting ref key _ budget p _ ih =>
      obtain ⟨⟨_, htree⟩, hothers⟩ := List.forall_mem_cons.1 hwaiting
      cases htree with
      | pair hp hfirst hrest =>
          have hcell : p = _ := pair_eq_of_getElem? hp
          rw [hcell] at ih ⊢
          exact ih (List.forall_mem_cons.2
            ⟨⟨_, hfirst⟩, List.forall_mem_cons.2 ⟨⟨_, hrest⟩, hothers⟩⟩)
  | case8 met waiting ref key _ budget _ ih =>
      obtain ⟨⟨_, htree⟩, hothers⟩ := List.forall_mem_cons.1 hwaiting
      cases htree with
      | vector helements hall =>
          rw [vector_eq_of_getElem? helements] at ih ⊢
          refine ih fun v hv => ?_
          rcases List.mem_append.1 hv with hv | hv
          · exact hall.exists_of_mem hv
          · exact hothers v hv
  | case3 _ _ _ _ _ _ _ ih | case6 _ _ _ _ _ _ _ ih | case9 _ _ _ _ _ _ _ ih =>
      exact ih (List.forall_mem_cons.1 hwaiting).2

end Heap

namespace World

/-- Whatever its source holds and whatever a reader has been used for, a value that it answers is
the end of file or a tree of new cells. -/
theorem received_tree {r : Reader} (hr : r.Reached) {w w' : World} {v : Value}
    (h : receive r.read.1 w = .value v w') (hv : v ≠ .endOfFile) :
    ∃ places, w'.heap.Tree v places ∧ w.heap.New w'.heap places ∧ w.heap.Extends w'.heap ∧
      w'.heap.reaches v .endOfFile = false := by
  cases hread : r.read with
  | mk reading r' =>
      rw [hread] at h
      cases reading with
      | datum d =>
          obtain ⟨places, htree, hnew⟩ := w.heap.tree_build (hr.read_sound hread)
          have hext := w.heap.extends_build d
          cases h
          exact ⟨places, htree, hnew, hext, Heap.reachesFrom_endOfFile (by simpa using ⟨_, htree⟩)⟩
      | endOfInput =>
          cases h
          exact absurd rfl hv
      | failed cause => cases h
      | cutShort => cases h

end World

/-- The leaves of a quoted list whose elements are a symbol and a vector of a number and a symbol,
and which ends in a symbol. -/
def Reading.leaves? : Reading → Option (Symbol × Symbol × Float × Symbol × Symbol)
  | .datum (.pair (.symbol quote) (.pair (.pair (.symbol a)
      (.pair (.vector [.number x, .symbol b]) (.symbol c))) .nil)) => some (quote, a, x, b, c)
  | _ => none

/-- A line that is no text, marks out of place, a name with a mark inside, and a tail with more
after it. -/
theorem World.received_tree_malformed :
    let source := 255 :: 10 :: ") . #q '(A #(1E2 X#) . \u00c9 z".toUTF8.data.toList
    let r := (Reader.ofBytes source).read.2
    let w : World := { host := { rules := .byName }, maxDepth := 1 }
    let d : Datum := .list [.symbol .quote, .listStar
      [.symbol ⟨"a"⟩, .vector [.number 100, .symbol ⟨"x#"⟩]] (.symbol ⟨"\u00e9"⟩)]
    r.Reached ∧ r.read.1 = .datum d ∧
      ∃ v w', receive r.read.1 w = .value v w' ∧ v ≠ .endOfFile ∧
        ∃ places, w'.heap.Tree v places ∧ w.heap.New w'.heap places ∧ w.heap.Extends w'.heap ∧
          w'.heap.reaches v .endOfFile = false := by
  intro source r w d
  have hr : r.Reached := .read (.source _)
  have hread : r.read.1 = .datum d := by
    have hleaves : r.read.1.leaves? =
        some (.quote, ⟨"a"⟩, 100, ⟨"x#"⟩, ⟨"\u00e9"⟩) := by
      decide +kernel
    unfold Reading.leaves? at hleaves
    split at hleaves
    · rename_i hdatum
      rw [hdatum]
      cases hleaves
      rfl
    · cases hleaves
  have hreceive : receive r.read.1 w =
      .value (.pair ⟨3⟩) { w with heap := (w.heap.build d).2 } := by
    rw [hread]
    rfl
  exact ⟨hr, hread, _, _, hreceive, by decide, received_tree hr hreceive (by decide)⟩

end Scheme
