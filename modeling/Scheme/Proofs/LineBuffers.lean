import Scheme.Proofs.DecodedLines
/-!
# Line buffers

A source is read line by line. Next to the bytes that were not read there is what is left of the
line that was read last, and when that is used up the next line is taken in. A cursor answers like
such a buffer: its events are the characters that are left, and those of the bytes.
-/

namespace Scheme

/-- A source, with what is left of its current line. -/
structure LineBuffer where
  /-- The bytes that were not read, unless the source has been closed. -/
  source : Option (List UInt8)
  line : List Char := []
  /-- An answer taken back: a character or the end of file. -/
  pushed : Option (Option Char) := none
  /-- What has gone wrong and has not been reported yet. -/
  entries : List Entry := []

namespace LineBuffer

variable {b b' : LineBuffer}

def ofBytes (bytes : List UInt8) : LineBuffer :=
  { source := some bytes }

def bytes (b : LineBuffer) : List UInt8 :=
  b.source.getD []

/-- The first line has been taken from the source. -/
def taken (b : LineBuffer) : LineBuffer :=
  { b with source := b.source.map fun bytes => bytes.drop (Event.firstLine bytes).length }

theorem bytes_taken (b : LineBuffer) :
    b.taken.bytes = b.bytes.drop (Event.firstLine b.bytes).length := by
  obtain ⟨_ | _⟩ := b <;> rfl

/-- Takes in the next line, if there is one. One that encodes no text is lost. -/
def fill (b : LineBuffer) : Bool × LineBuffer :=
  if b.bytes.isEmpty then (false, b)
  else
    match Text.decode? (Event.firstLine b.bytes) with
    | some text => (true, { b.taken with line := b.line ++ text })
    | none => (false, { b.taken with entries := b.entries ++ [.undecodableLine] })

/-- There is no line, or one that is taken in, or one that is lost. -/
theorem fill_cases (b : LineBuffer) :
    b.bytes = [] ∧ b.fill = (false, b) ∨
    (∃ text, b.bytes ≠ [] ∧ Text.decode? (Event.firstLine b.bytes) = some text ∧
      b.fill = (true, { b.taken with line := b.line ++ text })) ∨
    b.bytes ≠ [] ∧ Text.decode? (Event.firstLine b.bytes) = none ∧
      b.fill = (false, { b.taken with entries := b.entries ++ [.undecodableLine] }) := by
  unfold fill
  by_cases hbytes : b.bytes = []
  · exact Or.inl ⟨hbytes, by simp [hbytes]⟩
  · have hempty : b.bytes.isEmpty = false := by simpa using hbytes
    cases hdecode : Text.decode? (Event.firstLine b.bytes) with
    | some text => exact Or.inr (Or.inl ⟨text, hbytes, rfl, by simp [hempty]⟩)
    | none => exact Or.inr (Or.inr ⟨hbytes, rfl, by simp [hempty]⟩)

theorem length_fill (h : b.fill = (true, b')) : b'.bytes.length < b.bytes.length := by
  rcases b.fill_cases with ⟨-, hfill⟩ | ⟨text, hne, -, hfill⟩ | ⟨-, -, hfill⟩
  · cases hfill.symm.trans h
  · cases hfill.symm.trans h
    change b.taken.bytes.length < b.bytes.length
    obtain ⟨byte, bytes, hbytes⟩ := List.exists_cons_of_ne_nil hne
    have hpos : 0 < (Event.firstLine b.bytes).length := by
      rw [hbytes, Event.firstLine]
      split <;> exact Nat.succ_pos _
    have hlength : 0 < b.bytes.length := List.length_pos_iff.2 hne
    rw [bytes_taken, List.length_drop]
    omega
  · cases hfill.symm.trans h

/-- The next character of the lines. -/
def read (b : LineBuffer) : Option Char × LineBuffer :=
  match b.line with
  | c :: line => (some c, { b with line })
  | [] =>
    match _h : b.fill with
    | (true, filled) => filled.read
    | (false, filled) => (none, filled)
termination_by b.bytes.length
decreasing_by exact length_fill _h

/-- The next character, or `none` at the end of file. -/
def next (b : LineBuffer) : Option Char × LineBuffer :=
  match b.pushed with
  | some answer => (answer, { b with pushed := none })
  | none => b.read

/-- Makes `answer` the next one. -/
def pushBack (b : LineBuffer) (answer : Option Char) : LineBuffer :=
  { b with pushed := some answer }

/-- The next answer, which stays. -/
def peek (b : LineBuffer) : Option Char × LineBuffer :=
  let (answer, b) := b.next
  (answer, b.pushBack answer)

def close (b : LineBuffer) : LineBuffer :=
  { b with source := none, line := [], pushed := none }

theorem pushed_fill (b : LineBuffer) : b.fill.2.pushed = b.pushed := by
  rcases b.fill_cases with ⟨-, hfill⟩ | ⟨text, -, -, hfill⟩ | ⟨-, -, hfill⟩ <;>
    exact congrArg (·.2.pushed) hfill

theorem pushed_read (b : LineBuffer) : b.read.2.pushed = b.pushed := by
  fun_induction read b with
  | case1 => rfl
  | case2 b hline filled hfill ih =>
      rw [ih, ← b.pushed_fill, hfill]
  | case3 b hline filled hfill =>
      rw [← b.pushed_fill, hfill]

theorem pushed_next (b : LineBuffer) : b.next.2.pushed = none := by
  unfold next
  split
  · rfl
  · rename_i hfree
    exact b.pushed_read.trans hfree

/-- The answer looked at is the next one, and with it the buffer comes to where it would be. -/
theorem next_peek (b : LineBuffer) : b.peek.2.next = b.next := by
  have hsame : ({ b.next.2 with pushed := none } : LineBuffer) = b.next.2 := by
    rw [← b.pushed_next]
  exact Prod.ext rfl hsame

theorem peek_peek (b : LineBuffer) : b.peek.2.peek = b.peek := by
  rw [peek, next_peek]
  rfl

end LineBuffer

namespace Event

theorem splitLines_cons {b : UInt8} {bytes line : List UInt8} :
    splitLines line (b :: bytes) = (line.reverse ++ firstLine (b :: bytes)) ::
      splitLines [] ((b :: bytes).drop (firstLine (b :: bytes)).length) := by
  induction bytes generalizing b line with
  | nil =>
      rw [splitLines, firstLine]
      split <;> simp [splitLines, firstLine]
  | cons b' bytes ih =>
      rw [splitLines, firstLine]
      split
      · simp
      · rw [ih]
        simp

/-- The events of a source are those of its first line and of the other ones. -/
theorem ofBytes_firstLine {bytes : List UInt8} (hne : bytes ≠ []) :
    ofBytes bytes =
      ofLine (firstLine bytes) ++ ofBytes (bytes.drop (firstLine bytes).length) := by
  obtain ⟨b, bytes, rfl⟩ := List.exists_cons_of_ne_nil hne
  rw [ofBytes, splitLines_cons, List.flatMap_cons, ofBytes]
  rfl

end Event

namespace Cursor

/-- The cursor stands where the buffer does. -/
structure Holds (c : Cursor) (b : LineBuffer) : Prop where
  upcoming : c.upcoming = Event.ofText b.line ++ Event.ofBytes b.bytes
  pushed : c.pushed = b.pushed
  closed : c.isClosed = b.source.isNone
  entries : c.entries = b.entries

variable {c : Cursor} {b b' : LineBuffer}

theorem holds_ofBytes (bytes : List UInt8) : (ofBytes bytes).Holds (.ofBytes bytes) :=
  ⟨rfl, rfl, rfl, rfl⟩

theorem next_nil (hfree : c.pushed = none) (hupcoming : c.upcoming = []) : c.next = (none, c) := by
  simp only [next, hfree, hupcoming]

/-- What reading an event answers, and what it reports. -/
theorem next_cons {event : Event} {rest : List Event} (hfree : c.pushed = none)
    (hupcoming : c.upcoming = event :: rest) : c.next =
      match event with
      | .char ch => (some ch, { c with upcoming := rest })
      | .undecodable => (none, { c with
          upcoming := rest, entries := c.entries ++ [.undecodableLine] }) := by
  cases event <;> simp only [next, hfree, hupcoming]

/-- The events of the line that is taken in come next, as they did before. -/
theorem Holds.filled (h : c.Holds b) (hline : b.line = []) (hfill : b.fill = (true, b')) :
    c.Holds b' := by
  rcases b.fill_cases with ⟨-, hcase⟩ | ⟨text, hne, hdecode, hcase⟩ | ⟨-, -, hcase⟩
  · cases hcase.symm.trans hfill
  · cases hcase.symm.trans hfill
    refine ⟨?_, h.pushed, h.closed.trans Option.isNone_map.symm, h.entries⟩
    change c.upcoming = Event.ofText (b.line ++ text) ++ Event.ofBytes b.taken.bytes
    rw [h.upcoming, hline, Event.ofBytes_firstLine hne, Event.ofLine, hdecode,
      LineBuffer.bytes_taken]
    rfl
  · cases hcase.symm.trans hfill

/-- Where no line can be taken in, the cursor comes to the end of file. -/
theorem Holds.ended (h : c.Holds b) (hfree : c.pushed = none) (hline : b.line = [])
    (hfill : b.fill = (false, b')) : c.next.1 = none ∧ c.next.2.Holds b' := by
  have hupcoming := h.upcoming
  rw [hline] at hupcoming
  rcases b.fill_cases with ⟨hnone, hcase⟩ | ⟨text, -, -, hcase⟩ | ⟨hne, hdecode, hcase⟩
  · cases hcase.symm.trans hfill
    rw [hnone] at hupcoming
    rw [next_nil hfree hupcoming]
    exact ⟨rfl, h⟩
  · cases hcase.symm.trans hfill
  · cases hcase.symm.trans hfill
    rw [Event.ofBytes_firstLine hne, Event.ofLine, hdecode, ← LineBuffer.bytes_taken] at hupcoming
    rw [next_cons hfree hupcoming]
    refine ⟨rfl, ?_, h.pushed, h.closed.trans Option.isNone_map.symm,
      congrArg (· ++ [.undecodableLine]) h.entries⟩
    change _ = Event.ofText b.line ++ _
    rw [hline]
    rfl

/-- What is read from the lines is the next event. -/
theorem Holds.read (h : c.Holds b) (hfree : c.pushed = none) :
    b.read.1 = c.next.1 ∧ c.next.2.Holds b.read.2 := by
  fun_induction LineBuffer.read b with
  | case1 b ch line hline =>
      have hfirst : c.upcoming = .char ch :: (Event.ofText line ++ Event.ofBytes b.bytes) := by
        rw [h.upcoming, hline]
        rfl
      rw [next_cons hfree hfirst]
      exact ⟨rfl, rfl, h.pushed, h.closed, h.entries⟩
  | case2 b hline filled hfill ih => exact ih (h.filled hline hfill)
  | case3 b hline filled hfill =>
      obtain ⟨hnone, hended⟩ := h.ended hfree hline hfill
      exact ⟨hnone.symm, hended⟩

theorem Holds.next (h : c.Holds b) : b.next.1 = c.next.1 ∧ c.next.2.Holds b.next.2 := by
  cases hpushed : b.pushed with
  | none =>
      have hnext : b.next = b.read := by
        simp only [LineBuffer.next, hpushed]
      rw [hnext]
      exact h.read (h.pushed.trans hpushed)
  | some answer =>
      have hnext : c.next = (answer, { c with pushed := none }) := by
        simp only [Cursor.next, h.pushed.trans hpushed]
      simp only [LineBuffer.next, hpushed, hnext]
      exact ⟨trivial, h.upcoming, rfl, h.closed, h.entries⟩

theorem Holds.pushBack (h : c.Holds b) (answer : Option Char) :
    (c.pushBack answer).Holds (b.pushBack answer) :=
  ⟨h.upcoming, rfl, h.closed, h.entries⟩

theorem Holds.peek (h : c.Holds b) : b.peek.1 = c.peek.1 ∧ c.peek.2.Holds b.peek.2 := by
  obtain ⟨hanswer, hnext⟩ := h.next
  refine ⟨hanswer, ?_⟩
  simp only [Cursor.peek, LineBuffer.peek, hanswer]
  exact hnext.pushBack _

theorem Holds.close (h : c.Holds b) : c.close.Holds b.close :=
  ⟨rfl, rfl, rfl, h.entries⟩

end Cursor

end Scheme
