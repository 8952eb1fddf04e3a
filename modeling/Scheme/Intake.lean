import Scheme.Cursor
/-!
# Shared input

A session and the current input port read from the same source. Both take bytes in by whole blocks
and keep what they do not need yet, the session for itself and the port for itself; the port takes
over what the session keeps before it turns to the source. A port alone on a file that changes
keeps the same account, with nothing ready.

Taking bytes in loses none, so a session of lines comes to an end: `size_lt_of_nextLine` and
`size_settle_le`.
-/

namespace Scheme

structure Intake where
  /-- Taken in by the port. -/
  held : List UInt8 := []
  /-- Taken in by the session. -/
  ready : List UInt8 := []
  /-- Not taken in yet. -/
  rest : List UInt8

namespace Intake

/-- The bytes of a block. -/
def blockSize : Nat := 8192

/-- All bytes that were not read. -/
def size (i : Intake) : Nat :=
  i.held.length + i.ready.length + i.rest.length

/-- What the port can read, in order. -/
def bytes (i : Intake) : List UInt8 :=
  i.held ++ i.ready ++ i.rest

/-- Takes in blocks until there are so many bytes, or no more. -/
def fetch (count : Nat) (taken rest : List UInt8) : List UInt8 × List UInt8 :=
  let blocks := (count - taken.length + blockSize - 1) / blockSize
  (taken ++ rest.take (blockSize * blocks), rest.drop (blockSize * blocks))

/-- The next line of the session. -/
def nextLine (i : Intake) : Option (List UInt8 × Intake) :=
  match Event.firstLine (i.ready ++ i.rest) with
  | [] => none
  | b :: line =>
    let count := line.length + 1
    let (ready, rest) := fetch count i.ready i.rest
    some (b :: line, { i with ready := ready.drop count, rest })

/-- What is left when the port has read so many bytes. -/
def release (count : Nat) (i : Intake) : Intake :=
  if count ≤ i.held.length then { i with held := i.held.drop count }
  else
    let (held, rest) := fetch count (i.held ++ i.ready) i.rest
    { held := held.drop count, ready := [], rest }

/-- What the port can read, line by line. -/
def lines (i : Intake) : List (List UInt8 × List Event) :=
  (Event.splitLines [] i.bytes).map fun line => (line, Event.ofLine line)

/-- The last of the lines, as many as have at most `unread` events, and how many events are left
over. The port stands in the line before, unless it has read none. -/
def untouched (unread : Nat) : List (List UInt8 × List Event) → List (List UInt8) × Nat × Bool
  | [] => ([], unread, true)
  | (line, events) :: lines =>
    match untouched unread lines with
    | (kept, left, true) =>
      if events.length ≤ left then (line :: kept, left - events.length, true)
      else (kept, left, false)
    | (kept, left, false) => (kept, left, false)

/-- What is left when the port has these events to come, of those that it had and those of
`lines`, and the rest of the line in which it stands. -/
def settle (i : Intake) (lines : List (List UInt8 × List Event)) (unread : List Event) :
    Intake × List Event :=
  let (kept, left, _) := untouched unread.length lines
  (i.release (i.size - kept.flatten.length), unread.take left)

theorem length_fetch (count : Nat) (taken rest : List UInt8) :
    (fetch count taken rest).1.length + (fetch count taken rest).2.length =
      taken.length + rest.length := by
  simp only [fetch, List.length_append, List.length_take, List.length_drop]
  omega

theorem le_length_fetch {count : Nat} {taken rest : List UInt8}
    (h : count ≤ taken.length + rest.length) : count ≤ (fetch count taken rest).1.length := by
  simp only [fetch, blockSize, List.length_append, List.length_take]
  omega

theorem length_firstLine_le (bytes : List UInt8) :
    (Event.firstLine bytes).length ≤ bytes.length := by
  induction bytes with
  | nil => simp [Event.firstLine]
  | cons b rest ih =>
    rw [Event.firstLine]
    split <;> simp [ih]

theorem size_lt_of_nextLine {i next : Intake} {line : List UInt8}
    (h : i.nextLine = some (line, next)) : next.size < i.size := by
  have hle := length_firstLine_le (i.ready ++ i.rest)
  unfold nextLine at h
  split at h
  · simp at h
  · rename_i b tail hline
    have hfetch := length_fetch (tail.length + 1) i.ready i.rest
    simp only [Option.some.injEq, Prod.mk.injEq] at h
    rw [hline] at hle
    simp only [List.length_cons, List.length_append] at hle
    have hcount : tail.length + 1 ≤ (fetch (tail.length + 1) i.ready i.rest).1.length :=
      le_length_fetch hle
    rw [← h.2]
    simp only [size, List.length_drop]
    omega

theorem size_release_le (count : Nat) (i : Intake) : (i.release count).size ≤ i.size := by
  unfold release
  split
  · simp only [size, List.length_drop]
    omega
  · have hfetch := length_fetch count (i.held ++ i.ready) i.rest
    simp only [List.length_append] at hfetch
    simp only [size, List.length_drop, List.length_nil]
    omega

theorem size_settle_le (i : Intake) (lines : List (List UInt8 × List Event))
    (unread : List Event) : (i.settle lines unread).1.size ≤ i.size :=
  i.size_release_le _

end Intake

end Scheme
