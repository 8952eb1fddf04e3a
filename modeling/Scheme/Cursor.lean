import Scheme.Log
import Scheme.Text.Utf8
/-!
# Cursors

A source of characters is a list of events: its characters, and an end of file in place of each
line that is not valid UTF-8. After the last event every read answers the end of file. A cursor
stands in such a list and takes back one answer.
-/

namespace Scheme

inductive Event where
  | char (c : Char)
  /-- A line that cannot be decoded; reading it answers the end of file once. -/
  | undecodable
deriving DecidableEq

namespace Event

def ofText (text : List Char) : List Event :=
  text.map .char

/-- The lines of a byte sequence, each with its line feed; `line` holds the current one in reverse. -/
def splitLines (line : List UInt8) : List UInt8 → List (List UInt8)
  | [] => if line.isEmpty then [] else [line.reverse]
  | b :: rest =>
    if b = 10 then (b :: line).reverse :: splitLines [] rest else splitLines (b :: line) rest

/-- The first line, with its line feed. -/
def firstLine : List UInt8 → List UInt8
  | [] => []
  | b :: rest => if b = 10 then [b] else b :: firstLine rest

def ofLine (line : List UInt8) : List Event :=
  match Text.decode? line with
  | some text => ofText text
  | none => [.undecodable]

/-- The events of a byte source, which is decoded line by line. -/
def ofBytes (bytes : List UInt8) : List Event :=
  (splitLines [] bytes).flatMap ofLine

end Event

structure Cursor where
  upcoming : List Event
  /-- An answer taken back: a character or the end of file. -/
  pushed : Option (Option Char) := none
  /-- What was left when the cursor was closed. -/
  abandoned : Option (List Event) := none
  /-- What has gone wrong and has not been reported yet. -/
  entries : List Entry := []

namespace Cursor

def ofText (text : List Char) : Cursor :=
  { upcoming := Event.ofText text }

def ofBytes (bytes : List UInt8) : Cursor :=
  { upcoming := Event.ofBytes bytes }

/-- The next character, or `none` at the end of file. -/
def next (c : Cursor) : Option Char × Cursor :=
  match c.pushed with
  | some answer => (answer, { c with pushed := none })
  | none =>
    match c.upcoming with
    | [] => (none, c)
    | .char char :: rest => (some char, { c with upcoming := rest })
    | .undecodable :: rest =>
      (none, { c with upcoming := rest, entries := c.entries ++ [.undecodableLine] })

/-- Makes `answer` the next one. -/
def pushBack (c : Cursor) (answer : Option Char) : Cursor :=
  { c with pushed := some answer }

/-- The next answer, which stays. -/
def peek (c : Cursor) : Option Char × Cursor :=
  let (answer, c) := c.next
  (answer, c.pushBack answer)

def isClosed (c : Cursor) : Bool :=
  c.abandoned.isSome

/-- Gives up the rest of the source. -/
def close (c : Cursor) : Cursor :=
  { c with upcoming := [], pushed := none, abandoned := some (c.abandoned.getD c.upcoming) }

/-- The events that were not read. -/
def unread (c : Cursor) : List Event :=
  c.abandoned.getD c.upcoming

end Cursor

end Scheme
