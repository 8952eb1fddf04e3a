import Scheme.Datum.Text
import Scheme.Token.Scan
/-!
# Reading data

A reader assembles data from tokens with a stack of the constructs that are still open. It can
take back one token.
-/

namespace Scheme

/-- What the closing parenthesis makes of the items read. -/
inductive Shape where
  | list
  | vector

/-- A construct whose end has not been read; items are kept in reverse. -/
inductive Opened where
  | items (shape : Shape) (read : List Datum)
  /-- After the dot, before the tail. -/
  | tail (shape : Shape) (read : List Datum)
  | abbreviated (head : Symbol)

/-- What the reader waits for. -/
inductive Stage where
  /-- The start of a datum, or the end of the innermost construct. -/
  | datum (stack : List Opened)
  /-- The closing parenthesis after a dotted tail. -/
  | closing (shape : Shape) (read : List Datum) (tail : Datum) (outer : List Opened)

/-- The answer of a reader. -/
inductive Reading where
  | datum (d : Datum)
  | endOfInput
  | failed (cause : Failure)
  | cutShort

/-- Reading goes on, or has an answer. -/
inductive Progress where
  | more (stage : Stage)
  | done (reading : Reading)

namespace Stage

/-- Hands a finished datum to the construct it stands in. -/
def deliver (d : Datum) : List Opened → Progress
  | [] => .done (.datum d)
  | .items shape read :: outer => .more (.datum (.items shape (d :: read) :: outer))
  | .tail shape read :: outer => .more (.closing shape read d outer)
  | .abbreviated head :: outer => deliver (.list [.symbol head, d]) outer

/-- Ends a list or a vector. A vector takes the elements of a proper list only. -/
def finish (shape : Shape) (read : List Datum) (tail : Datum) (outer : List Opened) : Progress :=
  let whole := Datum.listStar read.reverse tail
  match shape with
  | .list => deliver whole outer
  | .vector =>
    match whole.elements? with
    | some elements => deliver (.vector elements) outer
    | none => .done (.failed (.wrongKind .properList (whole.text .written)))

/-- A token where a datum may start. Inside a list a closing parenthesis and a dot have their
meaning; elsewhere they are passed over. -/
def start (stack : List Opened) (token : Token) : Progress × List Entry :=
  match token with
  | .opening => (.more (.datum (.items .list [] :: stack)), [])
  | .vectorOpening => (.more (.datum (.items .vector [] :: stack)), [])
  | .quote => (.more (.datum (.abbreviated .quote :: stack)), [])
  | .backquote => (.more (.datum (.abbreviated .quasiquote :: stack)), [])
  | .comma => (.more (.datum (.abbreviated .unquote :: stack)), [])
  | .commaAt => (.more (.datum (.abbreviated .unquoteSplicing :: stack)), [])
  | .boolean value => (deliver (.boolean value) stack, [])
  | .number value => (deliver (.number value) stack, [])
  | .character value => (deliver (.character value) stack, [])
  | .string value => (deliver (.string value) stack, [])
  | .symbol value => (deliver (.symbol value) stack, [])
  | .closing =>
    match stack with
    | .items shape read :: outer => (finish shape read .nil outer, [])
    | _ => (.more (.datum stack), [.strayClosing])
  | .dot =>
    match stack with
    | .items shape read :: outer => (.more (.datum (.tail shape read :: outer)), [])
    | _ => (.more (.datum stack), [.strayDot])
  | .endOfInput =>
    match stack with
    | [] => (.done .endOfInput, [])
    | _ => (.done .cutShort, [])

/-- A token after a dotted tail. Any other than a closing parenthesis ends the list all the same
and is taken back. -/
def close (shape : Shape) (read : List Datum) (tail : Datum) (outer : List Opened)
    (token : Token) : Progress × Option Token × List Entry :=
  match token with
  | .closing => (finish shape read tail outer, none, [])
  | .endOfInput => (.done .cutShort, none, [])
  | token => (finish shape read tail outer, some token, [.missingClosing token])

/-- What one token brings: the next stage or an answer, a token taken back, and entries. -/
def absorb (stage : Stage) (token : Token) : Progress × Option Token × List Entry :=
  match stage with
  | .datum stack =>
    let (progress, entries) := start stack token
    (progress, none, entries)
  | .closing shape read tail outer => close shape read tail outer token

end Stage

/-- The entry that reports an answer. -/
def Reading.entries : Reading → List Entry
  | .failed cause => [.failure cause]
  | .cutShort => [.readCutShort]
  | _ => []

structure Reader where
  cursor : Cursor
  pushed : Option Token := none

namespace Reader

def ofText (text : List Char) : Reader :=
  { cursor := .ofText text }

def ofBytes (bytes : List UInt8) : Reader :=
  { cursor := .ofBytes bytes }

def isClosed (r : Reader) : Bool :=
  r.cursor.isClosed

def close (r : Reader) : Reader :=
  { cursor := r.cursor.close }

def report (r : Reader) (entries : List Entry) : Reader :=
  { r with cursor := { r.cursor with entries := r.cursor.entries ++ entries } }

/-- The entries not reported yet, and the reader without them. -/
def drain (r : Reader) : List Entry × Reader :=
  (r.cursor.entries, { r with cursor := { r.cursor with entries := [] } })

def token (r : Reader) : Token × Reader :=
  match r.pushed with
  | some token => (token, { r with pushed := none })
  | none =>
    let (token, cursor) := r.cursor.token
    (token, { r with cursor })

/-- Reads tokens until there is an answer. Every turn uses up a token or ends a construct that a
token opened, so a budget that starts as `Reader.budget` is never used up. -/
def assemble : Nat → Stage → Reader → Reading × Reader
  | 0, _, r => (.endOfInput, r)
  | budget + 1, stage, r =>
    let (token, r) := r.token
    let (progress, back, entries) := stage.absorb token
    let r := { r.report entries with pushed := back }
    match progress with
    | .more stage => assemble budget stage r
    | .done reading => (reading, r.report reading.entries)

def budget (r : Reader) : Nat :=
  2 * r.cursor.upcoming.length + 8

/-- The next datum. -/
def read (r : Reader) : Reading × Reader :=
  assemble r.budget (.datum []) r

/-- The next character, past any token that was taken back. -/
def readChar (r : Reader) : Option Char × Reader :=
  let (answer, cursor) := r.cursor.next
  (answer, { r with cursor })

def peekChar (r : Reader) : Option Char × Reader :=
  let (answer, cursor) := r.cursor.peek
  (answer, { r with cursor })

/-- All data up to the end or the first that cannot be read, at most `bound` of them. -/
def readAllWithin : Nat → Reader → List Datum × Reading × Reader
  | 0, r => ([], .endOfInput, r)
  | bound + 1, r =>
    match r.read with
    | (.datum d, r) =>
      let (data, last, r) := readAllWithin bound r
      (d :: data, last, r)
    | (last, r) => ([], last, r)

/-- All data up to the end or the first that cannot be read. -/
def readAll (r : Reader) : List Datum × Reading × Reader :=
  readAllWithin r.budget r

end Reader

end Scheme
