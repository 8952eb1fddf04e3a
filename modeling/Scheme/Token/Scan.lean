import Scheme.Cursor
import Scheme.Text.Alphabetic
import Scheme.Text.Blank
import Scheme.Text.Case
/-!
# Scanning tokens

Malformed text is reported and passed over, so that scanning stops only at the end of file.
-/

namespace Scheme

/-- Characters that end a name. The end of file ends it too. -/
def isDelimiter (c : Char) : Bool :=
  Text.isBlank c || c == '(' || c == ')' || c == '\x27' || c == ';' || c == '\x22' || c == ',' ||
    c == '\x60'

/-- Characters a number starts with. -/
def startsNumber (c : Char) : Bool :=
  c.isDigit || c == '+' || c == '-' || c == '.'

/-- A token with what is left of the source after it. -/
structure Scanned where
  token : Token
  pushed : Option (Option Char) := none
  rest : List Event
  entries : List Entry := []

namespace Scanned

/-- The same after some entries have been reported. -/
def after (entries : List Entry) (s : Scanned) : Scanned :=
  { s with entries := entries ++ s.entries }

/-- The characters up to a delimiter, which is taken back, after those in `read`. -/
structure Name where
  chars : List Char
  delimiter : Option Char
  rest : List Event
  entries : List Entry := []

def Name.scan (read : List Char) : List Event → Name
  | [] => { chars := read.reverse, delimiter := none, rest := [] }
  | .undecodable :: rest =>
    { chars := read.reverse, delimiter := none, rest, entries := [.undecodableLine] }
  | .char c :: rest =>
    if isDelimiter c then { chars := read.reverse, delimiter := some c, rest }
    else Name.scan (c :: read) rest

/-- The token that a name turned out to be. -/
def Name.toScanned (name : Name) (token : Token) : Scanned :=
  { token, pushed := some name.delimiter, rest := name.rest, entries := name.entries }

/-- The token spelled by a name. -/
def atomOf (first : Char) (chars : List Char) : Token :=
  if chars = ['.'] then .dot
  else
    match if startsNumber first then Number.parse? chars else none with
    | some n => .number n
    | none => .symbol ⟨String.ofList (Text.lowercase chars)⟩

/-- An atom whose first character has been read. -/
def atom (first : Char) (rest : List Event) : Scanned :=
  let name := Name.scan [first] rest
  name.toScanned (atomOf first name.chars)

/-- The character with a given name of several characters. -/
def characterNamed? (chars : List Char) : Option Char :=
  let lowered := Text.lowercase chars
  if lowered = "space".toList then some ' '
  else if lowered = "newline".toList then some '\n'
  else none

/-- A character literal after its backslash. -/
def character : List Event → Scanned
  | [] => { token := .endOfInput, rest := [], entries := [.characterCutShort] }
  | .undecodable :: rest =>
    { token := .endOfInput, rest, entries := [.undecodableLine, .characterCutShort] }
  | .char first :: rest =>
    if Text.isAlphabetic first then
      let name := Name.scan [first] rest
      if name.chars = [first] then name.toScanned (.character first)
      else
        match characterNamed? name.chars with
        | some c => name.toScanned (.character c)
        | none =>
          { name.toScanned (.character first) with
            entries := name.entries ++ [.unknownCharacter name.chars first] }
    else { token := .character first, rest }

/-- A string literal after its opening quote; `read` holds its characters in reverse. -/
def string (read : List Char) (escaped : Bool) : List Event → Scanned
  | [] => { token := .string read.reverse, rest := [], entries := [.unclosedString] }
  | .undecodable :: rest =>
    { token := .string read.reverse, rest, entries := [.undecodableLine, .unclosedString] }
  | .char c :: rest =>
    if escaped then string (c :: read) false rest
    else if c = '\x22' then { token := .string read.reverse, rest }
    else if c = '\\' then string read true rest
    else string (c :: read) false rest

/-- A comma, or a comma followed by an at sign. -/
def comma : List Event → Scanned
  | [] => { token := .comma, pushed := some none, rest := [] }
  | .undecodable :: rest =>
    { token := .comma, pushed := some none, rest, entries := [.undecodableLine] }
  | .char c :: rest =>
    if c = '@' then { token := .commaAt, rest } else { token := .comma, pushed := some (some c), rest }

end Scanned

/-- What a character after `#` means. -/
inductive HashMark where
  | boolean (value : Bool)
  | vector
  | character
  /-- Exactness and decimal marks, which say nothing here. -/
  | void
  | radix
  | unknown

def HashMark.ofChar (c : Char) : HashMark :=
  if c = 't' ∨ c = 'T' then .boolean true
  else if c = 'f' ∨ c = 'F' then .boolean false
  else if c = '(' then .vector
  else if c = '\\' then .character
  else if c = 'e' ∨ c = 'E' ∨ c = 'i' ∨ c = 'I' ∨ c = 'd' ∨ c = 'D' then .void
  else if c = 'b' ∨ c = 'B' ∨ c = 'o' ∨ c = 'O' ∨ c = 'x' ∨ c = 'X' then .radix
  else .unknown

/-- Where the scanner stands before a token. -/
inductive ScanMode where
  | between
  | comment
  | hash

/-- The next token of a list of events. -/
def scan (mode : ScanMode) : List Event → Scanned
  | [] =>
    match mode with
    | .hash => { token := .endOfInput, rest := [], entries := [.hashAtEnd] }
    | _ => { token := .endOfInput, rest := [] }
  | .undecodable :: rest =>
    match mode with
    | .hash => (scan .between rest).after [.undecodableLine, .hashAtEnd]
    | _ => { token := .endOfInput, rest, entries := [.undecodableLine] }
  | .char c :: rest =>
    match mode with
    | .comment => if c = '\n' ∨ c = '\r' then scan .between rest else scan .comment rest
    | .hash =>
      match HashMark.ofChar c with
      | .boolean value => { token := .boolean value, rest }
      | .vector => { token := .vectorOpening, rest }
      | .character => Scanned.character rest
      | .void => scan .between rest
      | .radix => (scan .between rest).after [.ignoredRadix c]
      | .unknown => (scan .between rest).after [.ignoredHash c]
    | .between =>
      if Text.isBlank c then scan .between rest
      else if c = ';' then scan .comment rest
      else if c = '#' then scan .hash rest
      else if c = '(' then { token := .opening, rest }
      else if c = ')' then { token := .closing, rest }
      else if c = '\x27' then { token := .quote, rest }
      else if c = '\x60' then { token := .backquote, rest }
      else if c = ',' then Scanned.comma rest
      else if c = '\x22' then Scanned.string [] false rest
      else Scanned.atom c rest

/-- The next token at a cursor. -/
def Cursor.token (c : Cursor) : Token × Cursor :=
  match c.pushed with
  | some none => (.endOfInput, { c with pushed := none })
  | some (some char) => settle (scan .between (.char char :: c.upcoming))
  | none => settle (scan .between c.upcoming)
where
  /-- The cursor after a scanned token. -/
  settle (s : Scanned) : Token × Cursor :=
    (s.token, { c with upcoming := s.rest, pushed := s.pushed, entries := c.entries ++ s.entries })

end Scheme
