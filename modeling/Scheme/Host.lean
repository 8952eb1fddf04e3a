import Scheme.Cursor
import Scheme.Files
/-!
# The host

What lies outside the interpreter: named files, the console, a clock and a memory counter. Which
operations fail, and with what reason, is up to the host's rules.
-/

namespace Scheme

/-- How a host treats the names of files. A name leads to a place or is refused for a reason. -/
structure Rules where
  find : Files → String → Except String String
  create : Files → String → Except String String
  /-- Why a file at a place cannot be written. -/
  write : String → Option String
  /-- Why what was written cannot be made permanent. -/
  flush : String → Option String
  /-- Whether all writing goes to the end of a file. Otherwise it goes on where the same port
  stopped. -/
  appends : Bool
  /-- Whether a port that is open for reading sees later changes of its file. -/
  live : Bool

structure Host where
  rules : Rules
  files : Files := {}
  /-- The places of the files opened for writing so far. -/
  created : List String := []
  /-- Standard input. -/
  input : List Event := []
  /-- What was written to the console. -/
  console : String := ""
  complaints : String := ""
  /-- The names asked for so far. -/
  wanted : List String := []
  /-- The codes of all exits. -/
  exits : List Int := []
  clockReadings : Nat := 0
  memoryReadings : Nat := 0

/-- Rules under which the name of a file says what goes wrong with it. -/
def Rules.byName : Rules where
  find files name := if files.contains name then .ok name else .error "no such file"
  create _ name := if name.startsWith "bad:" then .error "permission denied" else .ok name
  write place := if place.startsWith "full:" then some "no space left" else none
  flush place := if place.startsWith "noflush:" then some "flush failed" else none
  appends := true
  live := false

/-- Where an output port writes. -/
inductive Sink where
  | console
  | complaints
  /-- The file at a place, after so many bytes. -/
  | file (place : String) (position : Nat)

namespace Host

/-- Remembers a name that was asked for. -/
def want (host : Host) (name : String) : Host :=
  if host.wanted.contains name then host else { host with wanted := host.wanted ++ [name] }

/-- What can be read at a place as it is now. -/
def bytesAt (host : Host) (place : String) : List UInt8 :=
  match host.files[place]? with
  | some node => node.content.toList
  | none => []

/-- The place of a file with its content as it is now. -/
def openInput (host : Host) (name : String) : Except String (String × List UInt8) := do
  let place ← host.rules.find host.files name
  pure (place, host.bytesAt place)

/-- Makes a file empty; devices stay as they are. -/
def openOutput (host : Host) (name : String) : Except String (Sink × Host) := do
  let place ← host.rules.create host.files name
  match host.files[place]? with
  | some (.device _) => pure (.file place 0, host)
  | some (.console complaints) => pure (if complaints then .complaints else .console, host)
  | _ =>
    let created := if host.created.contains place then host.created else host.created ++ [place]
    pure (.file place 0, { host with files := host.files.insert place (.file .empty), created })

/-- Writes to what stands at a place. -/
def writeFile (host : Host) (place : String) (position : Nat) (bytes : ByteArray) : Host :=
  let appends := host.rules.appends
  { host with files := host.files.modify place fun
      | .file content =>
        .file (if appends then content ++ bytes else overwrite content position bytes)
      | node => node }

/-- The reason why bytes cannot be written at a place. To write none is always possible, unless
the place is a device that has refused bytes before. -/
def refusal? (host : Host) (place : String) (position : Nat) (bytes : ByteArray) : Option String :=
  let byRule := if bytes.isEmpty then none else host.rules.write place
  let byNode :=
    if bytes.isEmpty && position = 0 then none else (host.files[place]?).bind Node.refusal?
  byRule.or byNode

/-- The reason why a flush fails. -/
def flush (host : Host) : Sink → Option String
  | .console | .complaints => none
  | .file place _ => host.rules.flush place

/-- Writes a text and flushes. A refused text leaves no trace. -/
def write (host : Host) (sink : Sink) (text : String) : Option String × Sink × Host :=
  match sink with
  | .console => (none, sink, { host with console := host.console ++ text })
  | .complaints => (none, sink, { host with complaints := host.complaints ++ text })
  | .file place position =>
    let bytes := text.toUTF8
    let next := .file place (position + bytes.size)
    match host.refusal? place position bytes with
    | some reason => (some reason, next, host)
    | none =>
      let host := host.writeFile place position bytes
      (host.flush sink, next, host)

def exit (host : Host) (code : Int) : Host :=
  { host with exits := host.exits ++ [code] }

/-- The time in microseconds; the n-th reading is `2500 · n²`. -/
def readClock (host : Host) : Nat × Host :=
  let n := host.clockReadings + 1
  (2500 * n * n, { host with clockReadings := n })

/-- The bytes allocated; the n-th reading is `64 · n`. -/
def readMemory (host : Host) : Nat × Host :=
  let n := host.memoryReadings + 1
  (64 * n, { host with memoryReadings := n })

end Host

end Scheme
