import Scheme.Path
import Scheme.Session
/-!
# The command line

A run of a command as a function of its arguments, its environment, its input and the files it
finds.
-/

namespace Scheme.CommandLine

structure Options where
  /-- Starts a session after the files were loaded. -/
  interactive : Bool := false
  /-- Reads data instead of lines in a session. -/
  plain : Bool := false
  files : List String := []

def Options.add (options : Options) (argument : String) : Options :=
  if argument = "-i" then { options with interactive := true }
  else if argument = "--plain" then { options with plain := true }
  else { options with files := options.files ++ [argument] }

def Options.ofArguments (arguments : List String) : Options :=
  arguments.foldl Options.add {}

structure Invocation where
  arguments : List String
  environment : List (String × String)
  input : List UInt8
  /-- The current directory. -/
  directory : Place
  files : Files

structure Report where
  code : Nat
  output : String
  errors : String
  /-- The files written, with their contents. -/
  files : List (String × ByteArray) := []
  /-- The paths that were asked for. -/
  wanted : List String := []

/-- Files are found by paths. -/
def pathRules (directory : Place) : Rules where
  find files path := ((Path.existing files directory path).map Place.path).mapError Obstacle.reason
  create files path := ((Path.writable files directory path).map Place.path).mapError Obstacle.reason
  write _ := none
  flush _ := none
  appends := false
  live := true

def trimBlanks (text : List Char) : List Char :=
  ((text.dropWhile Text.isBlank).reverse.dropWhile Text.isBlank).reverse

/-- The number in an environment variable: digits after an optional plus sign, between blanks, at
most `Number.maxIndex`. -/
def numberIn (text : String) : Option Nat :=
  let digits :=
    match trimBlanks text.toList with
    | '+' :: digits => digits
    | digits => digits
  if !digits.isEmpty && digits.all Char.isDigit then
    let n := Number.ofDigits digits
    if n ≤ Number.maxIndex then some n else none
  else none

namespace Invocation

def setting? (invocation : Invocation) (name : String) : Option String :=
  invocation.environment.lookup name

def host (invocation : Invocation) : Host :=
  { rules := pathRules invocation.directory
    files := invocation.files
    input := Event.ofBytes invocation.input }

/-- Terminals without line editing. -/
def isSimpleTerminal (invocation : Invocation) : Bool :=
  match invocation.setting? "TERM" with
  | some name => ["dumb", "cons25", "emacs"].contains (name.map Char.toLower)
  | none => false

def start (invocation : Invocation) : World :=
  let w := World.new invocation.host
  match (invocation.setting? "SCHEME_MAX_DEPTH").bind numberIn with
  | some limit => { w with maxDepth := limit }
  | none => w

/-- A file that was written, with what it holds. -/
def written? (host : Host) (path : String) : Option (String × ByteArray) :=
  (host.files[path]?).map fun node => (path, node.content)

def report (code : Nat) (errors : String) (w : World) : Report :=
  { code
    output := w.host.console
    errors := w.host.complaints ++ errors
    files := w.host.created.filterMap (written? w.host)
    wanted := w.host.wanted }

/-- The exit status of a fault, and its message unless it is an exit. -/
def reportFault (f : Fault) (w : World) : Report :=
  match f with
  | .exit code => report (code % 256).toNat "" w
  | f => report 1 ("Error: " ++ f.message ++ "\n") w

/-- The status of a run that did not answer. -/
def abortStatus : Nat := 101

def reportOutcome (outcome : Outcome) (w : World) : Report :=
  match outcome with
  | .value _ => report 0 "" w
  | .fault f => reportFault f w
  | _ => report abortStatus "" w

/-- Loads files in order, up to the first that fails. -/
def loadAll : List String → World → Outcome × World
  | [], w => (.value .nil, w)
  | path :: paths, w =>
    match w.load path with
    | (.value _, w) => loadAll paths w
    | other => other

/-- Loads the files named by the arguments. Without any, or if it is asked for, a session
follows. -/
def run (invocation : Invocation) : Report :=
  let options := Options.ofArguments invocation.arguments
  match loadAll options.files invocation.start with
  | (.value _, w) =>
    if !options.files.isEmpty && !options.interactive then report 0 "" w
    else
      let (outcome, w) :=
        if options.plain then w.converse
        else
          let intake : Intake := { rest := invocation.input }
          let (intake, w) := w.reclaim intake intake.lines
          w.converseByLine invocation.isSimpleTerminal intake []
      reportOutcome outcome w
  | (outcome, w) => reportOutcome outcome w

/-- The megabytes of stack that no machine has. -/
def stackBound : Nat := 1 <<< 27

/-- Whether there is room for a stack of the size asked for. Sizes are counted modulo the number of
addresses. -/
def hasStack (invocation : Invocation) : Bool :=
  match (invocation.setting? "SCHEME_STACK_MB").bind numberIn with
  | some megabytes => megabytes % (1 <<< 44) < stackBound
  | none => true

/-- Runs if there is room for it. -/
def interpret (invocation : Invocation) : Report :=
  if invocation.hasStack then invocation.run
  else
    { code := 1
      output := ""
      errors := "Unable to start the interpreter thread: " ++
        "Resource temporarily unavailable (os error 11)\n" }

/-- Reads data from the input and writes each on a line of its own. -/
def echo (invocation : Invocation) : Report :=
  let (data, last, _) := (Reader.ofBytes invocation.input).readAll
  let lines := data.map fun d => d.text .written ++ "\n"
  let complaint :=
    match last with
    | .failed cause => ["Invalid datum: " ++ cause.message ++ "\n"]
    | .cutShort => ["Invalid datum: " ++ Fault.cutShort.message ++ "\n"]
    | _ => []
  { code := 0, output := String.join (lines ++ complaint), errors := "" }

end Invocation

end Scheme.CommandLine
