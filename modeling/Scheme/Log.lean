import Scheme.Failure
import Scheme.Token
/-!
# Log entries

Everything the interpreter reports besides its answers.
-/

namespace Scheme

inductive Level where
  | error
  | warn
  | info
  | debug
deriving DecidableEq

def Level.word : Level → String
  | .error => "error"
  | .warn => "warn"
  | .info => "info"
  | .debug => "debug"

inductive Entry where
  | failure (cause : Failure)
  | readCutShort
  | undecodableLine
  | unclosedString
  | ignoredRadix (mark : Char)
  | ignoredHash (mark : Char)
  | hashAtEnd
  | characterCutShort
  | unknownCharacter (name : List Char) (taken : Char)
  | strayClosing
  | strayDot
  | missingClosing (found : Token)
  | argumentCount (parameters arguments : String)
  | flushFailed (reason : String)
  | loading (path : String)
  | expanded (name : Option Symbol) (form : String)

namespace Entry

def level : Entry → Level
  | .failure _ | .readCutShort => .error
  | .loading _ => .info
  | .expanded _ _ => .debug
  | _ => .warn

def text : Entry → String
  | .failure cause => cause.message
  | .readCutShort => "EOF during read."
  | .undecodableLine =>
    "Error reading input, treating it as end of file: stream did not contain valid UTF-8"
  | .unclosedString => "EOF inside of a string."
  | .ignoredRadix mark => "#" ++ mark.toString ++ " not implemented, ignored."
  | .ignoredHash mark => "#" ++ mark.toString ++ " not recognized, ignored."
  | .hashAtEnd => "# at end of input, ignored."
  | .characterCutShort => "EOF in character literal."
  | .unknownCharacter name taken =>
    "Unknown character name #\\" ++ String.ofList name ++ ", read as #\\" ++ taken.toString ++ "."
  | .strayClosing => "Extra ) ignored."
  | .strayDot => "Extra . ignored."
  | .missingClosing found => "Where's the ')'? Got " ++ found.logText ++ " after ."
  | .argumentCount parameters arguments =>
    "Wrong number of arguments: expected " ++ parameters ++ " got " ++ arguments
  | .flushFailed reason => "Error flushing port on close: " ++ reason
  | .loading path => "Loading " ++ path
  | .expanded name form =>
    let shown :=
      match name with
      | some name => "Some(Symbol(" ++ name.name ++ "))"
      | none => "None"
    "Expanded " ++ shown ++ " into " ++ form

/-- The entry as a line of the log. -/
def line (entry : Entry) : String :=
  entry.level.word ++ ": " ++ entry.text

end Entry

end Scheme
