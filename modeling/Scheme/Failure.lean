import Scheme.Symbol
import Scheme.Number.Numeral
/-!
# Failures

The causes for which evaluation fails, with the message of each, and the ways in which an
evaluation is cut short.
-/

namespace Scheme

/-- What an argument was expected to be. -/
inductive Expected where
  | number
  | character
  | symbol
  | string
  | vector
  | pair
  | inputPort
  | outputPort
  | properList
  | index
deriving DecidableEq

def Expected.phrase : Expected → String
  | .number => "a number"
  | .character => "a character"
  | .symbol => "a symbol"
  | .string => "a string"
  | .vector => "a vector"
  | .pair => "a pair"
  | .inputPort => "an input port"
  | .outputPort => "an output port"
  | .properList => "a proper list"
  | .index => "a non-negative integer"

/-- Why an evaluation failed. Values that a message shows are kept as their written text. -/
inductive Failure where
  | wrongKind (expected : Expected) (given : String)
  | unbound (name : Symbol)
  | tooDeep (limit : Nat)
  | illegalArguments (operands : String)
  | notProcedure (given : String)
  | spentContinuation (given : String)
  | badParameters (given : String)
  | tooFewArguments (count : Nat) (procedure : String) (arguments : String)
  | tooManyArguments (count : Nat) (procedure : String) (arguments : String)
  | circularLength
  | divisionByZero (dividend divisor : Float)
  | noNumeral (number : Float) (radix : Nat)
  | noCharacter (code : String)
  | lengthTooLarge (procedure : String) (length : String)
  | outOfRange (position length : Nat)
  | badRange (start stop : Nat) (text : String)
  | cannotLoad (path reason : String)
  | cannotRead (path reason : String)
  | cannotWrite (path reason : String)
  | inputClosed
  | outputClosed
  | writeFailed (reason : String)
  | raised (message : String)

def Failure.message : Failure → String
  | .wrongKind expected given => "expected " ++ expected.phrase ++ ", got: " ++ given
  | .unbound name => "Unbound variable: " ++ name.name
  | .tooDeep limit => "Recursion too deep: more than " ++ toString limit ++ " nested evaluations"
  | .illegalArguments operands => "Illegal argument list: " ++ operands
  | .notProcedure given => "Not a procedure: " ++ given
  | .spentContinuation given => "Continuation invoked after its extent ended: " ++ given
  | .badParameters given => "Bad parameter list: " ++ given
  | .tooFewArguments count procedure arguments =>
    "too few args, " ++ toString count ++ ", for " ++ procedure ++ ": " ++ arguments
  | .tooManyArguments count procedure arguments =>
    "too many args, " ++ toString count ++ ", for " ++ procedure ++ ": " ++ arguments
  | .circularLength => "length: circular list"
  | .divisionByZero dividend divisor =>
    "Division by zero: " ++ Number.toText dividend ++ " by " ++ Number.toText divisor
  | .noNumeral number radix =>
    "number->string: can't print " ++ Number.toText number ++ " in base " ++ toString radix
  | .noCharacter code => "integer->char: no character with code " ++ code
  | .lengthTooLarge procedure length => procedure ++ ": length too large: " ++ length
  | .outOfRange position length =>
    "Index " ++ toString position ++ " out of range for length " ++ toString length
  | .badRange start stop text =>
    "substring: bad range " ++ toString start ++ " to " ++ toString stop ++ " of " ++ text
  | .cannotLoad path reason => "can't load " ++ path ++ ": " ++ reason
  | .cannotRead path reason => "can't open " ++ path ++ " for reading: " ++ reason
  | .cannotWrite path reason => "can't open " ++ path ++ " for writing: " ++ reason
  | .inputClosed => "Input port is closed"
  | .outputClosed => "Output port is closed"
  | .writeFailed reason => "Error writing to port: " ++ reason
  | .raised message => message

/-- What unwinds an evaluation. -/
inductive Fault where
  | failed (cause : Failure)
  /-- The input ended in the middle of a datum. -/
  | cutShort
  /-- A continuation was invoked; the activation that issued the token answers. -/
  | escape (token : Nat)
  | exit (code : Int)

def Fault.message : Fault → String
  | .failed cause => cause.message
  | .cutShort => "EOF during read"
  | .escape token => "continuation " ++ toString token ++ " escaped its extent"
  | .exit code => "exit with code " ++ toString code

/-- What stops the whole machine, with nothing unwound. -/
inductive Trap where
  /-- A remainder by NaN, whose 64-bit value is zero. -/
  | zeroDivisor
  /-- A quotient that does not fit into 64 bits. -/
  | overflow
  /-- A message about an element's index shows the very container being written. -/
  | selfShown
  /-- A traversal that never ends. -/
  | endless
  /-- An erasure that would cut a character in two. -/
  | splitCharacter
deriving DecidableEq

end Scheme
