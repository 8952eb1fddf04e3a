import Scheme.Number.Flonum
import Scheme.Primitive
import Scheme.Symbol
/-!
# Values

Atoms are values themselves; everything that can be changed or shared is a reference into the
heap. Propositional equality of values is `eq?`.
-/

namespace Scheme

/-- What a reference refers to. -/
inductive Cell where
  | pair
  | string
  | vector
  | scope
  | closure
  | continuation
  | inputPort
  | outputPort

/-- A reference to a cell of a given kind. -/
structure Ref (cell : Cell) where
  index : Nat
deriving DecidableEq

inductive Value where
  | nil
  | boolean (value : Bool)
  | number (value : Flonum)
  | character (value : Char)
  | symbol (value : Symbol)
  | string (ref : Ref .string)
  | vector (ref : Ref .vector)
  | pair (ref : Ref .pair)
  | primitive (value : Primitive)
  | closure (ref : Ref .closure)
  /-- A procedure that is applied to unevaluated operands. -/
  | transformer (ref : Ref .closure)
  | continuation (ref : Ref .continuation)
  | inputPort (ref : Ref .inputPort)
  | outputPort (ref : Ref .outputPort)
  | endOfFile
deriving DecidableEq

namespace Value

/-- Everything but false counts as true. -/
def isTrue : Value → Bool
  | .boolean false => false
  | _ => true

def isPair : Value → Bool
  | .pair _ => true
  | _ => false

def isNil : Value → Bool
  | .nil => true
  | _ => false

def isProcedure : Value → Bool
  | .primitive _ | .closure _ | .transformer _ | .continuation _ => true
  | _ => false

/-- Whether a value is of a kind. -/
def isOf (v : Value) (kind : Kind) : Bool :=
  match kind, v with
  | .null, .nil => true
  | .pair, .pair _ => true
  | .symbol, .symbol _ => true
  | .number, .number _ => true
  | .boolean, .boolean _ => true
  | .character, .character _ => true
  | .string, .string _ => true
  | .vector, .vector _ => true
  | .endOfFile, .endOfFile => true
  | .inputPort, .inputPort _ => true
  | .outputPort, .outputPort _ => true
  | .procedure, v => v.isProcedure
  | _, _ => false

/-- Numbers are compared as numbers, everything else by identity. -/
def eqv : Value → Value → Bool
  | .number x, .number y => x.toFloat == y.toFloat
  | a, b => a = b

end Value

end Scheme
