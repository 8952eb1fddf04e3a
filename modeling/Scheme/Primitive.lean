import Scheme.Number.Binary
/-!
# Primitive procedures

What a primitive procedure does is an operation; its name and the number of arguments it takes
are the rest of it.
-/

namespace Scheme

/-- The order relations. -/
inductive Relation where
  | lt
  | le
  | eq
  | ge
  | gt
deriving DecidableEq

/-- Whether the relation admits an outcome of a comparison. -/
def Relation.admits : Relation → Ordering → Bool
  | .lt, o => o == .lt
  | .le, o => o != .gt
  | .eq, o => o == .eq
  | .ge, o => o != .lt
  | .gt, o => o == .gt

/-- The three notions of sameness: the same object, the same up to the sign of zero, and the same
structure. -/
inductive Sameness where
  | eq
  | eqv
  | equal
deriving DecidableEq

/-- Kinds of values that a predicate tells apart. -/
inductive Kind where
  | null
  | pair
  | symbol
  | number
  | boolean
  | character
  | string
  | vector
  | endOfFile
  | inputPort
  | outputPort
  | procedure
deriving DecidableEq

/-- The two fields of a pair. -/
inductive Side where
  | first
  | rest
deriving DecidableEq

inductive ListOperation where
  /-- Follows fields, the head of the list first. -/
  | path (sides : List Side)
  | set (side : Side)
  | cons
  | list
  /-- A list whose tail is the last argument. -/
  | listStar
  | isList
  | length
  | append
  | reverse
  | tail
  | element
  | member (sameness : Sameness)
  | association (sameness : Sameness)
deriving DecidableEq

/-- Functions of analysis, as the floating-point library computes them. -/
inductive Analytic where
  | exp
  | log
  | sin
  | cos
  | tan
  | asin
  | acos
  | sqrt
deriving DecidableEq

inductive NumberOperation where
  | compare (relation : Relation)
  | add
  | multiply
  | subtract
  | divide
  | quotient
  | remainder
  | modulo
  | max
  | min
  | abs
  | round (mode : Number.Rounding)
  | function (f : Analytic)
  | atan
  | expt
  | gcd
  | lcm
  | isExact
  | isInexact
  | isZero
  | isPositive
  | isNegative
  | isOdd
  | isEven
  | toText
  | ofText
deriving DecidableEq

inductive CharacterOperation where
  | compare (relation : Relation) (foldCase : Bool)
  | isAlphabetic
  | isNumeric
  | isBlank
  | isUpper
  | isLower
  | toCode
  | ofCode
  | upcase
  | downcase
deriving DecidableEq

inductive StringOperation where
  | compare (relation : Relation) (foldCase : Bool)
  | make
  | ofCharacters
  | length
  | get
  | set
  | substring
  | append
  | toList
  | ofList
  | ofSymbol
  | toSymbol
deriving DecidableEq

inductive VectorOperation where
  | make
  | ofElements
  | length
  | get
  | set
  | toList
  | ofList
deriving DecidableEq

inductive PortOperation where
  | currentInput
  | currentOutput
  | openInput
  | openOutput
  | closeInput
  | closeOutput
  | read
  | readChar
  | peekChar
  | write
  | display
  | newline
deriving DecidableEq

/-- Operations that answer at once. -/
inductive DirectOperation where
  | not
  | test (kind : Kind)
  | same (sameness : Sameness)
  | error
  | exit
  | list (operation : ListOperation)
  | number (operation : NumberOperation)
  | character (operation : CharacterOperation)
  | string (operation : StringOperation)
  | vector (operation : VectorOperation)
  | port (operation : PortOperation)
deriving DecidableEq

/-- Operations that go on with evaluations of their own. -/
inductive ControlOperation where
  | apply
  | map
  | forEach
  | callWithContinuation
  | force
  | eval
  | expand
  | timeCall
  | callWithInput
  | callWithOutput
  | load
deriving DecidableEq

inductive Operation where
  | direct (operation : DirectOperation)
  | control (operation : ControlOperation)
deriving DecidableEq

structure Primitive where
  name : String
  operation : Operation
  least : Nat
  /-- `none` where any number of arguments will do. -/
  most : Option Nat
deriving DecidableEq

end Scheme
