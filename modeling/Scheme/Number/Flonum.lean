import Scheme.Number.Binary
/-!
# Flonums

The numbers of the language: doubles, where a NaN has a sign. The sign never shows in the text of
a NaN and plays no part in comparisons of numbers, but it makes two numbers different objects.
-/

namespace Scheme

inductive Flonum where
  /-- A double; NaN stands for the one with a clear sign bit. -/
  | float (value : Float)
  /-- NaN with its sign bit set. -/
  | negativeNaN
deriving DecidableEq

namespace Flonum

def nan : Float := 0 / 0

/-- The double, with the sign of a NaN forgotten. -/
@[inline]
def toFloat : Flonum → Float
  | .float value => value
  | .negativeNaN => nan

def ofNat (n : Nat) : Flonum :=
  .float (Float.ofNat n)

def ofInt64 (n : Int64) : Flonum :=
  .float (Number.ofInt64 n)

def isNaN (x : Flonum) : Bool :=
  x.toFloat.isNaN

/-- The number with the other sign; also a NaN changes its sign. -/
def neg : Flonum → Flonum
  | .float value => if value.isNaN then .negativeNaN else .float (-value)
  | .negativeNaN => .float nan

/-- The number without its sign. -/
def abs (x : Flonum) : Flonum :=
  .float x.toFloat.abs

/-- A function of one number. A NaN goes through it; if it is undefined elsewhere, the result is
`undefined`. -/
@[inline]
def map (f : Float → Float) (x : Flonum) (undefined : Flonum := .negativeNaN) : Flonum :=
  let y := f x.toFloat
  if y.isNaN then if x.isNaN then x else undefined else .float y

/-- A function of two numbers. If its result is NaN, that is the first NaN among the numbers, and
negative if there is none. -/
@[inline]
def map₂ (f : Float → Float → Float) (x y : Flonum) : Flonum :=
  let z := f x.toFloat y.toFloat
  if z.isNaN then if x.isNaN then x else if y.isNaN then y else .negativeNaN else .float z

end Flonum

end Scheme
