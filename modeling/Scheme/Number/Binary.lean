/-!
# Doubles as exact numbers

A double is taken apart into sign, significand and exponent; rounding to whole numbers and
conversion to machine integers are exact integer arithmetic on these.
-/

namespace Scheme.Number

/-- What a double stands for; a finite one is `± significand · 2 ^ exponent`. -/
inductive Binary where
  | nan
  | infinite (negative : Bool)
  | finite (negative : Bool) (significand : Nat) (exponent : Int)

def Binary.ofFloat (x : Float) : Binary :=
  let bits := x.toBits
  let negative := bits >>> 63 != 0
  let field := ((bits >>> 52) &&& 0x7ff).toNat
  let fraction := (bits &&& 0xfffffffffffff).toNat
  if field = 2047 then
    if fraction = 0 then .infinite negative else .nan
  else if field = 0 then
    .finite negative fraction (-1074)
  else
    .finite negative ((1 <<< 52) + fraction) (field - 1075)

/-- The whole part of `significand · 2 ^ exponent`. -/
def wholePart (significand : Nat) (exponent : Int) : Nat :=
  match exponent with
  | .ofNat e => significand <<< e
  | .negSucc e => significand >>> (e + 1)

/-- The number under a sign. -/
def signed (negative : Bool) (n : Nat) : Int :=
  if negative then -(n : Int) else n

/-- Truncation to a 64-bit integer; what does not fit goes to the nearer end of the range, and
NaN to zero. -/
def toInt64 (x : Float) : Int64 :=
  match Binary.ofFloat x with
  | .nan => 0
  | .infinite negative => if negative then Int64.minValue else Int64.maxValue
  | .finite negative m e => Int64.ofIntClamp (signed negative (wholePart m e))

/-- Truncation to a 32-bit integer, clamped like `toInt64`. -/
def toInt32 (x : Float) : Int32 :=
  match Binary.ofFloat x with
  | .nan => 0
  | .infinite negative => if negative then Int32.minValue else Int32.maxValue
  | .finite negative m e => Int32.ofIntClamp (signed negative (wholePart m e))

def ofInt64 (n : Int64) : Float :=
  Float.ofInt n.toInt

/-- The largest size or position. -/
def maxIndex : Nat := UInt64.size - 1

/-- The whole part of a number whose whole part is not negative, at most `maxIndex`. A number
between minus one and zero counts as zero. -/
def toIndex? (x : Float) : Option Nat :=
  match Binary.ofFloat x with
  | .finite negative m e =>
    let n := wholePart m e
    if negative && n != 0 then none else some (min n maxIndex)
  | _ => none

/-- Ways to replace a number by a whole one. -/
inductive Rounding where
  | down
  | up
  | towardZero
  | halfToEven
deriving DecidableEq

/-- Whether the magnitude grows by one when `rest / unit` is cut off above `whole`. -/
def Rounding.carries (mode : Rounding) (negative : Bool) (whole rest unit : Nat) : Bool :=
  match mode with
  | .down => negative && rest != 0
  | .up => !negative && rest != 0
  | .towardZero => false
  | .halfToEven => 2 * rest > unit || (2 * rest == unit && whole % 2 == 1)

/-- The whole number chosen by the mode, with the sign of `x` also when it is zero. -/
def Rounding.apply (mode : Rounding) (x : Float) : Float :=
  match Binary.ofFloat x with
  | .finite negative m (.negSucc e) =>
    let unit := 1 <<< (e + 1)
    let whole := m / unit
    let rounded := if mode.carries negative whole (m % unit) unit then whole + 1 else whole
    if negative then -(Float.ofNat rounded) else Float.ofNat rounded
  | _ => x

def truncate (x : Float) : Float :=
  Rounding.towardZero.apply x

/-- Finite and without a fraction. -/
def isWhole (x : Float) : Bool :=
  match Binary.ofFloat x with
  | .finite _ _ (.ofNat _) => true
  | .finite _ m (.negSucc e) => m % (1 <<< (e + 1)) == 0
  | _ => false

/-- Whole and divisible by two. -/
def isEven (x : Float) : Bool :=
  match Binary.ofFloat x with
  | .finite _ m (.ofNat e) => (m <<< e) % 2 == 0
  | .finite _ m (.negSucc e) => m % (1 <<< (e + 2)) == 0
  | _ => false

end Scheme.Number
