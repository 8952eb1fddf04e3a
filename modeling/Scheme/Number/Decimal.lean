import Scheme.Number.Binary
/-!
# Shortest decimals

The decimal with the fewest digits among those that read back as a given double, and the nearest
of these; of two at the same distance the larger. Its layouts are positional and scientific.
-/

namespace Scheme.Number

/-- The number `digits · 10 ^ scale`. -/
structure Decimal where
  digits : Nat
  scale : Int

namespace Decimal

/-- Without trailing zeros, of which at most `bound` are dropped. -/
def strip : Nat → Decimal → Decimal
  | 0, d => d
  | bound + 1, d =>
    if d.digits % 10 = 0 then strip bound ⟨d.digits / 10, d.scale + 1⟩ else d

/-- A double and the bounds of the reals that round to it, all over one denominator. -/
structure Target where
  lower : Nat
  value : Nat
  upper : Nat
  denominator : Nat
  /-- Whether the bounds themselves round to the double. -/
  closed : Bool

/-- Half the distance to the neighbours on both sides; below a power of two the lower neighbour
is twice as near. -/
def Target.ofBinary (significand : Nat) (exponent : Int) : Target :=
  let below := if significand = 1 <<< 52 ∧ exponent > -1074 then 1 else 2
  let (factor, denominator) :=
    match exponent - 2 with
    | .ofNat e => (1 <<< e, 1)
    | .negSucc e => (1, 1 <<< (e + 1))
  { lower := (4 * significand - below) * factor
    value := 4 * significand * factor
    upper := (4 * significand + 2) * factor
    denominator
    closed := significand % 2 == 0 }

/-- The same with `10 ^ scale` as the unit. -/
def Target.inUnits (t : Target) (scale : Int) : Target :=
  match scale with
  | .ofNat k => { t with denominator := t.denominator * Nat.pow 10 k }
  | .negSucc k =>
    let factor := Nat.pow 10 (k + 1)
    { t with lower := t.lower * factor, value := t.value * factor, upper := t.upper * factor }

/-- The nearest multiple of the unit that rounds to the double. -/
def Target.nearest? (t : Target) : Option Nat :=
  let floor := t.value / t.denominator
  let low := floor * t.denominator
  let high := low + t.denominator
  let fitsLow := t.lower < low || (t.closed && t.lower == low)
  let fitsHigh := high < t.upper || (t.closed && high == t.upper)
  if fitsLow && fitsHigh then
    some (if 2 * t.value < low + high then floor else floor + 1)
  else if fitsLow then some floor
  else if fitsHigh then some (floor + 1)
  else none

/-- The number of digits before the point: the first `k` from `guess` on with a value below
`10 ^ k`, looking at most `bound` steps further. -/
def Target.magnitude (t : Target) : Nat → Int → Int
  | 0, guess => guess
  | bound + 1, guess =>
    let unit := t.inUnits guess
    if unit.value < unit.denominator then guess else t.magnitude bound (guess + 1)

/-- Tries one digit more at a time, at most `bound` times. -/
def Target.search (t : Target) (magnitude : Int) : Nat → Nat → Decimal
  | 0, count => ⟨t.value / t.denominator, magnitude - count⟩
  | bound + 1, count =>
    match (t.inUnits (magnitude - count)).nearest? with
    | some digits => strip 18 ⟨digits, magnitude - count⟩
    | none => t.search magnitude bound (count + 1)

/-- The shortest decimal that reads back as `significand · 2 ^ exponent`. Seventeen digits always
do. -/
def shortest (significand : Nat) (exponent : Int) : Decimal :=
  let t := Target.ofBinary significand exponent
  let guess := (exponent + significand.log2) * 30103 / 100000
  t.search (t.magnitude 3 guess) 17 1

def digitChars (d : Decimal) : List Char :=
  Nat.toDigits 10 d.digits

/-- All digits in place, without an exponent. -/
def positional (d : Decimal) : List Char :=
  let digits := d.digitChars
  match d.scale with
  | .ofNat k => digits ++ List.replicate k '0'
  | .negSucc k =>
    let places := k + 1
    if places < digits.length then
      digits.take (digits.length - places) ++ '.' :: digits.drop (digits.length - places)
    else
      '0' :: '.' :: List.replicate (places - digits.length) '0' ++ digits

/-- The exponent of the first digit. -/
def leading (d : Decimal) : Int :=
  d.scale + d.digitChars.length - 1

/-- One digit before the point, and an exponent. -/
def scientific (d : Decimal) : List Char :=
  let mantissa :=
    match d.digitChars with
    | first :: second :: rest => first :: '.' :: second :: rest
    | digits => digits
  mantissa ++ 'e' :: (toString d.leading).toList

end Decimal

end Scheme.Number
