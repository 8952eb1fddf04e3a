import Scheme.Number.Decimal
/-!
# Numerals

How numbers are read and written: decimal numerals, the form used in log entries, and whole
numbers in another radix.
-/

namespace Scheme.Number

/-- Doubles of smaller magnitude print as integers when they are whole. -/
def integerBound : Float := 9.2e18

def withSign (negative : Bool) (text : List Char) : List Char :=
  if negative then '-' :: text else text

/-- The text of a number: whole numbers without a fraction, others with the fewest digits, never
with an exponent. -/
def toText (x : Float) : String :=
  match Binary.ofFloat x with
  | .nan => "NaN"
  | .infinite negative => if negative then "-inf" else "inf"
  | .finite negative m e =>
    if isWhole x && x.abs < integerBound then
      toString (signed negative (wholePart m e))
    else
      String.ofList (withSign negative (Decimal.shortest m e).positional)

/-- The text of a number in a log entry: always with a fraction or an exponent. -/
def toLogText (x : Float) : String :=
  match Binary.ofFloat x with
  | .nan => "NaN"
  | .infinite negative => if negative then "-inf" else "inf"
  | .finite negative m e =>
    let text :=
      if m = 0 then ['0', '.', '0']
      else
        let d := Decimal.shortest m e
        if d.leading < -4 ∨ 16 ≤ d.leading then d.scientific
        else if 0 ≤ d.scale then d.positional ++ ['.', '0']
        else d.positional
    String.ofList (withSign negative text)

/-- The number that decimal digits stand for. -/
def ofDigits (digits : List Char) : Nat :=
  digits.foldl (fun n c => 10 * n + (c.toNat - '0'.toNat)) 0

/-- The double nearest to `mantissa · 10 ^ exponent`. Exponents far out of range are settled
without computing the power. -/
def ofDecimal (mantissa : Nat) (exponent : Int) : Float :=
  let leading := exponent + (Nat.toDigits 10 mantissa).length
  if mantissa = 0 ∨ leading < -400 then 0
  else if 400 < leading then Float.ofBits 0x7ff0000000000000
  else
    match exponent with
    | .ofNat e => Float.ofScientific mantissa false e
    | .negSucc e => Float.ofScientific mantissa true (e + 1)

/-- A sign, if there is one, and the text after it. -/
def takeSign : List Char → Bool × List Char
  | '-' :: rest => (true, rest)
  | '+' :: rest => (false, rest)
  | text => (false, text)

/-- The exponent part of a decimal numeral, which has to be the whole text. -/
def exponentOf? : List Char → Option Int
  | [] => some 0
  | mark :: rest =>
    if mark = 'e' ∨ mark = 'E' then
      let (negative, digits) := takeSign rest
      if !digits.isEmpty && digits.all Char.isDigit then
        some (signed negative (ofDigits digits))
      else none
    else none

/-- Reads a decimal numeral: an optional sign, digits with at most one point among, before or
after them, and an optional exponent. -/
def ofDecimalText? (text : List Char) : Option Float :=
  let (negative, text) := takeSign text
  let whole := text.takeWhile Char.isDigit
  let (fraction, rest) :=
    match text.dropWhile Char.isDigit with
    | '.' :: rest => (rest.takeWhile Char.isDigit, rest.dropWhile Char.isDigit)
    | rest => ([], rest)
  if whole.isEmpty && fraction.isEmpty then none
  else
    (exponentOf? rest).map fun exponent =>
      let x := ofDecimal (ofDigits (whole ++ fraction)) (exponent - fraction.length)
      if negative then -x else x

/-- Characters that occur in decimal numerals. -/
def isNumeralChar (c : Char) : Bool :=
  c.isDigit || c == '+' || c == '-' || c == '.' || c == 'e' || c == 'E'

/-- Reads a number; words for infinity and the like are not numbers. -/
def parse? (text : List Char) : Option Float :=
  if text.any Char.isDigit && text.all isNumeralChar then ofDecimalText? text else none

/-- The digit of a value below thirty-six. -/
def digitChar (value : Nat) : Char :=
  if value < 10 then Char.ofNat ('0'.toNat + value) else Char.ofNat ('a'.toNat + (value - 10))

/-- The value of a digit in any radix up to thirty-six, in either case. -/
def digitValue? (c : Char) : Option Nat :=
  if c.isDigit then some (c.toNat - '0'.toNat)
  else if c.isLower then some (c.toNat - 'a'.toNat + 10)
  else if c.isUpper then some (c.toNat - 'A'.toNat + 10)
  else none

/-- The radices that numerals can be written in. -/
def isRadix (radix : Nat) : Bool :=
  2 ≤ radix && radix ≤ 36

/-- The digits of a whole number, most significant first, in front of `tail`. -/
def radixDigits (radix n : Nat) (tail : List Char) : List Char :=
  if n < radix ∨ radix < 2 then
    digitChar n :: tail
  else
    radixDigits radix (n / radix) (digitChar (n % radix) :: tail)
termination_by n
decreasing_by
  exact Nat.div_lt_self (by omega) (by omega)

/-- The numeral of a whole number in a radix; numbers beyond 64 bits count as the largest. -/
def toRadixText (x : Float) (radix : Nat) : String :=
  String.ofList (withSign (x < 0) (radixDigits radix (toInt64 x).toInt.natAbs []))

/-- The number that digits stand for in a radix, if they all are digits of it. -/
def ofRadixDigits? (radix : Nat) (digits : List Char) : Option Nat :=
  digits.foldlM
    (fun n c => (digitValue? c).bind fun d => if d < radix then some (radix * n + d) else none) 0

/-- Reads a 64-bit whole number in a radix. -/
def ofRadixText? (text : List Char) (radix : Nat) : Option Float :=
  let (negative, digits) := takeSign text
  if digits.isEmpty then none
  else
    (ofRadixDigits? radix digits).bind fun n =>
      let value := signed negative n
      if Int64.minValue.toInt ≤ value ∧ value ≤ Int64.maxValue.toInt then
        some (Float.ofInt value)
      else none

end Scheme.Number
