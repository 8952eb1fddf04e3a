import Scheme.Number.Integer
import Scheme.Port
/-!
# Numbers
-/

namespace Scheme

/-- Comparison of numbers; NaN stands in no relation. -/
def Relation.holds (relation : Relation) (x y : Float) : Bool :=
  match relation with
  | .lt => x < y
  | .le => x ≤ y
  | .eq => x == y
  | .ge => y ≤ x
  | .gt => y < x

def Analytic.apply : Analytic → Float → Float
  | .exp, x => x.exp
  | .log, x => x.log
  | .sin, x => x.sin
  | .cos, x => x.cos
  | .tan, x => x.tan
  | .asin, x => x.asin
  | .acos, x => x.acos
  | .sqrt, x => x.sqrt

/-- The result where a function is undefined. -/
def Analytic.undefined : Analytic → Flonum
  | .asin | .acos => .float Flonum.nan
  | _ => .negativeNaN

namespace NumberOperation

/-- Whole numbers of smaller magnitude count as exact. -/
def exactBound : Float := 102962884861573423.0

def isExactNumber : Value → Bool
  | .number n => Number.isWhole n.toFloat && n.toFloat.abs < exactBound
  | _ => false

/-- All arguments as numbers. -/
def numbers (arguments : List Value) : Action (List Flonum) :=
  arguments.mapM World.flonum

/-- Each number stands in the relation to the next. -/
def chain (relation : Relation) : List Flonum → Bool
  | x :: y :: rest => relation.holds x.toFloat y.toFloat && chain relation (y :: rest)
  | _ => true

/-- Both operands of a division; a divisor without a whole part is refused. -/
def division (x y : Value) : Action (Flonum × Flonum) := do
  let (a, b) ← World.both (World.flonum x) (World.flonum y)
  if Number.truncate b.toFloat == 0 then World.fail (.divisionByZero a.toFloat b.toFloat)
  else pure (a, b)

/-- A remainder of the whole parts. The whole part of NaN is zero, and nothing is left of a
division by it. -/
def remaining (rule : Int64 → Int64 → Int64) (x y : Value) : Action Value := do
  let (a, b) ← division x y
  let divisor := Number.toInt64 b.toFloat
  if divisor = 0 then World.stop .zeroDivisor
  else pure (.number (.ofInt64 (rule (Number.toInt64 a.toFloat) divisor)))

/-- The first number combined with all others from the left; alone it is combined with a neutral
number on its left. -/
def reduce (combine : Flonum → Flonum → Flonum) (alone : Flonum → Flonum) : List Flonum → Flonum
  | [] => alone (.float 0)
  | [x] => alone x
  | x :: rest => rest.foldl combine x

def lcmAll (numbers : List Flonum) : Action Value :=
  match numbers.foldlM (fun acc n => Number.lcm? acc (Number.toInt64 n.toFloat)) 1 with
  | some n => pure (.number (.ofInt64 n))
  | none => World.stop .overflow

def toTextIn (n : Float) (radix : Nat) : Action Value :=
  if radix = 10 then World.alter (·.addString (Number.toText n).toList.toArray)
  else if Number.isRadix radix && Number.isWhole n then
    World.alter (·.addString (Number.toRadixText n radix).toList.toArray)
  else World.fail (.noNumeral n radix)

def ofTextIn (text : String) (radix : Nat) : Value :=
  let number :=
    if radix = 10 then Number.parse? text.toList
    else if Number.isRadix radix then Number.ofRadixText? text.toList radix
    else none
  match number with
  | some n => .number (.float n)
  | none => .boolean false

def radixOf (arguments : List Value) : Action Nat :=
  match arguments with
  | _ :: radix :: _ => World.index radix
  | _ => pure 10

/-- The number nearest to an end of the order, started from the far end; NaN is passed over. -/
def extreme (relation : Relation) (far : Float) (ns : List Flonum) : Flonum :=
  .float (ns.foldl (fun acc n => if relation.holds n.toFloat acc then n.toFloat else acc) far)

def perform (operation : NumberOperation) (arguments : List Value) : Action Value :=
  let x := arguments.getD 0 .nil
  let y := arguments.getD 1 .nil
  let function (f : Flonum → Flonum) : Action Value := do
    let n ← World.flonum x
    pure (.number (f n))
  let test (p : Float → Bool) : Action Value := do
    let n ← World.number x
    pure (.boolean (p n))
  let fold (f : List Flonum → Flonum) : Action Value := do
    let ns ← numbers arguments
    pure (.number (f ns))
  match operation with
  | .compare relation => do
    let ns ← numbers arguments
    pure (.boolean (chain relation ns))
  | .add => fold (·.foldl (Flonum.map₂ (· + ·)) (.float (-0.0)))
  | .multiply => fold (·.foldl (Flonum.map₂ (· * ·)) (.float 1))
  | .subtract => fold (reduce (Flonum.map₂ (· - ·)) Flonum.neg)
  | .divide => fold (reduce (Flonum.map₂ (· / ·)) (Flonum.map (1 / ·)))
  | .quotient => do
    let (a, b) ← division x y
    pure (.number ((Flonum.map₂ (· / ·) a b).map Number.truncate))
  | .remainder => remaining Number.remainder x y
  | .modulo => remaining Number.modulo x y
  | .max => fold (extreme .gt (-1 / 0))
  | .min => fold (extreme .lt (1 / 0))
  | .abs => function Flonum.abs
  | .round mode => function (Flonum.map mode.apply)
  | .function f => function (·.map f.apply f.undefined)
  | .atan =>
    match arguments with
    | [_, _] => do
      let a ← World.flonum x
      let b ← World.flonum y
      pure (.number (Flonum.map₂ (fun b a => Float.atan2 a b) b a))
    | _ => function (Flonum.map Float.atan)
  | .expt => do
    let (base, power) ← World.both (World.flonum x) (World.flonum y)
    pure (.number (Flonum.map₂ Float.pow base power))
  | .gcd => fold fun ns =>
      .ofInt64 (ns.foldl (fun acc n => Number.gcd acc (Number.toInt64 n.toFloat)) 0)
  | .lcm => do
    let ns ← numbers arguments
    lcmAll ns
  | .isExact => pure (.boolean (isExactNumber x))
  | .isInexact => test fun n => !isExactNumber (.number (.float n))
  | .isZero => test (· == 0)
  | .isPositive => test (0 < ·)
  | .isNegative => test (· < 0)
  | .isOdd => test (!Number.isEven ·)
  | .isEven => test Number.isEven
  | .toText => do
    let radix ← radixOf arguments
    let n ← World.number x
    toTextIn n radix
  | .ofText => do
    let radix ← radixOf arguments
    let text ← World.textOf x
    pure (ofTextIn text radix)

end NumberOperation

end Scheme
