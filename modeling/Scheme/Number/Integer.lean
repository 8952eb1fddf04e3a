/-!
# Arithmetic of 64-bit integers

Greatest common divisor, least common multiple and the two remainders, in wrapping arithmetic.
-/

namespace Scheme.Number

/-- Euclid's algorithm. -/
def euclid (a b : Int64) : Int64 :=
  if b = 0 then a else euclid b (a % b)
termination_by b.toInt.natAbs
decreasing_by
  rename_i h
  have hb : b.toInt ≠ 0 := fun h' => h (Int64.toInt_inj.1 (by simpa using h'))
  rw [Int64.toInt_mod, Int.natAbs_tmod]
  exact Nat.mod_lt _ (by omega)

/-- The greatest common divisor of the magnitudes. The smallest integer has no magnitude and
counts as itself. -/
def gcd (a b : Int64) : Int64 :=
  euclid a.abs b.abs

/-- The least common multiple, wrapped to 64 bits; `none` when the quotient by the divisor does
not fit, which is when the smallest integer is divided by minus one. -/
def lcm? (a b : Int64) : Option Int64 :=
  if a = 0 ∨ b = 0 then some 0
  else
    let divisor := gcd a b
    if a = Int64.minValue ∧ divisor = -1 then none
    else some (a / divisor * b).abs

/-- The remainder with the sign of the dividend. -/
def remainder (a b : Int64) : Int64 :=
  a % b

/-- The remainder with the sign of the divisor. -/
def modulo (a b : Int64) : Int64 :=
  let m := a % b
  if m ≠ 0 ∧ (decide (m < 0) != decide (b < 0)) then m + b else m

end Scheme.Number
