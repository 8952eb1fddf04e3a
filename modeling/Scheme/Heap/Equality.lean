import Std.Data.TreeSet
import Scheme.Heap
/-!
# Structural equality

Two containers that are already being compared are taken to be equal, so that the comparison ends
on cyclic structure.
-/

namespace Scheme.Heap

/-- Pairs of containers that have been met; pairs have even keys and vectors odd ones. -/
abbrev Met := Std.TreeSet (Nat × Nat) (compareLex (compareOn Prod.fst) (compareOn Prod.snd))

/-- Compares the values waiting, of which containers are compared at most `budget` times. -/
def equalAll (h : Heap) (budget : Nat) (met : Met) (waiting : List (Value × Value)) : Bool :=
  match waiting with
  | [] => true
  | (.pair a, .pair b) :: waiting =>
    let key := (2 * a.index, 2 * b.index)
    if a = b ∨ met.contains key then h.equalAll budget met waiting
    else
      match budget with
      | 0 => true
      | budget + 1 =>
        let p := h.pair a
        let q := h.pair b
        h.equalAll budget (met.insert key) ((p.first, q.first) :: (p.rest, q.rest) :: waiting)
  | (.vector a, .vector b) :: waiting =>
    let key := (2 * a.index + 1, 2 * b.index + 1)
    if a = b ∨ met.contains key then h.equalAll budget met waiting
    else
      match budget with
      | 0 => true
      | budget + 1 =>
        let xs := h.vector a
        let ys := h.vector b
        if xs.size = ys.size then
          h.equalAll budget (met.insert key) (xs.toList.zip ys.toList ++ waiting)
        else false
  | (.string a, .string b) :: waiting =>
    if h.string a = h.string b then h.equalAll budget met waiting else false
  | (a, b) :: waiting =>
    if a.eqv b then h.equalAll budget met waiting else false
termination_by (budget, waiting.length)

/-- Every two pairs and every two vectors are compared at most once. -/
def comparisons (h : Heap) : Nat :=
  h.pairs.size * h.pairs.size + h.vectors.size * h.vectors.size

/-- Whether two values have the same structure. -/
def equal (h : Heap) (a b : Value) : Bool :=
  h.equalAll h.comparisons {} [(a, b)]

/-- Sameness in one of the three senses. -/
def same (h : Heap) : Sameness → Value → Value → Bool
  | .eq, a, b => a = b
  | .eqv, a, b => a.eqv b
  | .equal, a, b => h.equal a b

end Scheme.Heap
