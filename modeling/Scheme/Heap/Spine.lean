import Scheme.Heap
/-!
# Spines

The spine of a value is what following `rest` visits. A spine that passes more pairs than there
are never ends. Whether it ends can also be told by two markers of different speed: the faster one
leaves the spine, or it comes round to the slower one.
-/

namespace Scheme.Heap

/-- Follows `rest` through at most `budget` pairs: the elements passed, in reverse onto `passed`,
and what comes after the last pair. -/
def follow (h : Heap) : Nat → List Value → Value → Option (List Value × Value)
  | 0, passed, v =>
    match v with
    | .pair _ => none
    | v => some (passed, v)
  | budget + 1, passed, v =>
    match v with
    | .pair ref =>
      let p := h.pair ref
      h.follow budget (p.first :: passed) p.rest
    | v => some (passed, v)

/-- The elements along a spine and what ends it, or `none` for a spine without an end. -/
def spine? (h : Heap) (v : Value) : Option (List Value × Value) :=
  (h.follow h.pairs.size [] v).map fun (passed, last) => (passed.reverse, last)

/-- What becomes of two markers on a spine. -/
inductive Chase where
  /-- The faster one has left the spine, after so many pairs, for the value that ends it. -/
  | ended (length : Nat) (last : Value)
  /-- The faster one has come round to the slower one. -/
  | met

/-- Moves one marker by a pair and the other by two pairs, for at most `budget` rounds; `none` if
by then the faster one has neither left the spine nor met the slower one. -/
def chase (h : Heap) : Nat → Value → Value → Nat → Option Chase
  | 0, _, _, _ => none
  | budget + 1, slow, fast, passed =>
    match fast with
    | .pair ref =>
      match (h.pair ref).rest with
      | .pair ref =>
        let slow := h.rest slow
        let fast := (h.pair ref).rest
        if slow.isPair ∧ slow = fast then some .met else h.chase budget slow fast (passed + 2)
      | last => some (.ended (passed + 1) last)
    | last => some (.ended passed last)

/-- What becomes of two markers that start together. They need no more rounds than there are pairs,
and one in which to find the end. -/
def chaseFrom (h : Heap) (v : Value) : Option Chase :=
  h.chase (h.pairs.size + 1) v v 0

/-- The number of pairs along a spine, or `none` for a spine without an end. -/
def spineLength? (h : Heap) (v : Value) : Option Nat :=
  match h.chaseFrom v with
  | some (.ended length _) => some length
  | _ => none

/-- A proper list: its spine ends in nil. -/
def isList (h : Heap) (v : Value) : Bool :=
  match h.chaseFrom v with
  | some (.ended _ .nil) => true
  | _ => false

/-- What is left of a list after `count` rests. -/
def drop (h : Heap) : Nat → Value → Value
  | 0, v => v
  | count + 1, v =>
    match v with
    | .pair ref => h.drop count (h.pair ref).rest
    | _ => .nil

end Scheme.Heap
