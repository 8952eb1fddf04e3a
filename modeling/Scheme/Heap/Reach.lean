import Std.Data.TreeSet
import Scheme.Heap
/-!
# Reachability

What a value contains, directly or through pairs and vectors.
-/

namespace Scheme.Heap

/-- Looks for `target` among the values waiting and what they contain, opening at most `budget`
containers. -/
def reachesFrom (h : Heap) (target : Value) (budget : Nat) (met : Std.TreeSet Nat)
    (waiting : List Value) : Bool :=
  match waiting with
  | [] => false
  | v :: waiting =>
    if v = target then true
    else
      match v with
      | .pair ref =>
        let key := 2 * ref.index
        if met.contains key then h.reachesFrom target budget met waiting
        else
          match budget with
          | 0 => false
          | budget + 1 =>
            let p := h.pair ref
            h.reachesFrom target budget (met.insert key) (p.first :: p.rest :: waiting)
      | .vector ref =>
        let key := 2 * ref.index + 1
        if met.contains key then h.reachesFrom target budget met waiting
        else
          match budget with
          | 0 => false
          | budget + 1 =>
            h.reachesFrom target budget (met.insert key) ((h.vector ref).toList ++ waiting)
      | _ => h.reachesFrom target budget met waiting
termination_by (budget, waiting.length)

/-- Whether `target` is `v` or inside it. -/
def reaches (h : Heap) (v target : Value) : Bool :=
  h.reachesFrom target (h.pairs.size + h.vectors.size) {} [v]

end Scheme.Heap
