import Scheme.Heap.Equality
import Scheme.Heap.Spine
import Scheme.World
/-!
# Lists
-/

namespace Scheme

namespace World

/-- The elements along a spine, up to the first value that is not a pair. -/
def spine (v : Value) : Action (List Value × Value) :=
  fun w =>
    match w.heap.spine? v with
    | some (items, last) => .value (items, last) w
    | none => .trap .endless w

/-- The elements of a proper list. -/
def elements (v : Value) : Action (List Value) := do
  let (items, last) ← spine v
  if last.isNil then pure items
  else failWith fun h => .wrongKind .properList (h.written v)

end World

namespace Heap

/-- The first part of a list whose element passes the test, or false; `none` if the search never
ends. -/
def findTail (h : Heap) (test : Value → Bool) : Nat → Value → Option Value
  | budget, v =>
    match v with
    | .pair ref =>
      let p := h.pair ref
      if test p.first then some v
      else
        match budget with
        | 0 => none
        | budget + 1 => h.findTail test budget p.rest
    | _ => some (.boolean false)

end Heap

namespace ListOperation

/-- Conses copies of the lists, the last one first, onto a tail. -/
def appendReversed (result : Value) : List Value → Action Value
  | [] => pure result
  | v :: rest => do
    let (items, _) ← World.spine v
    let result ← World.alter (·.listStar items result)
    appendReversed result rest

/-- The first part of a list whose element passes the test, or false. -/
def search (test : Heap → Value → Bool) (v : Value) : Action Value :=
  fun w =>
    match w.heap.findTail (test w.heap) w.heap.pairs.size v with
    | some found => .value found w
    | none => .trap .endless w

def perform (operation : ListOperation) (arguments : List Value) : Action Value :=
  let x := arguments.getD 0 .nil
  let y := arguments.getD 1 .nil
  match operation with
  | .path sides => World.look fun h => sides.foldl (fun v side => h.side side v) x
  | .set side => do
    let ref ← World.pair x
    World.alter fun h =>
      let p := h.pair ref
      match side with
      | .first => (y, h.setPair ref { p with first := y })
      | .rest => (y, h.setPair ref { p with rest := y })
  | .cons => World.alter (·.cons x y)
  | .list => World.alter (·.list arguments)
  | .listStar =>
    match arguments.getLast? with
    | none => pure .nil
    | some last => World.alter (·.listStar arguments.dropLast last)
  | .isList => World.look fun h => .boolean (h.isList x)
  | .length => do
    let length ← World.look (·.spineLength? x)
    match length with
    | some n => pure (.number (.ofNat n))
    | none => World.fail .circularLength
  | .append =>
    match arguments.reverse with
    | [] => pure .nil
    | last :: others => appendReversed last others
  | .reverse => do
    let (items, _) ← World.spine x
    World.alter (·.list items.reverse)
  | .tail => do
    let count ← World.index y
    World.look (·.drop count x)
  | .element => do
    let count ← World.index y
    World.look fun h => h.first (h.drop count x)
  | .member sameness => search (fun h item => h.same sameness x item) y
  | .association sameness => do
    let found ← search (fun h entry => h.same sameness x (h.first entry)) y
    World.look fun h => if found.isPair then h.first found else found

end ListOperation

end Scheme
