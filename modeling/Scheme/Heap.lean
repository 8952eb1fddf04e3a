import Std.Data.TreeMap
import Scheme.Datum
import Scheme.Parameters
import Scheme.Value
/-!
# The heap

Pairs, strings, vectors, scopes, closures and continuations, each kind in an array of its own. A
reference is a position in its array. Cells are added at the end and never removed.
-/

namespace Scheme

structure Pair where
  first : Value
  rest : Value

/-- Variables by name; what is not bound here is looked for in the parent. -/
structure Scope where
  bindings : Std.TreeMap String Value
  parent : Option (Ref .scope)

structure Closure where
  parameters : Parameters
  body : Value
  scope : Ref .scope
  name : Option Symbol

/-- The receiving end of an escape. -/
structure Continuation where
  token : Nat
  /-- The value on its way to the receiver. -/
  slot : Value
  active : Bool

structure Heap where
  pairs : Array Pair := #[]
  strings : Array (Array Char) := #[]
  vectors : Array (Array Value) := #[]
  scopes : Array Scope := #[]
  closures : Array Closure := #[]
  continuations : Array Continuation := #[]

namespace Heap

/-! ### Pairs -/

def pair (h : Heap) (ref : Ref .pair) : Pair :=
  (h.pairs[ref.index]?).getD ⟨.nil, .nil⟩

def setPair (h : Heap) (ref : Ref .pair) (p : Pair) : Heap :=
  { h with pairs := h.pairs.setIfInBounds ref.index p }

def cons (h : Heap) (first rest : Value) : Value × Heap :=
  (.pair ⟨h.pairs.size⟩, { h with pairs := h.pairs.push ⟨first, rest⟩ })

/-- The first field of a pair, and nil of anything else. -/
def first (h : Heap) : Value → Value
  | .pair ref => (h.pair ref).first
  | _ => .nil

/-- The rest of a pair, and nil of anything else. -/
def rest (h : Heap) : Value → Value
  | .pair ref => (h.pair ref).rest
  | _ => .nil

def second (h : Heap) (v : Value) : Value :=
  h.first (h.rest v)

def third (h : Heap) (v : Value) : Value :=
  h.first (h.rest (h.rest v))

def side (h : Heap) : Side → Value → Value
  | .first, v => h.first v
  | .rest, v => h.rest v

/-- Conses items, the last one first, onto a tail. -/
def consReversed (h : Heap) (tail : Value) : List Value → Value × Heap
  | [] => (tail, h)
  | item :: items =>
    let (tail, h) := h.cons item tail
    h.consReversed tail items

/-- A fresh list of the items that ends in `tail`. -/
def listStar (h : Heap) (items : List Value) (tail : Value) : Value × Heap :=
  h.consReversed tail items.reverse

def list (h : Heap) (items : List Value) : Value × Heap :=
  h.listStar items .nil

/-! ### Strings and vectors -/

def string (h : Heap) (ref : Ref .string) : Array Char :=
  (h.strings[ref.index]?).getD #[]

def addString (h : Heap) (chars : Array Char) : Value × Heap :=
  (.string ⟨h.strings.size⟩, { h with strings := h.strings.push chars })

def setChar (h : Heap) (ref : Ref .string) (i : Nat) (c : Char) : Heap :=
  { h with strings := h.strings.modify ref.index (·.setIfInBounds i c) }

def vector (h : Heap) (ref : Ref .vector) : Array Value :=
  (h.vectors[ref.index]?).getD #[]

def addVector (h : Heap) (elements : Array Value) : Value × Heap :=
  (.vector ⟨h.vectors.size⟩, { h with vectors := h.vectors.push elements })

def setElement (h : Heap) (ref : Ref .vector) (i : Nat) (v : Value) : Heap :=
  { h with vectors := h.vectors.modify ref.index (·.setIfInBounds i v) }

/-! ### Closures and continuations -/

def closure (h : Heap) (ref : Ref .closure) : Closure :=
  (h.closures[ref.index]?).getD ⟨⟨[], none⟩, .nil, ⟨0⟩, none⟩

def addClosure (h : Heap) (c : Closure) : Ref .closure × Heap :=
  (⟨h.closures.size⟩, { h with closures := h.closures.push c })

/-- Names a closure that has no name yet. -/
def nameClosure (h : Heap) (ref : Ref .closure) (name : Symbol) : Heap :=
  { h with closures := h.closures.modify ref.index fun c =>
      match c.name with
      | none => { c with name := some name }
      | some _ => c }

def continuation (h : Heap) (ref : Ref .continuation) : Continuation :=
  (h.continuations[ref.index]?).getD ⟨0, .nil, false⟩

def addContinuation (h : Heap) (k : Continuation) : Ref .continuation × Heap :=
  (⟨h.continuations.size⟩, { h with continuations := h.continuations.push k })

def setContinuation (h : Heap) (ref : Ref .continuation) (k : Continuation) : Heap :=
  { h with continuations := h.continuations.setIfInBounds ref.index k }

/-! ### Data -/

mutual

/-- Builds a datum from fresh cells. -/
def build (h : Heap) : Datum → Value × Heap
  | .nil => (.nil, h)
  | .boolean value => (.boolean value, h)
  | .number value => (.number (.float value), h)
  | .character value => (.character value, h)
  | .symbol value => (.symbol value, h)
  | .string value => h.addString value.toArray
  | .vector elements =>
    let (values, h) := buildAll h elements
    h.addVector values.toArray
  | .pair first rest =>
    let (first, h) := build h first
    let (rest, h) := build h rest
    h.cons first rest

def buildAll (h : Heap) : List Datum → List Value × Heap
  | [] => ([], h)
  | d :: rest =>
    let (v, h) := build h d
    let (values, h) := buildAll h rest
    (v :: values, h)

end

end Heap

end Scheme
