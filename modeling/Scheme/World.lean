import Scheme.Datum.Reader
import Scheme.Heap.Text
import Scheme.Host
import Scheme.Intake
/-!
# The state of an interpreter

A world holds everything that evaluation can change. An action reads and changes the world and
ends with a value, a fault or a trap.
-/

namespace Scheme

/-- An open input port that follows the changes of its file. -/
structure Follower where
  port : Ref .inputPort
  place : String
  /-- What there was to read at the last change. -/
  intake : Intake
  /-- How many bytes of the file had been taken in then. -/
  offset : Nat := 0

structure World where
  heap : Heap := {}
  inputs : Array Reader := #[]
  /-- Closed output ports have no sink. -/
  outputs : Array (Option Sink) := #[]
  followers : List Follower := []
  host : Host
  log : Array Entry := #[]
  /-- Whether expansions are logged. -/
  tracing : Bool := false
  /-- The number of evaluations under way, one inside the other. -/
  depth : Nat := 0
  maxDepth : Nat
  lastToken : Nat := 0

/-- The scope of global variables. -/
def Ref.global : Ref .scope := ⟨0⟩

/-- The current input port. -/
def Ref.standardInput : Ref .inputPort := ⟨0⟩

/-- The current output port. -/
def Ref.standardOutput : Ref .outputPort := ⟨0⟩

/-- How an action ends. -/
inductive Result (α : Type) where
  | value (a : α) (world : World)
  | fault (f : Fault) (world : World)
  | trap (t : Trap) (world : World)

def Action (α : Type) : Type :=
  World → Result α

namespace Action

@[always_inline, inline]
protected def pure {α : Type} (a : α) : Action α :=
  fun w => .value a w

@[always_inline, inline]
protected def bind {α β : Type} (x : Action α) (f : α → Action β) : Action β :=
  fun w =>
    match x w with
    | .value a w => f a w
    | .fault e w => .fault e w
    | .trap t w => .trap t w

instance : Monad Action where
  pure := Action.pure
  bind := Action.bind

end Action

namespace World

def note (w : World) (entry : Entry) : World :=
  { w with log := w.log.push entry }

def noteAll (w : World) (entries : List Entry) : World :=
  { w with log := entries.foldl Array.push w.log }

/-- Ends with a failure, which is logged. -/
def fail {α : Type} (cause : Failure) : Action α :=
  fun w => .fault (.failed cause) (w.note (.failure cause))

def stop {α : Type} (t : Trap) : Action α :=
  fun w => .trap t w

/-- A fact about the heap. -/
@[always_inline, inline]
def look {α : Type} (f : Heap → α) : Action α :=
  fun w => .value (f w.heap) w

/-- A change to the heap that yields a value. -/
@[always_inline, inline]
def alter {α : Type} (f : Heap → α × Heap) : Action α :=
  fun w =>
    let (a, heap) := f w.heap
    .value a { w with heap }

/-- A failure whose cause shows something of the heap. -/
def failWith {α : Type} (cause : Heap → Failure) : Action α :=
  fun w => fail (cause w.heap) w

/-- Runs both actions, also when the first has a fault; the first fault counts. -/
def both {α β : Type} (x : Action α) (y : Action β) : Action (α × β) :=
  fun w =>
    match x w with
    | .value a w =>
      match y w with
      | .value b w => .value (a, b) w
      | .fault e w => .fault e w
      | .trap t w => .trap t w
    | .fault e w =>
      match y w with
      | .value _ w | .fault _ w => .fault e w
      | .trap t w => .trap t w
    | .trap t w => .trap t w

/-! ### Arguments of an expected kind -/

def expect {α : Type} (expected : Expected) (v : Value) (a : Option α) : Action α :=
  match a with
  | some a => pure a
  | none => failWith fun h => .wrongKind expected (h.written v)

def flonum (v : Value) : Action Flonum :=
  expect .number v (match v with | .number n => some n | _ => none)

/-- A number for which the sign of NaN does not matter. -/
def number (v : Value) : Action Float := do
  let n ← flonum v
  pure n.toFloat

def character (v : Value) : Action Char :=
  expect .character v (match v with | .character c => some c | _ => none)

def symbol (v : Value) : Action Symbol :=
  expect .symbol v (match v with | .symbol s => some s | _ => none)

def string (v : Value) : Action (Ref .string) :=
  expect .string v (match v with | .string ref => some ref | _ => none)

def vector (v : Value) : Action (Ref .vector) :=
  expect .vector v (match v with | .vector ref => some ref | _ => none)

def pair (v : Value) : Action (Ref .pair) :=
  expect .pair v (match v with | .pair ref => some ref | _ => none)

def inputPort (v : Value) : Action (Ref .inputPort) :=
  expect .inputPort v (match v with | .inputPort ref => some ref | _ => none)

def outputPort (v : Value) : Action (Ref .outputPort) :=
  expect .outputPort v (match v with | .outputPort ref => some ref | _ => none)

/-- A size or position; a fraction is cut off. -/
def index (v : Value) : Action Nat := do
  let n ← number v
  expect .index v (Number.toIndex? n)

/-- The characters of a string argument. -/
def textOf (v : Value) : Action String := do
  let ref ← string v
  look fun h => String.ofList (h.string ref).toList

end World

end Scheme
