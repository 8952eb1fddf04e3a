import Scheme.Machine.Forms
import Scheme.Primitive.Direct
/-!
# Applications

Applying procedures of all kinds, and the operations that go on with evaluations of their own.
-/

namespace Scheme.Step

/-- Calls a procedure on the first elements of the lists, as long as all have some. -/
def mapping (procedure : Value) (lists results : List Value) (collect : Bool)
    (stack : List Pending) (world : World) : Step :=
  if !lists.isEmpty && lists.all Value.isPair then
    let firsts := lists.map world.heap.first
    let rests := lists.map world.heap.rest
    go (.apply procedure firsts) (.mapping procedure rests results collect :: stack) world
  else
    answer (World.alter (·.list results.reverse)) stack world

/-- A measured amount with its unit. -/
def measure (amount : Nat) (unit : String) : Action Value := do
  let unit ← World.alter (·.addString unit.toList.toArray)
  World.alter (·.list [.number (.ofNat amount), unit])

/-- The result of timed calls, with the milliseconds and the bytes they took. -/
def timed (result : Value) (memory clock : Nat) : Action Value := do
  let stop ← fun w =>
    let (stop, host) := w.host.readClock
    Result.value stop { w with host }
  let top ← fun w =>
    let (top, host) := w.host.readMemory
    Result.value top { w with host }
  let time ← measure ((stop - clock) / 1000) "msec"
  let space ← measure (top - memory) "bytes"
  let costs ← World.alter (·.list [time, space])
  World.alter (·.list [result, costs])

/-- Calls a thunk so many times more. -/
def timing (thunk : Value) (calls memory clock : Nat) (result : Value) (stack : List Pending)
    (world : World) : Step :=
  match calls with
  | 0 => answer (timed result memory clock) stack world
  | calls + 1 => go (.apply thunk []) (.timing thunk calls memory clock :: stack) world

def startTiming (thunk : Value) (calls : Nat) (stack : List Pending) (world : World) : Step :=
  let (memory, host) := world.host.readMemory
  let (clock, host) := host.readClock
  timing thunk calls memory clock (.boolean false) stack { world with host }

/-- Calls a procedure on a new continuation that leads back here. -/
def callWithContinuation (receiver : Value) (stack : List Pending) (world : World) : Step :=
  let token := world.lastToken + 1
  let (k, heap) := world.heap.addContinuation ⟨token, .nil, true⟩
  go (.apply receiver [.continuation k]) (.catching k :: stack)
    { world with heap, lastToken := token }

/-- Opens a file and evaluates what it holds. -/
def load (path : String) (stack : List Pending) (world : World) : Step :=
  let world := { world with host := world.host.want path }
  match world.host.openInput path with
  | .error reason => answer (World.fail (.cannotLoad path reason)) stack world
  | .ok (place, bytes) =>
    let (port, world) := (world.note (.loading path)).addInput place bytes
    go (.advance (.file port) .nil) (.loaded port :: stack) world

/-- Expands a form once if its head is a transformer. -/
def expandOnce (x : Value) (stack : List Pending) (world : World) : Step :=
  if x.isPair then go (.eval (world.heap.first x) .global) (.expandingHead x :: stack) world
  else go (.resume x) stack world

/-- Operations that go on with evaluations of their own. -/
def control (operation : ControlOperation) (arguments : List Value) (stack : List Pending)
    (world : World) : Step :=
  let x := arguments.getD 0 .nil
  let y := arguments.getD 1 .nil
  match operation with
  | .apply =>
    after (World.elements (arguments.getLastD .nil)) stack world fun last world =>
      go (.apply x (arguments.tail.dropLast ++ last)) stack world
  | .map => mapping x arguments.tail [] true stack world
  | .forEach => mapping x arguments.tail [] false stack world
  | .callWithContinuation => callWithContinuation x stack world
  | .force =>
    if x.isProcedure then go (.apply x []) stack world else go (.resume x) stack world
  | .eval => go (.eval x .global) stack world
  | .expand => expandOnce x stack world
  | .timeCall =>
    after (if arguments.length = 2 then World.index y else pure 1) stack world
      fun calls world => startTiming x calls stack world
  | .callWithInput =>
    after (World.openInput x) stack world fun port world =>
      go (.apply y [.inputPort port]) (.closingInput port :: stack) world
  | .callWithOutput =>
    after (World.openOutput x) stack world fun port world =>
      go (.apply y [.outputPort port]) (.closingOutput port :: stack) world
  | .load => after (World.textOf x) stack world fun path world => load path stack world

/-- Fails unless the number of arguments is right. -/
def checkCount (p : Primitive) (arguments : List Value) : Action Unit :=
  let count := arguments.length
  if count < p.least then
    World.failWith fun h => .tooFewArguments count p.name (h.writtenList arguments)
  else
    match p.most with
    | some most =>
      if most < count then
        World.failWith fun h => .tooManyArguments count p.name (h.writtenList arguments)
      else pure ()
    | none => pure ()

/-- Sends a value to the receiving end of a continuation. -/
def throw (k : Ref .continuation) (v : Value) : Action Value :=
  fun w =>
    let c := w.heap.continuation k
    if c.active then
      .fault (.escape c.token) { w with heap := w.heap.setContinuation k { c with slot := v } }
    else
      World.failWith (fun h => .spentContinuation (h.written v)) w

def apply (procedure : Value) (arguments : List Value) (stack : List Pending) (world : World) :
    Step :=
  match procedure with
  | .primitive p =>
    after (checkCount p arguments) stack world fun _ world =>
      match p.operation with
      | .direct operation => answer (operation.perform arguments) stack world
      | .control operation => control operation arguments stack world
  | .closure ref | .transformer ref =>
    let c := world.heap.closure ref
    let (scope, world) := world.enter c.parameters arguments c.scope
    go (.eval c.body scope) stack world
  | .continuation k => answer (throw k (arguments.headD .nil)) stack world
  | v => answer (World.failWith fun h => .notProcedure (h.written v)) stack world

end Scheme.Step
