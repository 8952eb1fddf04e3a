import Scheme.Machine.Calls
/-!
# Steps and runs
-/

namespace Scheme

namespace World

def leave (w : World) : World :=
  { w with depth := w.depth - 1 }

/-- Ends the extent of a continuation. -/
def deactivate (k : Ref .continuation) (w : World) : World :=
  let c := w.heap.continuation k
  { w with heap := w.heap.setContinuation k { c with active := false } }

/-- Takes the value on its way to a continuation. -/
def takeSlot (k : Ref .continuation) (w : World) : Value × World :=
  let c := w.heap.continuation k
  (c.slot, { w with heap := w.heap.setContinuation k { c with slot := .nil } })

end World

namespace Step

/-- Reads the next datum of a program. -/
def readProgram (program : Program) (world : World) : Reading × Program × World :=
  match program with
  | .text reader =>
    let (reading, reader) := reader.read
    let (entries, reader) := reader.drain
    (reading, .text reader, world.noteAll entries)
  | .file port =>
    let (reading, reader) := (world.reader port).read
    let (entries, reader) := reader.drain
    let world := world.noteAll entries
    (reading, program, { world with inputs := world.inputs.setIfInBounds port.index reader })

/-- Reads the next datum of a program and evaluates it. -/
def advance (program : Program) (last : Value) (stack : List Pending) (world : World) : Step :=
  let (reading, program, world) := readProgram program world
  match reading with
  | .datum d =>
    let (x, heap) := world.heap.build d
    go (.eval x .global) (.program program :: stack) { world with heap }
  | .endOfInput => go (.resume last) stack world
  | .failed cause => go (.unwind (.failed cause)) stack world
  | .cutShort => go (.unwind .cutShort) stack world

/-- Writes a text to the current output port and prompts again. -/
def printAndPrompt (text : String) (stack : List Pending) (world : World) : Step :=
  after (World.writeText .standardOutput text) stack world fun _ world => go .prompt stack world

/-- Prompts, reads a datum from the current input port and evaluates it. The end of the input ends
the session. -/
def prompt (stack : List Pending) (world : World) : Step :=
  after (World.writeText .standardOutput "> ") stack world fun _ world =>
    match World.readDatum .standardInput world with
    | .value .endOfFile world => go (.resume .nil) stack world
    | .value x world => go (.eval x .global) (.answer :: stack) world
    | .fault .cutShort world => go (.resume .nil) stack world
    | .fault f world => printAndPrompt ("Error: " ++ f.message ++ "\n") stack world
    | .trap t world => .done (.trap t) world

/-- The answer of an interactive session to a value. -/
def printValue (v : Value) (stack : List Pending) (world : World) : Step :=
  let text := world.heap.written v
  after (World.writeText .standardOutput text) stack world fun _ world =>
    printAndPrompt "\n" stack world

/-- A value for the work that waits on top of the stack. -/
def resume (v : Value) (stack : List Pending) (world : World) : Step :=
  match stack with
  | [] => .done (.value v) world
  | pending :: stack =>
    match pending with
    | .leave => go (.resume v) stack world.leave
    | .operator site rest scope =>
      match v with
      | .transformer ref => expand site ref rest (some scope) stack world
      | v => operands v [] rest rest scope stack world
    | .operand procedure evaluated rest all scope =>
      operands procedure (v :: evaluated) rest all scope stack world
    | .expansion site transformer scope => replace site transformer scope v stack world
    | .sequence body scope => sequence (world.heap.rest body) scope stack world
    | .assignment name scope => answer (World.assign name v scope) stack world
    | .definition name scope => define name v scope stack world
    | .branch arms scope =>
      let arm := if v.isTrue then world.heap.second arms else world.heap.third arms
      go (.reduce arm scope) stack world
    | .clause clause others scope =>
      if v.isTrue then chosen clause v scope stack world else clauses others scope stack world
    | .mapping procedure lists results collect =>
      mapping procedure lists (if collect then v :: results else results) collect stack world
    | .catching k => go (.resume v) stack (world.deactivate k)
    | .timing thunk calls memory clock => timing thunk calls memory clock v stack world
    | .closingInput port => go (.resume v) stack (world.closeInput port)
    | .closingOutput port => go (.resume v) stack (world.closeOutput port)
    | .expandingHead x =>
      match v, x with
      | .transformer ref, .pair site =>
        expand site ref (world.heap.rest x) none stack world
      | _, x => go (.resume x) stack world
    | .program program => go (.advance program v) stack world
    | .loaded port => go (.resume (.boolean true)) stack (world.closeInput port)
    | .answer => printValue v stack world

/-- A fault passes all pending work but a receiver it is meant for and an interactive session,
which goes on unless it was told to exit. -/
def unwind (f : Fault) (stack : List Pending) (world : World) : Step :=
  match stack with
  | [] => .done (.fault f) world
  | pending :: stack =>
    match pending with
    | .leave => go (.unwind f) stack world.leave
    | .catching k =>
      let world := world.deactivate k
      match f with
      | .escape token =>
        if token = (world.heap.continuation k).token then
          let (v, world) := world.takeSlot k
          go (.resume v) stack world
        else go (.unwind f) stack world
      | f => go (.unwind f) stack world
    | .closingInput port | .loaded port => go (.unwind f) stack (world.closeInput port)
    | .closingOutput port => go (.unwind f) stack (world.closeOutput port)
    | .answer =>
      match f with
      | .exit code => go (.unwind (.exit code)) stack world
      | f => printAndPrompt ("Error: " ++ f.message ++ "\n") stack world
    | _ => go (.unwind f) stack world

end Step

/-- One step of the machine. -/
def State.step (s : State) : Step :=
  let { control, stack, world } := s
  match control with
  | .eval x scope => Step.eval x scope stack world
  | .reduce x scope => Step.reduce x scope stack world
  | .apply procedure arguments => Step.apply procedure arguments stack world
  | .resume v => Step.resume v stack world
  | .unwind f => Step.unwind f stack world
  | .advance program last => Step.advance program last stack world
  | .prompt => Step.prompt stack world

/-- Takes at most so many steps. -/
def State.run : Nat → State → Outcome × World
  | 0, s => (.unfinished, s.world)
  | bound + 1, s =>
    match s.step with
    | .next s => s.run bound
    | .done outcome world => (outcome, world)

/-- More steps than any run takes. -/
def stepBound : Nat := 1 <<< 62

/-- Runs the machine on a world with nothing else to do. -/
def World.run (w : World) (control : Control) : Outcome × World :=
  State.run stepBound ⟨control, [], w⟩

end Scheme
