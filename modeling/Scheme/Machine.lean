import Scheme.Scope
/-!
# Machine states

Evaluation is a machine with a control state, a stack of pending work and a world. Evaluations
nest through the stack, and tail positions leave nothing on it.
-/

namespace Scheme

/-- What a program is read from: a text, or a file through a port of its own. -/
inductive Program where
  | text (reader : Reader)
  | file (port : Ref .inputPort)

/-- What the machine does next. -/
inductive Control where
  /-- Evaluates an expression one level deeper, unless that is too deep. -/
  | eval (x : Value) (scope : Ref .scope)
  /-- Evaluates an expression on the current level. -/
  | reduce (x : Value) (scope : Ref .scope)
  | apply (procedure : Value) (arguments : List Value)
  /-- Hands a value to the pending work. -/
  | resume (v : Value)
  | unwind (f : Fault)
  /-- Reads and evaluates the next datum of a program; `last` is the value so far. -/
  | advance (program : Program) (last : Value)
  /-- Prompts for the next datum of an interactive session. -/
  | prompt

/-- Work that waits for a value. -/
inductive Pending where
  /-- Ends one level of evaluation. -/
  | leave
  | operator (site : Ref .pair) (operands : Value) (scope : Ref .scope)
  /-- Waits for an argument; those before it are in reverse. -/
  | operand (procedure : Value) (evaluated : List Value) (rest all : Value) (scope : Ref .scope)
  /-- Waits for the expansion of a call, and goes on with it in the scope, if there is one. -/
  | expansion (site : Ref .pair) (transformer : Ref .closure) (scope : Option (Ref .scope))
  | sequence (body : Value) (scope : Ref .scope)
  | assignment (name : Symbol) (scope : Ref .scope)
  | definition (name : Symbol) (scope : Ref .scope)
  | branch (arms : Value) (scope : Ref .scope)
  | clause (clause others : Value) (scope : Ref .scope)
  /-- Waits for a call on the first elements; results are in reverse. -/
  | mapping (procedure : Value) (lists results : List Value) (collect : Bool)
  | catching (k : Ref .continuation)
  /-- Waits for a timed call, with the calls still to come and the readings at the start. -/
  | timing (thunk : Value) (calls memory clock : Nat)
  | closingInput (port : Ref .inputPort)
  | closingOutput (port : Ref .outputPort)
  | expandingHead (form : Value)
  | program (program : Program)
  /-- Waits for the end of a file that is loaded through a port. -/
  | loaded (port : Ref .inputPort)
  | answer

structure State where
  control : Control
  stack : List Pending
  world : World

/-- How a run ends. -/
inductive Outcome where
  | value (v : Value)
  | fault (f : Fault)
  | trap (t : Trap)
  /-- The run was given too few steps. -/
  | unfinished

inductive Step where
  | next (s : State)
  | done (outcome : Outcome) (world : World)

namespace Step

@[always_inline, inline]
def go (control : Control) (stack : List Pending) (world : World) : Step :=
  .next ⟨control, stack, world⟩

/-- Continues with the value of an action; a fault unwinds the stack. -/
@[always_inline, inline]
def after {α : Type} (action : Action α) (stack : List Pending) (world : World)
    (use : α → World → Step) : Step :=
  match action world with
  | .value a world => use a world
  | .fault f world => go (.unwind f) stack world
  | .trap t world => .done (.trap t) world

/-- Resumes with the value of an action. -/
@[always_inline, inline]
def answer (action : Action Value) (stack : List Pending) (world : World) : Step :=
  after action stack world fun v world => go (.resume v) stack world

end Step

end Scheme
