import Scheme.Machine.Run
/-!
# Evaluation in direct style

Evaluation as plain recursion, without a machine, a stack or a limit of nesting: tail positions
are evaluated like all others, by a recursive call. Each evaluator is made from one that is given
less time, and is out of time where that one is.
-/

namespace Scheme

/-- What becomes of a computation in the time it is given. -/
inductive Attempt (α : Type) where
  | finished (r : Result α)
  | outOfTime

namespace Attempt

variable {α β : Type}

/-- The attempt at a single action. -/
def of (action : Action α) (w : World) : Attempt α :=
  .finished (action w)

/-- An attempt that succeeds at once. -/
def answer (a : α) (w : World) : Attempt α :=
  .finished (.value a w)

/-- Goes on with the value; a fault is the end. -/
def andThen (attempt : Attempt α) (use : α → World → Attempt β) : Attempt β :=
  match attempt with
  | .finished (.value a w) => use a w
  | .finished (.fault f w) => .finished (.fault f w)
  | .finished (.trap t w) => .finished (.trap t w)
  | .outOfTime => .outOfTime

/-- Changes the world after a value and after a fault. -/
def closing (attempt : Attempt α) (change : World → World) : Attempt α :=
  match attempt with
  | .finished (.value a w) => .finished (.value a (change w))
  | .finished (.fault f w) => .finished (.fault f (change w))
  | .finished (.trap t w) => .finished (.trap t w)
  | .outOfTime => .outOfTime

/-- An escape that is meant for a continuation ends here. -/
def receive (attempt : Attempt Value) (k : Ref .continuation) : Attempt Value :=
  match attempt.closing (World.deactivate k) with
  | .finished (.fault (.escape token) w) =>
    if token = (w.heap.continuation k).token then
      let (v, w) := w.takeSlot k
      answer v w
    else .finished (.fault (.escape token) w)
  | attempt => attempt

end Attempt

open Attempt

/-- A way to evaluate expressions and to apply procedures. -/
structure Evaluator where
  eval : Value → Ref .scope → World → Attempt Value
  apply : Value → List Value → World → Attempt Value

namespace Evaluator

variable (self : Evaluator)

/-! ## Forms -/

/-- Evaluates the forms of a body; the last one has the value. -/
def sequence : Nat → Value → Ref .scope → World → Attempt Value
  | 0, _, _, _ => .outOfTime
  | time + 1, body, scope, w =>
    let first := w.heap.first body
    if (w.heap.rest body).isPair then
      (self.eval first scope w).andThen fun _ w => sequence time (w.heap.rest body) scope w
    else self.eval first scope w

/-- A clause whose test gave a true value. -/
def chosen (clause result : Value) (scope : Ref .scope) (w : World) : Attempt Value :=
  let body := w.heap.rest clause
  if body.isNil then answer result w
  else if w.heap.first body = .symbol .arrow then
    let receiver := w.heap.second body
    let (quoted, heap) := w.heap.list [.symbol .quote, result]
    let (call, heap) := heap.list [receiver, quoted]
    self.eval call scope { w with heap }
  else
    let (form, heap) := w.heap.cons (.symbol .begin) body
    self.eval form scope { w with heap }

/-- Clauses are tried in order; without a true one the answer is false. -/
def clauses : Nat → Value → Ref .scope → World → Attempt Value
  | 0, _, _, _ => .outOfTime
  | time + 1, .pair ref, scope, w =>
    let p := w.heap.pair ref
    let test := w.heap.first p.first
    if test = .symbol .else_ then self.chosen p.first (.boolean true) scope w
    else
      (self.eval test scope w).andThen fun v w =>
        if v.isTrue then self.chosen p.first v scope w else clauses time p.rest scope w
  | _ + 1, _, _, w => answer (.boolean false) w

/-- Binds a name in a scope. -/
def define (name : Symbol) (v : Value) (scope : Ref .scope) (w : World) : Attempt Value :=
  answer (.symbol name) { w with heap := w.heap.define scope name v }

def definition (operands : Value) (scope : Ref .scope) (w : World) : Attempt Value :=
  let target := w.heap.first operands
  if target.isPair then
    let body := w.heap.rest operands
    let parameters := w.heap.rest target
    (of (World.symbol (w.heap.first target)) w).andThen fun name w =>
      (of (Step.abstraction parameters body scope) w).andThen fun ref w =>
        define name (.closure ref) scope w
  else
    (of (World.symbol target) w).andThen fun name w =>
      (self.eval (w.heap.second operands) scope w).andThen fun v w => define name v scope w

def assignment (operands : Value) (scope : Ref .scope) (w : World) : Attempt Value :=
  (of (World.symbol (w.heap.first operands)) w).andThen fun name w =>
    (self.eval (w.heap.second operands) scope w).andThen fun v w => of (World.assign name v scope) w

def branch (operands : Value) (scope : Ref .scope) (w : World) : Attempt Value :=
  (self.eval (w.heap.first operands) scope w).andThen fun v w =>
    self.eval (if v.isTrue then w.heap.second operands else w.heap.third operands) scope w

/-- A procedure for a form, as a value. -/
def abstraction (make : Ref .closure → Value) (operands : Value) (scope : Ref .scope) (w : World) :
    Attempt Value :=
  (of (Step.abstraction (w.heap.first operands) (w.heap.rest operands) scope) w).andThen
    fun ref w => answer (make ref) w

def special (time : Nat) (form : SpecialForm) (operands : Value) (scope : Ref .scope) (w : World) :
    Attempt Value :=
  match form with
  | .quotation => answer (w.heap.first operands) w
  | .sequence => self.sequence time operands scope w
  | .definition => self.definition operands scope w
  | .assignment => self.assignment operands scope w
  | .branch => self.branch operands scope w
  | .clauses => self.clauses time operands scope w
  | .abstraction => abstraction .closure operands scope w
  | .transformer => abstraction .transformer operands scope w

/-! ## Calls -/

/-- The values of operands, from left to right. -/
def operands : Nat → Value → Value → Ref .scope → World → Attempt (List Value)
  | 0, _, _, _, _ => .outOfTime
  | _ + 1, .nil, _, _, w => answer [] w
  | time + 1, .pair ref, all, scope, w =>
    let p := w.heap.pair ref
    (self.eval p.first scope w).andThen fun v w =>
      (operands time p.rest all scope w).andThen fun vs w => answer (v :: vs) w
  | _ + 1, _, all, _, w => of (World.failWith fun h => .illegalArguments (h.written all)) w

/-- A call of a closure is the evaluation of its body; any other is an application. -/
def call (procedure : Value) (arguments : List Value) (w : World) : Attempt Value :=
  match procedure with
  | .closure ref =>
    let c := w.heap.closure ref
    let (scope, w) := w.enter c.parameters arguments c.scope
    self.eval c.body scope w
  | procedure => self.apply procedure arguments w

/-- The world in which an expansion has taken the place of its call. -/
def spliced (site : Ref .pair) (transformer : Ref .closure) (v : Value) (w : World) : World :=
  let w :=
    if w.tracing then w.note (.expanded (w.heap.closure transformer).name (w.heap.written v))
    else w
  let (p, w) := Step.replacement v w
  { w with heap := w.heap.setPair site p }

/-- Runs a transformer on unevaluated operands and puts the expansion in the place of the call. -/
def expand (site : Ref .pair) (transformer : Ref .closure) (operands : Value) (w : World) :
    Attempt Value :=
  (of (World.elements operands) w).andThen fun arguments w =>
    let c := w.heap.closure transformer
    let (inner, w) := w.enter c.parameters arguments c.scope
    (self.eval c.body inner w).andThen fun v w => answer (.pair site) (spliced site transformer v w)

/-- A combination whose operator is evaluated first; a transformer has its expansion evaluated. -/
def combination (time : Nat) (site : Ref .pair) (operator rest : Value) (scope : Ref .scope)
    (w : World) : Attempt Value :=
  (self.eval operator scope w).andThen fun v w =>
    match v with
    | .transformer ref =>
      (self.expand site ref rest w).andThen fun x w => self.eval x scope w
    | v =>
      (self.operands time rest rest scope w).andThen fun arguments w => self.call v arguments w

def reduce (time : Nat) (x : Value) (scope : Ref .scope) (w : World) : Attempt Value :=
  match x with
  | .symbol name => of (World.lookup name scope) w
  | .pair site =>
    let p := w.heap.pair site
    match p.first with
    | .symbol head =>
      match SpecialForm.ofSymbol? head with
      | some form => self.special time form p.rest scope w
      | none => self.combination time site p.first p.rest scope w
    | head => self.combination time site head p.rest scope w
  | x => answer x w

/-! ## Applications -/

/-- Calls a procedure on the first elements of the lists, as long as all have some; results are
gathered in reverse. -/
def mapping (procedure : Value) (collect : Bool) :
    Nat → List Value → List Value → World → Attempt Value
  | 0, _, _, _ => .outOfTime
  | time + 1, lists, results, w =>
    if !lists.isEmpty && lists.all Value.isPair then
      let rests := lists.map w.heap.rest
      (self.apply procedure (lists.map w.heap.first) w).andThen fun v w =>
        mapping procedure collect time rests (if collect then v :: results else results) w
    else of (World.alter (·.list results.reverse)) w

/-- Calls a thunk so many times more. -/
def timing (thunk : Value) (memory clock : Nat) : Nat → Value → World → Attempt Value
  | 0, result, w => of (Step.timed result memory clock) w
  | calls + 1, _, w =>
    (self.apply thunk [] w).andThen fun v w => timing thunk memory clock calls v w

def startTiming (thunk : Value) (calls : Nat) (w : World) : Attempt Value :=
  let (memory, host) := w.host.readMemory
  let (clock, host) := host.readClock
  self.timing thunk memory clock calls (.boolean false) { w with host }

/-- Calls a procedure on a new continuation that leads back here. -/
def callWithContinuation (receiver : Value) (w : World) : Attempt Value :=
  let token := w.lastToken + 1
  let (k, heap) := w.heap.addContinuation ⟨token, .nil, true⟩
  (self.apply receiver [.continuation k] { w with heap, lastToken := token }).receive k

/-- Reads and evaluates all data of a program. -/
def program : Nat → Program → Value → World → Attempt Value
  | 0, _, _, _ => .outOfTime
  | time + 1, source, last, w =>
    let (reading, source, w) := Step.readProgram source w
    match reading with
    | .datum d =>
      let (x, heap) := w.heap.build d
      (self.eval x .global { w with heap }).andThen fun v w => program time source v w
    | .endOfInput => answer last w
    | .failed cause => .finished (.fault (.failed cause) w)
    | .cutShort => .finished (.fault .cutShort w)

/-- Opens a file and evaluates what it holds. -/
def load (time : Nat) (path : String) (w : World) : Attempt Value :=
  let w := { w with host := w.host.want path }
  match w.host.openInput path with
  | .error reason => of (World.fail (.cannotLoad path reason)) w
  | .ok (place, bytes) =>
    let (port, w) := (w.note (.loading path)).addInput place bytes
    ((self.program time (.file port) .nil w).closing (World.closeInput port)).andThen
      fun _ w => answer (.boolean true) w

/-- Expands a form once if its head is a transformer. -/
def expandOnce (x : Value) (w : World) : Attempt Value :=
  if x.isPair then
    (self.eval (w.heap.first x) .global w).andThen fun v w =>
      match v, x with
      | .transformer ref, .pair site => self.expand site ref (w.heap.rest x) w
      | _, x => answer x w
  else answer x w

/-- Operations that go on with evaluations of their own. -/
def control (time : Nat) (operation : ControlOperation) (arguments : List Value) (w : World) :
    Attempt Value :=
  let x := arguments.getD 0 .nil
  let y := arguments.getD 1 .nil
  match operation with
  | .apply =>
    (of (World.elements (arguments.getLastD .nil)) w).andThen fun last w =>
      self.apply x (arguments.tail.dropLast ++ last) w
  | .map => self.mapping x true time arguments.tail [] w
  | .forEach => self.mapping x false time arguments.tail [] w
  | .callWithContinuation => self.callWithContinuation x w
  | .force => if x.isProcedure then self.apply x [] w else answer x w
  | .eval => self.eval x .global w
  | .expand => self.expandOnce x w
  | .timeCall =>
    (of (if arguments.length = 2 then World.index y else pure 1) w).andThen fun calls w =>
      self.startTiming x calls w
  | .callWithInput =>
    (of (World.openInput x) w).andThen fun port w =>
      (self.apply y [.inputPort port] w).closing (World.closeInput port)
  | .callWithOutput =>
    (of (World.openOutput x) w).andThen fun port w =>
      (self.apply y [.outputPort port] w).closing (World.closeOutput port)
  | .load => (of (World.textOf x) w).andThen fun path w => self.load time path w

def applyTo (time : Nat) (procedure : Value) (arguments : List Value) (w : World) :
    Attempt Value :=
  match procedure with
  | .primitive p =>
    (of (Step.checkCount p arguments) w).andThen fun _ w =>
      match p.operation with
      | .direct operation => of (operation.perform arguments) w
      | .control operation => self.control time operation arguments w
  | .closure ref | .transformer ref =>
    let c := w.heap.closure ref
    let (scope, w) := w.enter c.parameters arguments c.scope
    self.eval c.body scope w
  | .continuation k => of (Step.throw k (arguments.headD .nil)) w
  | v => of (World.failWith fun h => .notProcedure (h.written v)) w

/-- The evaluator whose recursion and whose loops go so deep. -/
def within : Nat → Evaluator
  | 0 => ⟨fun _ _ _ => .outOfTime, fun _ _ _ => .outOfTime⟩
  | time + 1 => ⟨(within time).reduce time, (within time).applyTo time⟩

end Evaluator

end Scheme
