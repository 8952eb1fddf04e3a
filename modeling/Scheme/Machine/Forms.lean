import Scheme.Machine
import Scheme.Primitive.Lists
/-!
# Forms

How the machine enters special forms, calls and expansions.
-/

namespace Scheme.Step

/-- All forms of a body but the last leave a value that nobody waits for. -/
def sequence (body : Value) (scope : Ref .scope) (stack : List Pending) (world : World) : Step :=
  let first := world.heap.first body
  if (world.heap.rest body).isPair then
    go (.eval first scope) (.sequence body scope :: stack) world
  else
    go (.reduce first scope) stack world

/-- A clause whose test gave a true value. -/
def chosen (clause result : Value) (scope : Ref .scope) (stack : List Pending) (world : World) :
    Step :=
  let body := world.heap.rest clause
  if body.isNil then go (.resume result) stack world
  else if world.heap.first body = .symbol .arrow then
    let receiver := world.heap.second body
    let (quoted, heap) := world.heap.list [.symbol .quote, result]
    let (call, heap) := heap.list [receiver, quoted]
    go (.reduce call scope) stack { world with heap }
  else
    let (form, heap) := world.heap.cons (.symbol .begin) body
    go (.reduce form scope) stack { world with heap }

/-- Clauses are tried in order; without a true one the answer is false. -/
def clauses (clauses : Value) (scope : Ref .scope) (stack : List Pending) (world : World) : Step :=
  match clauses with
  | .pair ref =>
    let p := world.heap.pair ref
    let test := world.heap.first p.first
    if test = .symbol .else_ then chosen p.first (.boolean true) scope stack world
    else go (.eval test scope) (.clause p.first p.rest scope :: stack) world
  | _ => go (.resume (.boolean false)) stack world

/-- A procedure for the form `(parameters . body)`. -/
def abstraction (parameters body : Value) (scope : Ref .scope) : Action (Ref .closure) := do
  let p ← World.parameters parameters
  World.alter (·.close p body scope)

def define (name : Symbol) (v : Value) (scope : Ref .scope) (stack : List Pending)
    (world : World) : Step :=
  go (.resume (.symbol name)) stack { world with heap := world.heap.define scope name v }

/-- A definition of a procedure, `(define (name . parameters) . body)`. -/
def defineProcedure (target body : Value) (scope : Ref .scope) (stack : List Pending)
    (world : World) : Step :=
  let head := world.heap.first target
  let parameters := world.heap.rest target
  after (World.symbol head) stack world fun name world =>
    after (abstraction parameters body scope) stack world fun ref world =>
      define name (.closure ref) scope stack world

def special (form : SpecialForm) (operands : Value) (scope : Ref .scope) (stack : List Pending)
    (world : World) : Step :=
  let first := world.heap.first operands
  match form with
  | .quotation => go (.resume first) stack world
  | .sequence => sequence operands scope stack world
  | .definition =>
    if first.isPair then
      let body := world.heap.rest operands
      defineProcedure first body scope stack world
    else
      after (World.symbol first) stack world fun name world =>
        let x := world.heap.second operands
        go (.eval x scope) (.definition name scope :: stack) world
  | .assignment =>
    after (World.symbol first) stack world fun name world =>
      let x := world.heap.second operands
      go (.eval x scope) (.assignment name scope :: stack) world
  | .branch => go (.eval first scope) (.branch operands scope :: stack) world
  | .clauses => clauses operands scope stack world
  | .abstraction =>
    let body := world.heap.rest operands
    after (abstraction first body scope) stack world fun ref world =>
      go (.resume (.closure ref)) stack world
  | .transformer =>
    let body := world.heap.rest operands
    after (abstraction first body scope) stack world fun ref world =>
      go (.resume (.transformer ref)) stack world

/-- An expression on the current level. -/
def reduce (x : Value) (scope : Ref .scope) (stack : List Pending) (world : World) : Step :=
  match x with
  | .symbol name => answer (World.lookup name scope) stack world
  | .pair site =>
    let p := world.heap.pair site
    match p.first with
    | .symbol head =>
      match SpecialForm.ofSymbol? head with
      | some form => special form p.rest scope stack world
      | none => go (.eval p.first scope) (.operator site p.rest scope :: stack) world
    | head => go (.eval head scope) (.operator site p.rest scope :: stack) world
  | x => go (.resume x) stack world

/-- An expression one level deeper. -/
def eval (x : Value) (scope : Ref .scope) (stack : List Pending) (world : World) : Step :=
  if world.depth < world.maxDepth then
    go (.reduce x scope) (.leave :: stack) { world with depth := world.depth + 1 }
  else
    answer (World.fail (.tooDeep world.maxDepth)) stack world

/-- A call of a closure stays on the current level; any other is an application. -/
def call (procedure : Value) (arguments : List Value) (stack : List Pending) (world : World) :
    Step :=
  match procedure with
  | .closure ref =>
    let c := world.heap.closure ref
    let (scope, world) := world.enter c.parameters arguments c.scope
    go (.reduce c.body scope) stack world
  | procedure => go (.apply procedure arguments) stack world

/-- Evaluates the operands that are left, and calls. -/
def operands (procedure : Value) (evaluated : List Value) (rest all : Value)
    (scope : Ref .scope) (stack : List Pending) (world : World) : Step :=
  match rest with
  | .nil => call procedure evaluated.reverse stack world
  | .pair ref =>
    let p := world.heap.pair ref
    go (.eval p.first scope) (.operand procedure evaluated p.rest all scope :: stack) world
  | _ => answer (World.failWith fun h => .illegalArguments (h.written all)) stack world

/-- Runs a transformer on unevaluated operands. -/
def expand (site : Ref .pair) (transformer : Ref .closure) (operands : Value)
    (scope : Option (Ref .scope)) (stack : List Pending) (world : World) : Step :=
  after (World.elements operands) stack world fun arguments world =>
    let c := world.heap.closure transformer
    let (inner, world) := world.enter c.parameters arguments c.scope
    go (.eval c.body inner) (.expansion site transformer scope :: stack) world

/-- What replaces the two fields of a call that expands to a value. -/
def replacement (v : Value) (world : World) : Pair × World :=
  match v with
  | .pair ref => (world.heap.pair ref, world)
  | v =>
    let (rest, heap) := world.heap.list [v]
    (⟨.symbol .begin, rest⟩, { world with heap })

/-- Puts an expansion in the place of its call, and goes on with it. -/
def replace (site : Ref .pair) (transformer : Ref .closure) (scope : Option (Ref .scope))
    (v : Value) (stack : List Pending) (world : World) : Step :=
  let world :=
    if world.tracing then
      world.note (.expanded (world.heap.closure transformer).name (world.heap.written v))
    else world
  let (p, world) := replacement v world
  let world := { world with heap := world.heap.setPair site p }
  match scope with
  | some scope => go (.reduce (.pair site) scope) stack world
  | none => go (.resume (.pair site)) stack world

end Scheme.Step
