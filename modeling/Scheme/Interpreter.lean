import Scheme.Machine.Run
import Scheme.Prelude
import Scheme.Primitive.Table
/-!
# The interpreter

Fresh worlds, and the operations that a program embedding the interpreter uses.
-/

namespace Scheme

namespace Heap

/-- A heap with the primitives as global variables. -/
def primitives : Heap :=
  let bindings := Primitive.table.foldl (fun b p => b.insert p.name (.primitive p)) {}
  { scopes := #[⟨bindings, none⟩] }

end Heap

namespace World

/-- Evaluations nest this deep unless another limit is set. -/
def defaultMaxDepth : Nat := 4000

/-- An interpreter that knows the primitives only. -/
def bare (host : Host) : World :=
  { heap := .primitives
    inputs := #[{ cursor := { upcoming := host.input } }]
    outputs := #[some .console]
    host
    maxDepth := defaultMaxDepth }

/-- Evaluates all data of a text and answers the last value. -/
def interpret (text : String) (w : World) : Outcome × World :=
  w.run (.advance (.text (.ofText text.toList)) .nil)

/-- A host that has nothing. -/
def nowhere : Host :=
  { rules := .byName }

/-- The heap that a run leaves. -/
def heapLeft (ending : Outcome × World) : Heap :=
  ending.2.heap

/-- The heap after the prelude. -/
def prelude : Heap :=
  heapLeft ((bare nowhere).interpret Prelude.text)

/-- An interpreter with the prelude. The prelude itself uses neither host nor ports. -/
def new (host : Host) : World :=
  { bare host with heap := prelude }

/-- Evaluates all data of a file. -/
def load (path : String) (w : World) : Outcome × World :=
  match Step.load path [] w with
  | .next s => s.run stepBound
  | .done outcome w => (outcome, w)

/-- Expands a form once if its head is a transformer. -/
def expandOnce (x : Value) (w : World) : Outcome × World :=
  match Step.expandOnce x [] w with
  | .next s => s.run stepBound
  | .done outcome w => (outcome, w)

/-- An interactive session over the current ports. It ends at the end of the input or by an
exit. -/
def converse (w : World) : Outcome × World :=
  w.run .prompt

/-- Binds a global variable. -/
def define (name : Symbol) (v : Value) (w : World) : World :=
  { w with heap := w.heap.define .global name v }

/-- The first datum of a text as a value. -/
def datumOf (text : String) : Action Value := fun w =>
  let (reading, reader) := (Reader.ofText text.toList).read
  receive reading (w.noteAll reader.drain.1)

/-- The log and the console text so far, and the world without them. -/
def flush (w : World) : Array Entry × String × World :=
  (w.log, w.host.console, { w with log := #[], host := { w.host with console := "" } })

end World

end Scheme
