import Scheme.Port
import Scheme.Primitive.Characters
import Scheme.Primitive.Numbers
/-!
# Direct operations
-/

namespace Scheme

namespace PortOperation

/-- The input port in an argument, or the current one if the argument is missing. -/
def inputOf (argument : Option Value) : Action (Ref .inputPort) :=
  match argument with
  | some v => World.inputPort v
  | none => pure .standardInput

/-- The output port in an argument, or the current one if the argument is missing. -/
def outputOf (argument : Option Value) : Action (Ref .outputPort) :=
  match argument with
  | some v => World.outputPort v
  | none => pure .standardOutput

/-- Writes a value to a port and answers it. -/
def emit (style : Style) (v : Value) (port : Option Value) : Action Value := do
  let ref ← outputOf port
  let text ← World.look (·.text style v)
  World.writeText ref text
  pure v

def perform (operation : PortOperation) (arguments : List Value) : Action Value :=
  let x := arguments.getD 0 .nil
  match operation with
  | .currentInput => pure (.inputPort .standardInput)
  | .currentOutput => pure (.outputPort .standardOutput)
  | .openInput => do
    let ref ← World.openInput x
    pure (.inputPort ref)
  | .openOutput => do
    let ref ← World.openOutput x
    pure (.outputPort ref)
  | .closeInput => do
    let ref ← World.inputPort x
    fun w => .value (.boolean true) (w.closeInput ref)
  | .closeOutput => do
    let ref ← World.outputPort x
    fun w => .value (.boolean true) (w.closeOutput ref)
  | .read => do
    let ref ← inputOf arguments[0]?
    World.readDatum ref
  | .readChar => do
    let ref ← inputOf arguments[0]?
    World.readChar ref
  | .peekChar => do
    let ref ← inputOf arguments[0]?
    World.peekChar ref
  | .write => emit .written x arguments[1]?
  | .display => emit .displayed x arguments[1]?
  | .newline => do
    let ref ← outputOf arguments[0]?
    World.writeText ref "\n"
    pure (.boolean true)

end PortOperation

namespace DirectOperation

/-- The message of an error: the texts of the arguments, of which a string in front is shown
without quotes. -/
def errorMessage (h : Heap) : List Value → String
  | [] => "error"
  | first :: others =>
    let style := if first.isOf .string then Style.displayed else Style.written
    " ".intercalate (h.text style first :: others.map h.written)

/-- Leaves with a code. -/
def leave (arguments : List Value) : Action Value := do
  let code ←
    match arguments with
    | [] => pure 0
    | x :: _ => do
      let n ← World.number x
      pure (Number.toInt32 n).toInt
  fun w => .fault (.exit code) { w with host := w.host.exit code }

def perform (operation : DirectOperation) (arguments : List Value) : Action Value :=
  let x := arguments.getD 0 .nil
  let y := arguments.getD 1 .nil
  match operation with
  | .not => pure (.boolean !x.isTrue)
  | .test kind => pure (.boolean (x.isOf kind))
  | .same sameness => World.look fun h => .boolean (h.same sameness x y)
  | .error => World.failWith fun h => .raised (errorMessage h arguments)
  | .exit => leave arguments
  | .list operation => operation.perform arguments
  | .number operation => operation.perform arguments
  | .character operation => operation.perform arguments
  | .string operation => operation.perform arguments
  | .vector operation => operation.perform arguments
  | .port operation => operation.perform arguments

end DirectOperation

end Scheme
