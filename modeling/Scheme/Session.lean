import Scheme.Intake
import Scheme.Interpreter
import Scheme.Text.Backspace
/-!
# Sessions fed by lines

Lines are gathered until they hold complete data, which are then evaluated together.
-/

namespace Scheme

/-- Whether a text can be read without running out of input. -/
def isComplete (text : List Char) : Bool :=
  match (Reader.ofText text).readAll with
  | (_, .cutShort, _) => false
  | _ => true

/-- A line without its line end. -/
def withoutLineEnd (line : List Char) : List Char :=
  match line.reverse with
  | '\n' :: '\r' :: rest => rest.reverse
  | '\n' :: rest => rest.reverse
  | _ => line

namespace World

/-- Writes to the console, past all ports. -/
def print (text : String) (w : World) : World :=
  { w with host := { w.host with console := w.host.console ++ text } }

/-- Takes back what the current input port has not read of these lines; it keeps the rest of the
line in which it stands. -/
def reclaim (intake : Intake) (lines : List (List UInt8 × List Event)) (w : World) :
    Intake × World :=
  let r := w.reader .standardInput
  let (intake, line) := intake.settle lines r.cursor.unread
  (intake, if r.isClosed then w else w.provide .standardInput line)

/-- Evaluates a text while the current input port may read what is left of the input. -/
def interpretSharing (text : String) (intake : Intake) (w : World) : Outcome × Intake × World :=
  let r := w.reader .standardInput
  if r.isClosed then
    let (outcome, w) := w.interpret text
    (outcome, intake, w)
  else
    let lines := intake.lines
    let events := r.cursor.upcoming ++ lines.flatMap Prod.snd
    let (outcome, w) := (w.provide .standardInput events).interpret text
    let (intake, w) := w.reclaim intake lines
    (outcome, intake, w)

theorem size_le_of_interpretSharing {text : String} {intake next : Intake} {w w' : World}
    {outcome : Outcome} (h : w.interpretSharing text intake = (outcome, next, w')) :
    next.size ≤ intake.size := by
  by_cases hclosed : (w.reader .standardInput).isClosed
  · simp only [interpretSharing, hclosed, if_true, Prod.mk.injEq] at h
    exact Nat.le_of_eq (congrArg Intake.size h.2.1.symm)
  · simp only [interpretSharing, hclosed, reclaim, Bool.false_eq_true, if_false, Prod.mk.injEq] at h
    exact h.2.1 ▸ intake.size_settle_le _ _

/-- A line as it was meant: backspaces have done their work. -/
def typedLine (line : List UInt8) : Except Outcome (List Char) :=
  match Text.decode? line with
  | none => .error (.value .nil)
  | some text =>
    match Text.applyBackspaces? (withoutLineEnd text) with
    | none => .error (.trap .splitCharacter)
    | some text => .ok text

/-- On a terminal that is too simple for line editing the session shows prompts. -/
def prompt (prompts : Bool) (pending : List Char) (w : World) : World :=
  if prompts then w.print (if pending.isEmpty then "> " else "... ") else w

/-- A session that reads lines. A line that cannot be decoded ends it like the end of the input.
The current input port shares the input. -/
def converseByLine (prompts : Bool) (intake : Intake) (pending : List Char) (w : World) :
    Outcome × World :=
  let w := w.prompt prompts pending
  match _hline : intake.nextLine with
  | none => (.value .nil, w)
  | some (line, next) =>
    match typedLine line with
    | .error outcome => (outcome, w)
    | .ok text =>
      let pending := pending ++ text ++ ['\n']
      if isComplete pending then
        match _hrun : w.interpretSharing (String.ofList pending) next with
        | (.value v, next, w) =>
          converseByLine prompts next [] (w.print (w.heap.written v ++ "\n"))
        | (.fault (.exit code), _, w) => (.fault (.exit code), w)
        | (.fault f, next, w) =>
          converseByLine prompts next [] (w.print ("Error: " ++ f.message ++ "\n"))
        | (outcome, _, w) => (outcome, w)
      else converseByLine prompts next pending w
termination_by intake.size
decreasing_by
  · exact Nat.lt_of_le_of_lt (size_le_of_interpretSharing _hrun) (Intake.size_lt_of_nextLine _hline)
  · exact Nat.lt_of_le_of_lt (size_le_of_interpretSharing _hrun) (Intake.size_lt_of_nextLine _hline)
  · exact Intake.size_lt_of_nextLine _hline

end World

end Scheme
