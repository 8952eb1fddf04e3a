import Std.Data.TreeSet
import Scheme.Heap
import Scheme.Datum.Text
/-!
# The text of values

A container that is already being shown is shown as `...`, so that cyclic structure has a finite
text.
-/

namespace Scheme.Heap

/-- The text of a value without elements. -/
def atomText (h : Heap) (style : Style) : Value → String
  | .nil => "()"
  | .boolean value => Style.boolean value
  | .number value => Number.toText value.toFloat
  | .character value => style.character value
  | .symbol value => value.name
  | .string ref => style.string (h.string ref).toList
  | .primitive value => "\x7b" ++ value.name ++ "\x7d"
  | .closure ref | .transformer ref =>
    match (h.closure ref).name with
    | some name => "\x7b" ++ name.name ++ "\x7d"
    | none => "\x7banonymous procedure\x7d"
  | .continuation _ => "\x7bcontinuation\x7d"
  | .inputPort _ => "#<input-port>"
  | .outputPort _ => "#<output-port>"
  | .endOfFile => "#!eof"
  | .pair _ | .vector _ => "..."

/-- The mark and the body of a list that prints abbreviated. -/
def abbreviated? (h : Heap) (p : Pair) : Option (String × Value) :=
  match p.first, p.rest with
  | .symbol head, .pair body =>
    let q := h.pair body
    if q.rest.isNil then head.abbreviation?.map (·, q.first) else none
  | _, _ => none

mutual

/-- Appends the text of a value to `out`. The containers in `shown` are being shown; at most
`budget` more are opened inside each other. -/
def append (h : Heap) (style : Style) (budget : Nat) (shown : Std.TreeSet Nat) (out : String)
    (v : Value) : String :=
  match budget, v with
  | budget + 1, .vector ref =>
    let key := 2 * ref.index + 1
    if shown.contains key then out ++ "..."
    else
      let shown := shown.insert key
      let body := (h.vector ref).foldl
        (fun (out, first) x =>
          (append h style budget shown (if first then out else out ++ " ") x, false))
        (out ++ "#(", true)
      body.1 ++ ")"
  | budget + 1, .pair ref =>
    match h.abbreviated? (h.pair ref) with
    | some (mark, body) =>
      let key := 2 * ref.index
      if shown.contains key then out ++ "..."
      else append h style budget (shown.insert key) (out ++ mark) body
    | none => appendSpine h style budget shown (out ++ "(") true (.pair ref)
  | _, v => out ++ h.atomText style v
termination_by structural budget

/-- Appends the elements along a spine and the closing parenthesis. -/
def appendSpine (h : Heap) (style : Style) (budget : Nat) (shown : Std.TreeSet Nat) (out : String)
    (first : Bool) (v : Value) : String :=
  match budget, v with
  | _, .nil => out ++ ")"
  | budget + 1, .pair ref =>
    let key := 2 * ref.index
    let out := if first then out else out ++ " "
    if shown.contains key then out ++ "...)"
    else
      let shown := shown.insert key
      let p := h.pair ref
      appendSpine h style budget shown (append h style budget shown out p.first) false p.rest
  | budget + 1, v => append h style budget shown (out ++ " . ") v ++ ")"
  | 0, v => out ++ " . " ++ h.atomText style v ++ ")"
termination_by structural budget

end

/-- The text of a value. Every container opens at most once inside itself, and a list takes one
step more than its pairs. -/
def text (h : Heap) (style : Style) (v : Value) : String :=
  h.append style (2 * (h.pairs.size + h.vectors.size) + 2) {} "" v

/-- The written text of a value. -/
def written (h : Heap) (v : Value) : String :=
  h.text .written v

/-- The written text of a list of the values. -/
def writtenList (h : Heap) (values : List Value) : String :=
  let plain := "(" ++ " ".intercalate (values.map h.written) ++ ")"
  match values with
  | [.symbol head, body] =>
    match head.abbreviation? with
    | some mark => mark ++ h.written body
    | none => plain
  | _ => plain

end Scheme.Heap
