import Scheme.Primitive.Lists
import Scheme.Heap.Reach
import Scheme.Text.Numeric
/-!
# Characters, strings and vectors
-/

namespace Scheme

/-- The character with a code, unless the code is none of a character. -/
def charOfCode? (code : Nat) : Option Char :=
  if h : code.isValidChar then some (Char.ofNatAux code h) else none

def CharacterOperation.perform (operation : CharacterOperation) (arguments : List Value) :
    Action Value :=
  let x := arguments.getD 0 .nil
  let y := arguments.getD 1 .nil
  let test (p : Char → Bool) : Action Value := do
    let c ← World.character x
    pure (.boolean (p c))
  let map (f : Char → Char) : Action Value := do
    let c ← World.character x
    pure (.character (f c))
  match operation with
  | .compare relation foldCase => do
    let (a, b) ← World.both (World.character x) (World.character y)
    let key := if foldCase then Text.lower else id
    pure (.boolean (relation.admits (Ord.compare (key a) (key b))))
  | .isAlphabetic => test Text.isAlphabetic
  | .isNumeric => test Text.isNumeric
  | .isBlank => test Text.isBlank
  | .isUpper => test Text.isUpper
  | .isLower => test Text.isLower
  | .toCode => do
    let c ← World.character x
    pure (.number (.ofNat c.toNat))
  | .ofCode => do
    let code ← World.index x
    match charOfCode? code with
    | some c => pure (.character c)
    | none => World.failWith fun h => .noCharacter (h.written x)
  | .upcase => map Text.upper
  | .downcase => map Text.lower

/-- Strings and vectors are made no longer than this. -/
def maxLength : Nat := 1 <<< 26

/-- The length of a string or vector to make. -/
def World.allocationLength (procedure : String) (v : Value) : Action Nat := do
  let n ← World.index v
  if maxLength < n then World.failWith fun h => .lengthTooLarge procedure (h.written v)
  else pure n

/-- A position below a length. -/
def World.position (v : Value) (length : Nat) : Action Nat := do
  let i ← World.index v
  if i < length then pure i else World.fail (.outOfRange i length)

/-- A position in a container about to be changed. While it is, its text cannot be taken, so that
an index that is no number must not contain it. -/
def World.positionIn (container v : Value) (length : Nat) : Action Nat :=
  match v with
  | .number _ => World.position v length
  | v => fun w =>
    if w.heap.reaches v container then .trap .selfShown w else World.position v length w

/-- The order of texts, character by character; a text comes before its continuations. -/
def lexicographic : List Char → List Char → Ordering
  | [], [] => .eq
  | [], _ :: _ => .lt
  | _ :: _, [] => .gt
  | a :: as, b :: bs => (Ord.compare a b).then (lexicographic as bs)

namespace StringOperation

/-- A string of the characters given as values. -/
def ofValues (values : List Value) : Action Value := do
  let chars ← values.mapM World.character
  World.alter (·.addString chars.toArray)

def perform (operation : StringOperation) (arguments : List Value) : Action Value :=
  let x := arguments.getD 0 .nil
  let y := arguments.getD 1 .nil
  let z := arguments.getD 2 .nil
  match operation with
  | .compare relation foldCase => do
    let (a, b) ← World.both (World.string x) (World.string y)
    World.look fun h =>
      let key (ref : Ref .string) : List Char :=
        let chars := (h.string ref).toList
        if foldCase then chars.map Text.upper else chars
      .boolean (relation.admits (lexicographic (key a) (key b)))
  | .make => do
    let fill ← if arguments.length = 2 then World.character y else pure ' '
    let length ← World.allocationLength "make-string" x
    World.alter (·.addString (Array.replicate length fill))
  | .ofCharacters => ofValues arguments
  | .length => do
    let ref ← World.string x
    World.look fun h => .number (.ofNat (h.string ref).size)
  | .get => do
    let ref ← World.string x
    let chars ← World.look (·.string ref)
    let i ← World.position y chars.size
    pure (.character (chars.getD i ' '))
  | .set => do
    let c ← World.character z
    let ref ← World.string x
    let length ← World.look fun h => (h.string ref).size
    let i ← World.positionIn x y length
    World.alter fun h => (.character c, h.setChar ref i c)
  | .substring => do
    let ref ← World.string x
    let (start, stop) ← World.both (World.index y) (World.index z)
    let chars ← World.look (·.string ref)
    if start ≤ stop ∧ stop ≤ chars.size then
      World.alter (·.addString (chars.extract start stop))
    else World.failWith fun h => .badRange start stop (h.written x)
  | .append => World.alter fun h =>
      h.addString (arguments.flatMap fun v => (h.text .displayed v).toList).toArray
  | .toList => do
    let ref ← World.string x
    World.alter fun h => h.list ((h.string ref).toList.map .character)
  | .ofList => do
    let items ← World.elements x
    ofValues items
  | .ofSymbol => do
    let s ← World.symbol x
    World.alter (·.addString s.name.toList.toArray)
  | .toSymbol => do
    let text ← World.textOf x
    pure (.symbol ⟨text⟩)

end StringOperation

def VectorOperation.perform (operation : VectorOperation) (arguments : List Value) :
    Action Value :=
  let x := arguments.getD 0 .nil
  let y := arguments.getD 1 .nil
  let z := arguments.getD 2 .nil
  match operation with
  | .make => do
    let length ← World.allocationLength "make-vector" x
    World.alter (·.addVector (Array.replicate length y))
  | .ofElements => World.alter (·.addVector arguments.toArray)
  | .length => do
    let ref ← World.vector x
    World.look fun h => .number (.ofNat (h.vector ref).size)
  | .get => do
    let ref ← World.vector x
    let length ← World.look fun h => (h.vector ref).size
    let i ← World.position y length
    World.look fun h => (h.vector ref).getD i .nil
  | .set => do
    let ref ← World.vector x
    let length ← World.look fun h => (h.vector ref).size
    let i ← World.positionIn x y length
    World.alter fun h => (z, h.setElement ref i z)
  | .toList => do
    let ref ← World.vector x
    World.alter fun h => h.list (h.vector ref).toList
  | .ofList => do
    let items ← World.elements x
    World.alter (·.addVector items.toArray)

end Scheme
