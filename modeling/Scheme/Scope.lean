import Scheme.World
/-!
# Scopes

Variables live in scopes, which are nested; the nearest binding counts.
-/

namespace Scheme

namespace Heap

def scope (h : Heap) (ref : Ref .scope) : Scope :=
  (h.scopes[ref.index]?).getD ⟨{}, none⟩

def addScope (h : Heap) (s : Scope) : Ref .scope × Heap :=
  (⟨h.scopes.size⟩, { h with scopes := h.scopes.push s })

/-- The nearest scope that binds a name, and the value there, within `budget` scopes. -/
def locateWithin (h : Heap) (name : Symbol) : Nat → Ref .scope → Option (Ref .scope × Value)
  | 0, _ => none
  | budget + 1, ref =>
    let s := h.scope ref
    match s.bindings[name.name]? with
    | some v => some (ref, v)
    | none =>
      match s.parent with
      | some parent => h.locateWithin name budget parent
      | none => none

/-- The nearest scope that binds a name. A scope is younger than its parent, so its own position
bounds the number of scopes around it. -/
def locate? (h : Heap) (name : Symbol) (ref : Ref .scope) : Option (Ref .scope × Value) :=
  h.locateWithin name (ref.index + 1) ref

/-- Binds a name in a scope, whatever it was before. -/
def bind (h : Heap) (ref : Ref .scope) (name : Symbol) (v : Value) : Heap :=
  { h with scopes := h.scopes.modify ref.index fun s =>
      { s with bindings := s.bindings.insert name.name v } }

/-- Binds a name in a scope; a procedure without a name takes this one. -/
def define (h : Heap) (ref : Ref .scope) (name : Symbol) (v : Value) : Heap :=
  let h :=
    match v with
    | .closure c | .transformer c => h.nameClosure c name
    | _ => h
  h.bind ref name v

/-- Binds names to arguments in order, to nil where arguments run out. The arguments left over
are returned. -/
def bindFixed (bindings : Std.TreeMap String Value) :
    List Symbol → List Value → Std.TreeMap String Value × List Value
  | [], arguments => (bindings, arguments)
  | name :: names, [] => bindFixed (bindings.insert name.name .nil) names []
  | name :: names, a :: arguments => bindFixed (bindings.insert name.name a) names arguments

/-- A new scope inside `parent` for the arguments of a call. -/
def extend (h : Heap) (p : Parameters) (arguments : List Value) (parent : Ref .scope) :
    Ref .scope × Heap :=
  let (bindings, others) := bindFixed {} p.fixed arguments
  match p.rest with
  | none => h.addScope ⟨bindings, some parent⟩
  | some rest =>
    let (list, h) := h.list others
    h.addScope ⟨bindings.insert rest.name list, some parent⟩

/-- A closure over a body of one or several forms. -/
def close (h : Heap) (p : Parameters) (body : Value) (scope : Ref .scope) : Ref .closure × Heap :=
  let (body, h) :=
    match body with
    | .pair ref =>
      if (h.pair ref).rest.isNil then ((h.pair ref).first, h) else h.cons (.symbol .begin) body
    | body => h.cons (.symbol .begin) body
  h.addClosure ⟨p, body, scope, none⟩

end Heap

namespace World

/-- The value of a variable. -/
def lookup (name : Symbol) (ref : Ref .scope) : Action Value :=
  fun w =>
    match w.heap.locate? name ref with
    | some (_, v) => .value v w
    | none => fail (.unbound name) w

/-- Changes the nearest binding of a name. -/
def assign (name : Symbol) (v : Value) (ref : Ref .scope) : Action Value :=
  fun w =>
    match w.heap.locate? name ref with
    | some (scope, _) => .value v { w with heap := w.heap.bind scope name v }
    | none => fail (.unbound name) w

/-- A scope for a call; a wrong number of arguments is only logged. -/
def enter (w : World) (p : Parameters) (arguments : List Value) (parent : Ref .scope) :
    Ref .scope × World :=
  let w :=
    if p.accepts arguments.length then w
    else w.note (.argumentCount p.text (w.heap.writtenList arguments))
  let (scope, heap) := w.heap.extend p arguments parent
  (scope, { w with heap })

/-- Reads a parameter list: symbols, and a symbol as its tail perhaps. The names met so far are in
reverse. -/
def parametersFrom (whole : Value) : Nat → List Symbol → Value → Action Parameters
  | budget, names, v =>
    match v with
    | .nil => pure ⟨names.reverse, none⟩
    | .symbol rest => pure ⟨names.reverse, some rest⟩
    | .pair ref =>
      match budget with
      | 0 => stop .endless
      | budget + 1 => do
        let p ← look (·.pair ref)
        let name ← symbol p.first
        parametersFrom whole budget (name :: names) p.rest
    | _ => failWith fun h => .badParameters (h.written whole)

/-- Reads a parameter list. -/
def parameters (v : Value) : Action Parameters :=
  fun w => parametersFrom v w.heap.pairs.size [] v w

end World

end Scheme
