import Std.Data.TreeMap
/-!
# Files

What names can lead to, and how a file changes when it is written to.
-/

namespace Scheme

/-- What stands at a place. -/
inductive Node where
  | file (content : ByteArray)
  | directory
  /-- Nothing can be read from a device and nothing is kept of what is written to it. Writing may
  be refused, for a reason. -/
  | device (refusal : Option String)
  /-- The console, or the place for complaints beside it. -/
  | console (complaints : Bool)

/-- What stands at each place that is not empty. -/
abbrev Files := Std.TreeMap String Node

/-- The bytes that can be read. -/
def Node.content : Node → ByteArray
  | .file content => content
  | _ => .empty

/-- Why bytes cannot be written. -/
def Node.refusal? : Node → Option String
  | .device refusal => refusal
  | _ => none

/-- So many zero bytes. -/
def zeros (count : Nat) : ByteArray :=
  ⟨Array.replicate count 0⟩

/-- Bytes with others written over them from a position on. What lies between the end and a
position beyond it is filled with zeros. -/
def overwrite (content : ByteArray) (position : Nat) (bytes : ByteArray) : ByteArray :=
  if position = content.size then content ++ bytes
  else if content.size < position then content ++ zeros (position - content.size) ++ bytes
  else
    content.extract 0 position ++ bytes ++
      content.extract (position + bytes.size) content.size

end Scheme
