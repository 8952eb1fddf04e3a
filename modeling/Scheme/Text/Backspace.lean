import Scheme.Text.Cluster
/-!
# Backspaces

A line that was typed without an editor may hold backspaces. Each erases the cluster before it.
-/

namespace Scheme.Text

/-- The number of bytes of a text. -/
def byteCount (cs : List Char) : Nat :=
  cs.foldl (fun count c => count + c.utf8Size) 0

/-- Drops so many bytes in front; `none` if that would cut a character in two. -/
def dropBytes? (count : Nat) : List Char → Option (List Char)
  | [] => if count = 0 then some [] else none
  | c :: rest =>
    if count = 0 then some (c :: rest)
    else if c.utf8Size ≤ count then dropBytes? (count - c.utf8Size) rest
    else none

/-- A line in the making. -/
structure Typed where
  /-- The text so far, in reverse. -/
  text : List Char := []
  /-- The sizes of the clusters that can be erased, the last one first. A size is a byte, so that
  of a longer cluster only the end is erased. -/
  sizes : List Nat := []

def Typed.add (t : Typed) (cluster : List Char) : Option Typed :=
  if cluster = ['\x08'] then
    match t.sizes with
    | [] => some t
    | size :: sizes => (dropBytes? size t.text).map ({ text := ·, sizes })
  else
    some { text := cluster.reverse ++ t.text, sizes := byteCount cluster % 256 :: t.sizes }

/-- The text after all erasures; `none` if one would cut a character in two. -/
def applyBackspaces? (line : List Char) : Option (List Char) :=
  if line.contains '\x08' then
    ((clusters line).foldlM Typed.add {}).map fun t => t.text.reverse
  else
    some line

end Scheme.Text
