import Scheme.Symbol
/-!
# Data

The finite trees that texts denote.
-/

namespace Scheme

inductive Datum where
  | nil
  | boolean (value : Bool)
  | number (value : Float)
  | character (value : Char)
  | symbol (value : Symbol)
  | string (value : List Char)
  | vector (elements : List Datum)
  | pair (first rest : Datum)

namespace Datum

/-- The items in order, with `tail` after them. -/
def listStar (items : List Datum) (tail : Datum) : Datum :=
  items.foldr .pair tail

def list (items : List Datum) : Datum :=
  listStar items .nil

/-- The elements of a proper list. -/
def elements? : Datum → Option (List Datum)
  | .nil => some []
  | .pair first rest => (elements? rest).map (first :: ·)
  | _ => none

end Datum

end Scheme
