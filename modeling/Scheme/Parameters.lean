import Scheme.Symbol
/-!
# Parameter lists
-/

namespace Scheme

/-- Names for the first arguments, and a name for the list of all others. -/
structure Parameters where
  fixed : List Symbol
  rest : Option Symbol
deriving DecidableEq

namespace Parameters

/-- Whether so many arguments fill the parameters exactly. -/
def accepts (p : Parameters) (count : Nat) : Bool :=
  match p.rest with
  | none => p.fixed.length == count
  | some _ => p.fixed.length ≤ count

/-- The list as it was written. -/
def text (p : Parameters) : String :=
  let names := " ".intercalate (p.fixed.map (·.name))
  match p.fixed, p.rest with
  | _, none => "(" ++ names ++ ")"
  | [], some rest => rest.name
  | _, some rest => "(" ++ names ++ " . " ++ rest.name ++ ")"

end Parameters

end Scheme
