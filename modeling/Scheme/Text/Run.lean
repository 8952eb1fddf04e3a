/-!
# Runs of code points

Sets of characters are given by runs: arithmetic progressions of code points.
-/

namespace Scheme.Text

/-- The code points `first, first + step, …, last`. -/
structure Run where
  first : Nat
  last : Nat
  step : Nat

def Run.contains (run : Run) (code : Nat) : Bool :=
  run.first ≤ code && code ≤ run.last && (code - run.first) % run.step == 0

/-- Whether some run of the list contains the code point. -/
def Run.cover (runs : List Run) (code : Nat) : Bool :=
  runs.any (·.contains code)

end Scheme.Text
