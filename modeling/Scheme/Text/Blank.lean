import Scheme.Text.Run
/-!
# Blank characters

The Unicode property `White_Space`.
-/

namespace Scheme.Text

/-- The blank code points beyond ASCII. -/
def blankRuns : List Run :=
  [⟨133, 133, 1⟩, ⟨160, 160, 1⟩, ⟨5760, 5760, 1⟩, ⟨8192, 8202, 1⟩, ⟨8232, 8233, 1⟩,
    ⟨8239, 8239, 1⟩, ⟨8287, 8287, 1⟩, ⟨12288, 12288, 1⟩]

/-- Spaces, tabs and line ends of any kind. -/
def isBlank (c : Char) : Bool :=
  if c.toNat < 128 then c == ' ' || (9 ≤ c.toNat && c.toNat ≤ 13) else Run.cover blankRuns c.toNat

end Scheme.Text
