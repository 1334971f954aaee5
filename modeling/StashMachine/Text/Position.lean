/-!
# StashMachine.Text.Position — lines and columns

The line and column, both from one, of a byte of a text.  Columns count characters.
-/

namespace StashMachine
namespace Text

/-- A place as a reader finds it. -/
structure Position where
  line : Nat
  column : Nat
deriving DecidableEq

/-- The place after reading one character more. -/
def Position.past (p : Position) (c : Char) : Position :=
  if c = '\n' then ⟨p.line + 1, 1⟩ else ⟨p.line, p.column + 1⟩

/-- Walks over characters while their bytes fit in a distance. -/
def walk (p : Position) : Nat → List Char → Position
  | _, [] => p
  | distance, c :: rest =>
    if c.utf8Size ≤ distance then walk (p.past c) (distance - c.utf8Size) rest else p

/-- The place of a byte. -/
def position (source : String) (offset : Nat) : Position := walk ⟨1, 1⟩ offset source.toList

end Text
end StashMachine
