import VariantChess.Colour

/-!
# Single steps named by orientation

Front and back follow the owner's forward direction. Left and right are absolute, so they name
the same files for both colours.
-/

namespace VariantChess

/-- A single step as its owner names it; `here` is the null step. -/
inductive Direction where
  | front
  | back
  | left
  | right
  | here
  deriving DecidableEq, Repr

namespace Direction

/-- Every direction, in table order. -/
def all : List Direction := [.front, .back, .left, .right, .here]

/-- The position of a direction in `Direction.all`. -/
def index : Direction → Nat
  | .front => 0
  | .back => 1
  | .left => 2
  | .right => 3
  | .here => 4

/-- The direction at a position of `Direction.all`. -/
def ofIndex? (i : Nat) : Option Direction := all[i]?

/-- The file and rank change of a step for one colour. -/
def delta : Direction → Colour → Int × Int
  | .front, c => (0, c.forward)
  | .back, c => (0, -c.forward)
  | .left, _ => (-1, 0)
  | .right, _ => (1, 0)
  | .here, _ => (0, 0)

/-- The step that takes a step back. -/
def opposite : Direction → Direction
  | .front => .back
  | .back => .front
  | .left => .right
  | .right => .left
  | .here => .here

/-- A step and its opposite cancel. -/
theorem delta_opposite (d : Direction) (c : Colour) :
    d.opposite.delta c = (-(d.delta c).1, -(d.delta c).2) := by
  cases d <;> cases c <;> rfl

end Direction

end VariantChess
