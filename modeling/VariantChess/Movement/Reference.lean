import VariantChess.Path
import VariantChess.Movement.Situation

/-!
# Locations and references

A location names a point relative to the mover, its destination or a fixed point; ranks are counted
towards the mover's front. A reference names pieces by where they are or what they did. Both are
resolved in a situation, and neither remembers a piece from one evaluation to the next.
-/

namespace VariantChess

/-- What a location is measured from. -/
inductive Anchor where
  | fixed (p : Point)
  | origin
  | destination
  deriving DecidableEq, Repr

/-- An anchor and an offset from it, the ranks counted towards the mover's front. -/
structure Location where
  anchor : Anchor
  dx : Int
  dy : Int
  deriving DecidableEq, Repr

namespace Location

/-- Where the mover stands. -/
def origin : Location := ⟨.origin, 0, 0⟩

/-- Where the mover is going. -/
def destination : Location := ⟨.destination, 0, 0⟩

/-- A point of the board, whoever moves. -/
def fixed (p : Point) : Location := ⟨.fixed p, 0, 0⟩

/-- The location displaced by `dx` files and by `dy` ranks towards the mover's front. -/
def offset (l : Location) (dx dy : Int) : Location := ⟨l.anchor, l.dx + dx, l.dy + dy⟩

/-- Whether the location depends on the candidate destination. -/
def usesDestination (l : Location) : Bool := l.anchor = .destination

/-- The point that a location is measured from; the destination may not be known. -/
def base? (l : Location) (s : Situation) : Option Point :=
  match l.anchor with
  | .fixed p => some p
  | .origin => some s.origin
  | .destination => s.destination

/-- The point that a location names, if its anchor is known and the point exists. -/
def resolve (l : Location) (s : Situation) : Option Point :=
  (l.base? s).bind fun p => p.offset? l.dx (l.dy * s.colour.forward)

end Location

/-- A way to name pieces. -/
inductive Reference where
  /-- The piece standing on a location. -/
  | standing (l : Location)
  /-- The piece whose movement is evaluated. -/
  | mover
  /-- The mover of the latest ply, if it is still on the board. -/
  | lastMoved
  /-- The pieces strictly between two locations. -/
  | path (a b : Location)
  deriving DecidableEq, Repr

namespace Reference

/-- Whether the reference depends on the candidate destination. -/
def usesDestination : Reference → Bool
  | .standing l => l.usesDestination
  | .mover => false
  | .lastMoved => false
  | .path a b => a.usesDestination || b.usesDestination

/-- The pieces that a reference names, along the path if there is one. -/
def resolve (r : Reference) (s : Situation) : List PieceId :=
  match r with
  | .standing l => ((l.resolve s).bind s.board.on?).toList
  | .mover => [s.piece]
  | .lastMoved => ((s.lastPly.map (·.piece)).filter s.board.has).toList
  | .path a b =>
    match a.resolve s, b.resolve s with
    | some p, some q => (Path.between p q).interior.filterMap s.board.on?
    | _, _ => []

end Reference

end VariantChess
