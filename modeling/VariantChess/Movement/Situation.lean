import VariantChess.Board.Basic
import VariantChess.Ply
import VariantChess.ThreatMap

/-!
# Situations

A rule is evaluated for one piece in one position. A situation holds all that a rule may look at:
the board, the latest committed ply, the opponent's threats where they are known, the piece itself,
and the candidate destination while one is being judged.
-/

namespace VariantChess

/-- All that a rule may look at while it is evaluated for one piece. -/
structure Situation where
  board : Board
  lastPly : Option Ply
  /-- The opponent's threats; absent while threats themselves are being computed. -/
  opposing : Option ThreatMap
  piece : PieceId
  colour : Colour
  origin : Point
  /-- The candidate destination, if one is being judged. -/
  destination : Option Point

namespace Situation

/-- The situation of a piece that stands where its record says. -/
def of? (board : Board) (lastPly : Option Ply) (opposing : Option ThreatMap) (id : PieceId) :
    Option Situation :=
  (board.piece? id).map fun owner =>
    { board, lastPly, opposing, piece := id, colour := owner.colour, origin := owner.point,
      destination := none }

/-- The same situation with a candidate destination. -/
def heading (s : Situation) (p : Point) : Situation := { s with destination := some p }

end Situation

end VariantChess
