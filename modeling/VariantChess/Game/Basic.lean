import VariantChess.Action
import VariantChess.Board.Layout
import VariantChess.Log

/-!
# Games

A game holds a board, the log of its plies, a threat map for each colour, the identities of the
kings, the side to move and the status. The threat maps are kept up to date with the board rather
than recomputed; how is the subject of `Game/Upkeep`. All that a game does is a function from a game
to a game, and what such a function rejects it returns with the game as well, since trying a ply and
taking it back is itself a sequence of changes.
-/

namespace VariantChess

/-- The settings of a game. -/
structure GameConfig where
  bounds : Bounds := .orthodox
  /-- Whether a board with nothing but two kings is a stalemate. -/
  bareKingsDraw : Bool := true
  deriving DecidableEq, Repr

/-- A game in progress. -/
structure Game where
  board : Board
  pieceSet : PieceSet
  log : Log
  threats : Sides ThreatMap
  kings : Sides (Option PieceId)
  turn : Colour
  status : Status
  /-- The status before the first ply of the log. -/
  initial : Status
  config : GameConfig
  deriving DecidableEq

namespace Game

/-- The point on which the king of a colour is recorded. -/
def king? (g : Game) (c : Colour) : Option Point :=
  ((g.kings.get c).bind g.board.piece?).map (·.point)

/-- Whether the king of a colour is threatened by the other side. -/
def inCheck (g : Game) (c : Colour) : Bool :=
  (g.king? c).any (g.threats.get c.other).threatens

/-- The latest committed ply. -/
def lastPly (g : Game) : Option Ply := g.log.last?.map (·.ply)

/-- The characters of the layout of a game: the side to move and the pieces in point order. -/
def text (g : Game) : List Char := g.turn.code :: ' ' :: g.board.text

/-- The situation of a piece, with the opponent's threats known. -/
def situation? (g : Game) (id : PieceId) : Option Situation :=
  (g.board.piece? id).bind fun owner =>
    Situation.of? g.board g.lastPly (some (g.threats.get owner.colour.other)) id

/-- The movements of a piece, in order of priority. -/
def movementsOf (g : Game) (id : PieceId) : List Movement :=
  ((g.board.piece? id).map fun p => g.pieceSet.movements p.kind).getD []

end Game

end VariantChess
