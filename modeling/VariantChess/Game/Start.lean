import VariantChess.Game.Verdict

/-!
# Starting a game

A game starts from a layout, with both threat maps computed from nothing. Its first status is the
verdict on the position, except that a game in which play can go on is pending and not ongoing.
-/

namespace VariantChess

/-- Why a game cannot be started. -/
inductive StartError where
  | layout (error : LayoutError)
  | fault (fault : Fault)
  deriving DecidableEq, Repr

namespace Game

/-- The identity of a colour's king on a board; a layout has at most one. -/
def findKing (b : Board) (c : Colour) : Option PieceId :=
  b.ids.find? fun id => (b.piece? id).any fun p => p.isKing && p.colour = c

/-- The table of the kings on a board holds the king of each colour. -/
theorem get_findKing (b : Board) (c : Colour) :
    Sides.get ⟨findKing b .white, findKing b .black⟩ c = findKing b c := by cases c <;> rfl

/-- The game on a board before its status is known. -/
def setUp (set : PieceSet) (config : GameConfig) (board : Board) (turn : Colour) : Game :=
  rebuild
    { board, pieceSet := set, log := .empty, threats := .both .empty,
      kings := ⟨findKing board .white, findKing board .black⟩, turn, status := .pending,
      initial := .pending, config }

/-- Start a game from a layout. -/
def start (set : PieceSet) (layout : List Char) (config : GameConfig) : Except StartError Game :=
  match Board.read set config.bounds layout with
  | .error e => .error (.layout e)
  | .ok (board, turn) =>
    match (setUp set config board turn).verdict turn.other with
    | .error e => .error (.fault e)
    | .ok (verdict, g) =>
      let status := if verdict = .ongoing then .pending else verdict
      .ok { g with status, initial := status }

end Game

end VariantChess
