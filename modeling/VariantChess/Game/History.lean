import VariantChess.Game.Undo
import VariantChess.MoveText

/-!
# The history of a game

The history writes every committed ply with the kind that its mover had at the time. Kinds are not
stored in the log; they are found by walking back from the board through the promotions.
-/

namespace VariantChess

namespace Game

/-- Write the plies of a log, latest first in the argument and oldest first in the answer, given the
kinds that the pieces have after them. -/
def writePlies (kindOf : PieceId → Option Kind) : List LogEntry → List MoveText → List MoveText
  | [], written => written
  | e :: earlier, written =>
    let kindOf : PieceId → Option Kind :=
      match e.ply.effect with
      | some (.promote source _) => fun id => if id = e.ply.piece then some source else kindOf id
      | _ => kindOf
    let moves := (kindOf e.ply.piece).toList.map fun kind =>
      { kind, source := e.ply.source, target := e.ply.target, capture := e.ply.taken.isSome }
    writePlies kindOf earlier (moves ++ written)

/-- The written moves of every committed ply, oldest first. -/
def history (g : Game) : List MoveText :=
  writePlies (fun id => (g.board.piece? id).map (·.kind)) g.log.committed []

end Game

end VariantChess
