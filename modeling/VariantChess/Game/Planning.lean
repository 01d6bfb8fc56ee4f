import VariantChess.Game.Upkeep

/-!
# Planning plies

A plan turns a piece and a target into the ply of the first movement that reaches the target and
whose side effect can be carried out. Whether the ply leaves the own king in check is not asked
here.
-/

namespace VariantChess

namespace Game

/-- The points that a piece may move to over all its movements, each at its first occurrence. -/
def destinations (g : Game) (id : PieceId) : List Point :=
  match g.situation? id with
  | none => []
  | some s => ((g.movementsOf id).flatMap fun m => m.candidates s .moves).eraseDups

/-- The side effect that a follow-up comes to when the mover of `s` goes to `target`, if it can be
carried out. A relocated piece has to land on the board, on a point other than the target that is
free once the mover has left. -/
def sideEffect? (g : Game) (s : Situation) (target : Point) (f : FollowUp) : Option SideEffect :=
  let s := s.heading target
  match f with
  | .relocate source goal => do
    let source ← source.resolve s
    let goal ← goal.resolve s
    let id ← (g.board.on? source).filter (· ≠ s.piece)
    let piece ← g.board.piece? id
    let free := (g.board.on? goal).all fun other => other = s.piece || other = id
    if g.board.bounds.contains goal && goal ≠ target && free then
      some (.relocate id source goal !piece.moved)
    else none
  | .remove place => do
    let place ← (place.resolve s).filter (· ≠ target)
    let id ← (g.board.on? place).filter (· ≠ s.piece)
    some (.remove id place)
  | .promote m => do
    let piece ← g.board.piece? s.piece
    some (.promote piece.kind (.standard m))

/-- The ply that one movement makes of going to `target`, if it reaches it and its side effect can
be carried out. -/
def planBy? (g : Game) (s : Situation) (owner : Piece) (target : Point) (m : Movement) :
    Option Ply :=
  if (m.candidates s .moves).contains target then
    let ply (effect : Option SideEffect) : Ply :=
      { piece := s.piece, source := owner.point, target, captured := g.board.on? target,
        first := !owner.moved, effect }
    match m.followUp with
    | none => some (ply none)
    | some f => (g.sideEffect? s target f).map fun e => ply (some e)
  else none

/-- The ply that takes a piece to a target, by the first movement that can make it. -/
def plan? (g : Game) (id : PieceId) (target : Point) : Option Ply :=
  match g.board.piece? id, g.situation? id with
  | some owner, some s => (g.movementsOf id).findSome? (g.planBy? s owner target)
  | _, _ => none

end Game

end VariantChess
