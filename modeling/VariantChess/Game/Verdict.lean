import VariantChess.Game.Legality

/-!
# The verdict after a ply

The status of a position is found from the defender's side. A checked king is mated when it has no
legal ply of its own and either several pieces give check or no other piece can take the attacker or
step between it and the king.
-/

namespace VariantChess

namespace Game

/-- Whether one of some pieces has a legal ply that goes to one of the targets or takes the
attacker. -/
def anyAnswers (targets : List Point) (attacker : PieceId) :
    List PieceId → Game → Except Fault (Bool × Game)
  | [], g => .ok (false, g)
  | id :: rest, g => do
    let (plies, g) ← g.legalPliesOf id false
    if plies.any fun p => targets.contains p.target || p.taken = some attacker then
      return (true, g)
    else anyAnswers targets attacker rest g

/-- Whether the checked king of the defender is mated. -/
def isMate (g : Game) (defender : Colour) : Except Fault (Bool × Game) :=
  match g.kings.get defender with
  | none => .ok (false, g)
  | some king => do
    let (escapes, g) ← g.legalPliesOf king true
    if !escapes.isEmpty then return (false, g)
    match g.king? defender with
    | none => return (false, g)
    | some kingPoint =>
      match ((g.threats.get defender.other).threatsAt kingPoint).members with
      | [attacker] =>
        match g.board.piece? attacker with
        | none => return (true, g)
        | some piece =>
          let targets := piece.point :: (Path.between piece.point kingPoint).interior
          let others := (g.board.idsOf defender).filter (· ≠ king)
          let (answered, g) ← anyAnswers targets attacker others g
          return (!answered, g)
      | _ => return (true, g)

/-- Whether nothing but two kings is left on the board. -/
def bareKings (g : Game) : Bool := g.board.count = 2 && g.board.pieces.all Piece.isKing

/-- The status after `mover` has played. -/
def verdict (g : Game) (mover : Colour) : Except Fault (Status × Game) :=
  let defender := mover.other
  if g.config.bareKingsDraw && g.bareKings then .ok (.stalemate, g)
  else if g.inCheck defender then do
    let (mate, g) ← g.isMate defender
    return (if mate then .won mover else .check defender, g)
  else do
    let (free, g) ← g.hasLegal defender
    return (if free then .ongoing else .stalemate, g)

end Game

end VariantChess
