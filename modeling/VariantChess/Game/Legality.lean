import VariantChess.Game.Playing

/-!
# Legal plies

The legal plies of a piece are its planned plies that keep the own king out of check. They are found
by trying, so every function here returns the game together with its answer. Pieces are visited in
point order and the plies of a piece come in the order of its movements.
-/

namespace VariantChess

namespace Game

/-- The legal plies of a piece to the given targets; with `firstOnly` at most the first of them. -/
def legalPliesTo (id : PieceId) (firstOnly : Bool) :
    List Point → Game → Except Fault (List Ply × Game)
  | [], g => .ok ([], g)
  | target :: rest, g =>
    match g.plan? id target with
    | none => legalPliesTo id firstOnly rest g
    | some ply => do
      let (safe, g) ← g.isLegal ply
      if safe then
        if firstOnly then return ([ply], g)
        let (plies, g) ← legalPliesTo id firstOnly rest g
        return (ply :: plies, g)
      else legalPliesTo id firstOnly rest g

/-- The legal plies of a piece; with `firstOnly` at most the first of them. -/
def legalPliesOf (g : Game) (id : PieceId) (firstOnly : Bool) : Except Fault (List Ply × Game) :=
  legalPliesTo id firstOnly (g.destinations id) g

/-- The legal plies of some pieces, piece by piece. -/
def legalPliesOfAll : List PieceId → Game → Except Fault (List Ply × Game)
  | [], g => .ok ([], g)
  | id :: rest, g => do
    let (plies, g) ← g.legalPliesOf id false
    let (others, g) ← legalPliesOfAll rest g
    return (plies ++ others, g)

/-- The legal plies of a colour. -/
def legalPlies (g : Game) (c : Colour) : Except Fault (List Ply × Game) :=
  legalPliesOfAll (g.board.idsOf c) g

/-- Whether one of some pieces has a legal ply. -/
def anyLegal : List PieceId → Game → Except Fault (Bool × Game)
  | [], g => .ok (false, g)
  | id :: rest, g => do
    let (plies, g) ← g.legalPliesOf id true
    if plies.isEmpty then anyLegal rest g else return (true, g)

/-- Whether a colour has a legal ply. -/
def hasLegal (g : Game) (c : Colour) : Except Fault (Bool × Game) := anyLegal (g.board.idsOf c) g

/-- The legal actions of the side to move; none once the game is over. -/
def legalActions (g : Game) : Except Fault (List Action × Game) :=
  if g.status.isTerminal then .ok ([], g)
  else do
    let turn := g.turn
    let (plies, g) ← g.legalPlies turn
    return (plies.map fun p => ⟨turn, p.source, p.target⟩, g)

/-- The legal moves of a colour, indexed by point. -/
def moveMap (g : Game) (c : Colour) : Except Fault (MoveMap × Game) := do
  let (plies, g) ← g.legalPlies c
  return (.ofMoves (plies.map fun p => (p.piece, p.target)), g)

end Game

end VariantChess
