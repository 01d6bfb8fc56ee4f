import VariantChess.Game.Basic

/-!
# Upkeep of the threat maps

After a change of the board only some pieces are looked at again: those that the ply moves, takes or
changes, those that threatened a touched point before the change, and those with a volatile
movement. `Game.rebuild` computes both maps from nothing and is what the upkeep is measured against.
-/

namespace VariantChess

namespace Game

/-- The points that a piece threatens from where it stands, with repeats over its movements. -/
def reach (g : Game) (id : PieceId) : List Point :=
  match Situation.of? g.board g.lastPly none id with
  | none => []
  | some s => (g.movementsOf id).flatMap fun m => m.candidates s .threats

/-- Recompute the threats of one piece; a piece off the board threatens nothing. -/
def refreshPiece (g : Game) (id : PieceId) : Game :=
  match g.board.piece? id with
  | none => g
  | some owner =>
    let points := if g.board.has id then g.reach id else []
    { g with threats := g.threats.modify owner.colour (·.assign id points) }

/-- Recompute the threats of some pieces. -/
def refresh (g : Game) (ids : List PieceId) : Game := ids.foldl refreshPiece g

/-- Whether some movement of a piece is volatile. -/
def hasVolatile (g : Game) (id : PieceId) : Bool := (g.movementsOf id).any Movement.isVolatile

/-- The pieces on the board whose threats may change with the log alone. -/
def volatilePieces (g : Game) : List PieceId := g.board.ids.filter g.hasVolatile

/-- Recompute the threats that may depend on the log. -/
def refreshVolatile (g : Game) : Game := g.refresh g.volatilePieces

/-- The pieces whose threats a ply may change, as seen before the change. -/
def affected (g : Game) (ply : Ply) : OrderedSet PieceId :=
  OrderedSet.ofList <| ply.pieces ++
    (ply.touched.flatMap fun p =>
      (g.threats.white.threatsAt p).members ++ (g.threats.black.threatsAt p).members) ++
    g.volatilePieces

/-- Compute both threat maps from nothing. -/
def rebuild (g : Game) : Game := refresh { g with threats := .both .empty } g.board.ids

end Game

end VariantChess
