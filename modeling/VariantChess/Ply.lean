import VariantChess.Piece.Basic

/-!
# Plies

A ply records what one half-move changes: enough to play it forwards and backwards without
consulting any rule. `touched` and `pieces` bound what it can change on a board.
-/

namespace VariantChess

/-- What a ply changes besides the step of its mover. -/
inductive SideEffect where
  /-- Another piece goes from one point to another; `first` tells whether it had not moved. -/
  | relocate (piece : PieceId) (source target : Point) (first : Bool)
  /-- Another piece is taken off a point other than the mover's target. -/
  | remove (piece : PieceId) (place : Point)
  /-- The mover changes its kind. -/
  | promote (source target : Kind)
  deriving DecidableEq, Repr

/-- What one half-move changes. -/
structure Ply where
  /-- The mover. -/
  piece : PieceId
  source : Point
  target : Point
  /-- The piece that stood on the target. -/
  captured : Option PieceId
  /-- Whether this is the mover's first move. -/
  first : Bool
  effect : Option SideEffect
  deriving DecidableEq, Repr

namespace Ply

/-- Every point whose occupant a ply changes. -/
def touched (p : Ply) : List Point :=
  [p.source, p.target] ++
    match p.effect with
    | some (.relocate _ source target _) => [source, target]
    | some (.remove _ place) => [place]
    | _ => []

/-- Every piece that a ply moves, takes or changes. -/
def pieces (p : Ply) : List PieceId :=
  p.piece :: p.captured.toList ++
    match p.effect with
    | some (.relocate id ..) => [id]
    | some (.remove id _) => [id]
    | _ => []

/-- The piece that a ply takes off the board, by its side effect or else by capture. -/
def taken (p : Ply) : Option PieceId :=
  match p.effect with
  | some (.remove id _) => some id
  | _ => p.captured

end Ply

end VariantChess
