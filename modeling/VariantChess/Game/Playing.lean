import VariantChess.Game.Planning

/-!
# Playing plies forwards and backwards

`Ply.play` and `Ply.takeBack` change a board as a ply records it. `Game.apply` and `Game.revert` do
the same to a game and bring its threat maps up to date.
-/

namespace VariantChess

namespace Ply

/-- Carry out the side effect of a ply whose mover has already arrived. -/
def playEffect (p : Ply) (b : Board) : Except Fault Board :=
  match p.effect with
  | none => .ok b
  | some (.relocate id _ target _) =>
    (b.move id target).map fun b => b.revise id ({ · with moved := true })
  | some (.remove id _) => b.lift id
  | some (.promote _ target) => .ok (b.revise p.piece ({ · with kind := target }))

/-- Play a ply on a board. -/
def play (p : Ply) (b : Board) : Except Fault Board := do
  let b ← match p.captured with
    | some id => b.lift id
    | none => .ok b
  let b ← b.move p.piece p.target
  p.playEffect (b.revise p.piece ({ · with moved := true }))

/-- Take the side effect of a ply back. -/
def takeBackEffect (p : Ply) (b : Board) : Except Fault Board :=
  match p.effect with
  | none => .ok b
  | some (.relocate id source _ first) =>
    (b.move id source).map fun b => b.revise id ({ · with moved := !first })
  | some (.remove id place) => b.place id place
  | some (.promote source _) => .ok (b.revise p.piece ({ · with kind := source }))

/-- Take a ply back on a board. -/
def takeBack (p : Ply) (b : Board) : Except Fault Board := do
  let b ← p.takeBackEffect b
  let b ← b.move p.piece p.source
  let b := b.revise p.piece ({ · with moved := !p.first })
  match p.captured with
  | some id => b.place id p.target
  | none => .ok b

end Ply

namespace Game

/-- Play a ply and bring the threat maps up to date. -/
def apply (g : Game) (ply : Ply) : Except Fault Game := do
  let affected := g.affected ply
  let board ← ply.play g.board
  return refresh { g with board } affected.members

/-- Take a ply back and bring the threat maps up to date. -/
def revert (g : Game) (ply : Ply) : Except Fault Game := do
  let affected := g.affected ply
  let board ← ply.takeBack g.board
  return refresh { g with board } affected.members

/-- Whether a planned ply keeps the mover's king out of check, found out by playing it and taking it
back. -/
def isLegal (g : Game) (ply : Ply) : Except Fault (Bool × Game) := do
  let colour := ((g.board.piece? ply.piece).map (·.colour)).getD g.turn
  let g ← g.apply ply
  let safe := !g.inCheck colour
  let g ← g.revert ply
  return (safe, g)

end Game

end VariantChess
