import VariantChess.Game.Verdict

/-!
# Playing an action

An action is vetted, planned and played, and then taken back if it leaves the own king in check;
otherwise it is committed to the log and the status of the new position is stored. The game is
returned with a rejection too, since playing a ply and taking it back are changes of the game.
-/

namespace VariantChess

/-- Why an action is rejected. -/
inductive Rejection where
  /-- The game is over. -/
  | gameOver (status : Status)
  /-- The colour is not to move. -/
  | wrongTurn (c : Colour)
  /-- A point lies outside the board. -/
  | outside (p : Point)
  /-- Nothing stands on the source. -/
  | noPiece (p : Point)
  /-- The piece on the source belongs to the other side. -/
  | notOwn (p : Point)
  /-- No movement makes the ply. -/
  | noMovement (source target : Point)
  /-- The ply leaves the own king in check. -/
  | kingInCheck
  deriving DecidableEq, Repr

/-- The wording of a rejection. -/
def Rejection.message : Rejection → String
  | .gameOver s => s!"The game is already over: {s}"
  | .wrongTurn c => s!"It is not {c}'s turn"
  | .outside p => s!"{p} is outside the board"
  | .noPiece p => s!"There is no piece on {p}"
  | .notOwn p => s!"The piece on {p} belongs to the other side"
  | .noMovement p q => s!"No movement takes the piece on {p} to {q}"
  | .kingInCheck => "The move would leave the king in check"

namespace Game

/-- The planned ply of an action, or the reason why there is none. -/
def vet (g : Game) (a : Action) : Except Rejection Ply := do
  if g.status.isTerminal then throw (.gameOver g.status)
  if a.colour ≠ g.turn then throw (.wrongTurn a.colour)
  if !g.board.bounds.contains a.source then throw (.outside a.source)
  if !g.board.bounds.contains a.target then throw (.outside a.target)
  match g.board.on? a.source with
  | none => throw (.noPiece a.source)
  | some id =>
    if !g.board.owns g.turn id then throw (.notOwn a.source)
    match g.plan? id a.target with
    | none => throw (.noMovement a.source a.target)
    | some ply => return ply

/-- Commit a ply that has been played, and store the status it leads to. -/
def commit (g : Game) (ply : Ply) : Except Fault (Status × Game) := do
  let mover := g.turn
  let g := refreshVolatile { g with log := g.log.push ⟨ply, .ongoing⟩ }
  let (status, g) ← verdict { g with turn := mover.other } mover
  return (status, { g with log := g.log.amend status, status })

/-- Validate and commit an action. The game is returned with a rejection too. -/
def update (g : Game) (a : Action) : Except Fault (Except Rejection Status × Game) :=
  match g.vet a with
  | .error e => .ok (.error e, g)
  | .ok ply => do
    let g ← g.apply ply
    if g.inCheck g.turn then
      return (.error .kingInCheck, ← g.revert ply)
    else
      let (status, g) ← g.commit ply
      return (.ok status, g)

/-- Validate and commit an action, reporting every rejection as `unchanged`. -/
def submit (g : Game) (a : Action) : Except Fault (Status × Game) := do
  let (result, g) ← g.update a
  return (result.toOption.getD .unchanged, g)

end Game

end VariantChess
