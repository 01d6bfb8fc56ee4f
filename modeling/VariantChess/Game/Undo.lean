import VariantChess.Game.Update

/-!
# Undoing and redoing

Plies are taken back and played again as the log has recorded them. No rule is consulted but those
behind the threat maps, which are recomputed for volatile pieces once all plies are done. The status
comes from the log.
-/

namespace VariantChess

namespace Game

/-- Take back up to `n` plies, keeping them for redoing if `save` is set, and count them. -/
def undoPlies (save : Bool) : Nat → Game → Except Fault (Nat × Game)
  | 0, g => .ok (0, g)
  | n + 1, g =>
    let (entry, log) := if save then g.log.undo else g.log.drop
    let g := { g with log }
    match entry with
    | none => .ok (0, g)
    | some e => do
      let g ← g.revert e.ply
      let (count, g) ← undoPlies save n { g with turn := g.turn.other }
      return (count + 1, g)

/-- Take back up to `n` plies; the answer is `unchanged` when there was none. -/
def undo (g : Game) (n : Nat) (save : Bool) : Except Fault (Status × Game) := do
  let (count, g) ← undoPlies save n g
  if count = 0 then return (.unchanged, g)
  let g := g.refreshVolatile
  let status := (g.log.last?.map (·.status)).getD g.initial
  return (status, { g with status })

/-- Play up to `n` undone plies again, and count them. -/
def redoPlies : Nat → Game → Except Fault (Nat × Game)
  | 0, g => .ok (0, g)
  | n + 1, g =>
    let (entry, log) := g.log.redo
    let g := { g with log }
    match entry with
    | none => .ok (0, g)
    | some e => do
      let g ← g.apply e.ply
      let (count, g) ← redoPlies n { g with turn := g.turn.other, status := e.status }
      return (count + 1, g)

/-- Play up to `n` undone plies again; the answer is `unchanged` when there was none. -/
def redo (g : Game) (n : Nat) : Except Fault (Status × Game) := do
  let (count, g) ← redoPlies n g
  if count = 0 then return (.unchanged, g)
  let g := g.refreshVolatile
  return (g.status, g)

end Game

end VariantChess
