import VariantChess.Game.Undo

/-!
# Counting positions

`Game.perft` counts the sequences of legal actions of a given length. Every action but the last of a
sequence is committed and taken back, so that a correct count speaks for both.
-/

namespace VariantChess

namespace Game

/-- Sum up the counts below some actions, each committed and taken back in turn. -/
def sumOver (count : Game → Except Fault (Nat × Game)) :
    List Action → Game → Except Fault (Nat × Game)
  | [], g => .ok (0, g)
  | a :: rest, g => do
    let (result, g) ← g.update a
    match result with
    | .error _ => sumOver count rest g
    | .ok _ =>
      let (below, g) ← count g
      let (_, g) ← g.undo 1 false
      let (others, g) ← sumOver count rest g
      return (below + others, g)

/-- The number of sequences of legal actions of a given length. -/
def perft : Nat → Game → Except Fault (Nat × Game)
  | 0, g => .ok (1, g)
  | depth + 1, g => do
    let (actions, g) ← g.legalActions
    if depth = 0 then return (actions.length, g)
    sumOver (perft depth) actions g

/-- The same count taken root action by root action; a length of zero counts as one. -/
def perftByRoot (depth : Nat) (g : Game) : Except Fault (Nat × Game) := do
  let (actions, g) ← g.legalActions
  if depth ≤ 1 then return (actions.length, g)
  sumOver (perft (depth - 1)) actions g

end Game

end VariantChess
