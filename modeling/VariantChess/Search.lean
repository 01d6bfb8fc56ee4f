import VariantChess.Game.Undo
import VariantChess.Score

/-!
# Searching for the best action

White maximises the score and black minimises it. A search commits an action, searches the position
it leads to and takes it back before it tries the next one. Alpha-beta pruning leaves out actions
that can no longer matter: a window holds the scores that both sides are already sure of, and once
it is empty the remaining actions are skipped.
-/

namespace VariantChess

/-- The settings of a search. -/
structure SearchConfig where
  /-- The depth at which `Search.bestAction` looks. -/
  depth : Nat := 3
  /-- The greatest depth that `Search.minimax` tries. -/
  maxDepth : Nat := 8
  deriving DecidableEq, Repr

/-- A search in progress: the game it plays on and the number of positions it has visited. -/
structure Search where
  game : Game
  nodes : Nat

/-- The scores that each side is already sure of. -/
structure Window where
  alpha : Score
  beta : Score
  deriving DecidableEq, Repr

namespace Window

/-- The window that excludes no score. -/
def full : Window := ⟨-Score.infinity, Score.infinity⟩

/-- The window after one side has found a score. -/
def narrow (w : Window) (maximising : Bool) (value : Score) : Window :=
  if maximising then { w with alpha := max w.alpha value } else { w with beta := min w.beta value }

/-- Whether no score lies inside the window. -/
def isClosed (w : Window) : Bool := w.beta ≤ w.alpha

end Window

namespace Search

/-- A way to score the position of a search within a window. -/
abbrev Scorer := Window → Search → Except Fault (Score × Search)

/-- A search that has not visited any position. -/
def of (g : Game) : Search := ⟨g, 0⟩

/-- Commit an action, score the position it leads to and take it back; a rejected action has no
score. -/
def tryAction (scorer : Scorer) (w : Window) (a : Action) (s : Search) :
    Except Fault (Option Score × Search) := do
  let (result, game) ← s.game.update a
  match result with
  | .error _ => return (none, ⟨game, s.nodes⟩)
  | .ok _ =>
    let (value, s) ← scorer w ⟨game, s.nodes⟩
    let (_, game) ← s.game.undo 1 false
    return (some value, ⟨game, s.nodes⟩)

/-- The better of two scores for the side that chooses. -/
def better (maximising : Bool) (a b : Score) : Score := if maximising then max a b else min a b

/-- The best score among some actions, each scored in turn until the window closes. -/
def scoreActions (scorer : Scorer) (maximising : Bool) :
    List Action → Score → Window → Search → Except Fault (Score × Search)
  | [], best, _, s => .ok (best, s)
  | a :: rest, best, w, s => do
    let (value, s) ← tryAction scorer w a s
    match value with
    | none => scoreActions scorer maximising rest best w s
    | some value =>
      let best := better maximising best value
      let w := w.narrow maximising value
      if w.isClosed then return (best, s) else scoreActions scorer maximising rest best w s

/-- The score of a position searched to a depth within a window. -/
def alphaBeta : Nat → Bool → Scorer
  | 0, _, _, s => .ok (s.game.evaluate, ⟨s.game, s.nodes + 1⟩)
  | depth + 1, maximising, w, s =>
    let nodes := s.nodes + 1
    if s.game.status.isTerminal then .ok (s.game.evaluate, ⟨s.game, nodes⟩)
    else do
      let (actions, game) ← s.game.legalActions
      if actions.isEmpty then return (game.evaluate, ⟨game, nodes⟩)
      let worst := if maximising then -Score.infinity else Score.infinity
      scoreActions (alphaBeta depth !maximising) maximising actions worst w ⟨game, nodes⟩

/-- Whether a score improves on the best one found so far. -/
def improves (greater : Bool) (best : Option (Action × Score)) (value : Score) : Bool :=
  match best with
  | none => true
  | some (_, b) => if greater then b < value else value < b

/-- The first action with the best score, each searched in turn within a narrowing window. -/
def chooseAction (scorer : Scorer) (greater : Bool) :
    List Action → Option (Action × Score) → Window → Search →
      Except Fault (Option (Action × Score) × Search)
  | [], best, _, s => .ok (best, s)
  | a :: rest, best, w, s => do
    let (value, s) ← tryAction scorer w a s
    match value with
    | none => chooseAction scorer greater rest best w s
    | some value =>
      if improves greater best value then
        chooseAction scorer greater rest (some (a, value)) (w.narrow greater value) s
      else chooseAction scorer greater rest best w s

/-- The best action of the side to move with its score, looking at least one ply deep. With
`greater` the highest score is best, otherwise the lowest; of equal scores the first action counts.
There is none when the side to move has no legal action. -/
def nextBest (s : Search) (depth : Nat) (greater : Bool) :
    Except Fault (Option (Action × Score) × Search) := do
  let (actions, game) ← s.game.legalActions
  chooseAction (alphaBeta (depth - 1) !greater) greater actions none .full ⟨game, s.nodes⟩

/-- The best action of the side to move at the configured depth. -/
def bestAction (s : Search) (config : SearchConfig) :
    Except Fault (Option (Action × Score) × Search) :=
  s.nextBest config.depth (s.game.turn = .white)

/-- Search the given depths one after the other until one of them proves the game decided. -/
def deepen (maximising : Bool) : List Nat → Score → Search → Except Fault (Score × Search)
  | [], value, s => .ok (value, s)
  | depth :: deeper, _, s => do
    let (value, s) ← alphaBeta depth maximising .full s
    if value.isWin then return (value, s) else deepen maximising deeper value s

/-- The score of the position for the side to move, searched to at least one and at most
`config.maxDepth` plies. -/
def minimax (s : Search) (config : SearchConfig) (depth : Nat) : Except Fault (Score × Search) :=
  let deepest := max (min depth config.maxDepth) 1
  deepen (s.game.turn = .white) (List.range' 1 deepest) s.game.evaluate s

end Search

end VariantChess
