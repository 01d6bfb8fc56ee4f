import VariantChess.Proofs.Run

/-!
# Replaying a log

A game is determined by its committed log: playing the moves of the entries from the start, as
ordinary actions, is accepted throughout and gives the same game, whatever was undone, redone or
searched on the way. Only the redo stack is not recovered.
-/

namespace VariantChess

namespace Game

variable {g₀ g h : Game} {ops : List Operation} {set : PieceSet} {layout : List Char}
  {config : GameConfig}

/-- The game after the moves of some entries have been played in order, each as an action of the
side to move that has to be accepted. -/
def replay (g : Game) : List LogEntry → Option Game
  | [] => some g
  | e :: rest =>
    match g.update ⟨g.turn, e.ply.source, e.ply.target⟩ with
    | .ok (.ok _, h) => replay h rest
    | _ => none

/-- Replaying a log and then one more entry. -/
theorem replay_append_singleton {log : List LogEntry} {e : LogEntry} {status : Status}
    (hreplay : g₀.replay log = some g)
    (haccepted : g.update ⟨g.turn, e.ply.source, e.ply.target⟩ = .ok (.ok status, h)) :
    g₀.replay (log ++ [e]) = some h := by
  induction log generalizing g₀ with
  | nil =>
    obtain rfl := Option.some.inj hreplay
    rw [List.nil_append, replay, haccepted]
    rfl
  | cons first rest ih =>
    rw [List.cons_append, replay]
    rw [replay] at hreplay
    split at hreplay
    · exact ih hreplay
    · cases hreplay

/-- A line is replayed from its oldest entry. -/
theorem Line.replay_eq {log : List LogEntry} (hl : Line g₀ log h) :
    g₀.replay log.reverse = some h := by
  induction hl with
  | start => rfl
  | next earlier accepted logged ih =>
    rw [List.reverse_cons]
    exact replay_append_singleton ih accepted

/-- Every game of a run, from any layout and with any regular piece set, is recovered by replaying
its log on the game that the layout starts, but for the redo stack. -/
theorem replay_of_run (hset : set.Regular) (hstart : start set layout config = .ok g₀)
    (hrun : g₀.run ops = .ok g) :
    g₀.replay g.log.entries = some { g with log := ⟨g.log.committed, []⟩ } := by
  have hreached := (opening_of_regular hset hstart).reached_of_run hrun
  have hrecord : g.onRecord = { g with log := ⟨g.log.committed, []⟩ } := by
    rw [onRecord, ← hreached.status]
  rw [← hrecord]
  exact hreached.line.replay_eq

/-- A rook gives check, goes back and gives check again, and then a search runs. The log holds the one
check, and replaying it gives the game with the king in check. -/
theorem replay_of_run_small : ∃ g₀ g,
    start .orthodox "w wKa1 wRb1 bKc3".toList smallConfig = .ok g₀ ∧
      g₀.run [.update ⟨.white, .ofCoords 1 0, .ofCoords 1 2⟩, .undo 1 true, .redo 1,
        .nextBest 1 true] = .ok g ∧
      g.log.entries.map (fun e => (e.ply.source, e.ply.target)) =
        [(.ofCoords 1 0, .ofCoords 1 2)] ∧
      g.inCheck .black ∧
      g₀.replay g.log.entries = some { g with log := ⟨g.log.committed, []⟩ } := by
  obtain ⟨g₀, g, hstart, hrun, htest⟩ :=
    exists_run_passing .orthodox "w wKa1 wRb1 bKc3".toList smallConfig
      [.update ⟨.white, .ofCoords 1 0, .ofCoords 1 2⟩, .undo 1 true, .redo 1, .nextBest 1 true]
      (fun _ g => decide (g.log.entries.map (fun e => (e.ply.source, e.ply.target)) =
        [(.ofCoords 1 0, .ofCoords 1 2)] ∧ g.inCheck .black))
      (by decide +kernel)
  obtain ⟨hmoves, hcheck⟩ := of_decide_eq_true htest
  exact ⟨g₀, g, hstart, hrun, hmoves, hcheck, replay_of_run regular_orthodox hstart hrun⟩

end Game

end VariantChess
