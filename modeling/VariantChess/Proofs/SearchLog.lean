import VariantChess.Proofs.Actions
import VariantChess.Proofs.Frame
import VariantChess.Proofs.TakeBack

/-!
# What a search leaves of the log

A search or a count drops every ply that it commits. Dropping forgets what could be redone, so the
committed entries come out as they were, but the redo stack is empty as soon as one action has been
tried. For every game, whatever its pieces, the log is left alone or left with an empty redo stack.
With regular pieces the whole game is known: it is the one that was searched, with its redo stack
emptied exactly when the search looks at least one ply deep and there is an action to try.
-/

namespace VariantChess

namespace Game

variable {g₀ g h k : Game} {a : Action} {status : Status}

/-- The game with nothing to redo. -/
def settled (g : Game) : Game := { g with log := ⟨g.log.committed, []⟩ }

/-- What a search leaves of a game: the game, or the game with nothing to redo. -/
def Leaves (g h : Game) : Prop := h = g ∨ h = g.settled

namespace Leaves

theorem refl (g : Game) : g.Leaves g := .inl rfl

theorem trans (hgh : g.Leaves h) (hhk : h.Leaves k) : g.Leaves k := by
  rcases hgh with rfl | rfl
  · exact hhk
  · exact .inr (or_self_iff.1 hhk)

/-- The position is left as it is. -/
theorem samePosition (hgh : g.Leaves h) : g.SamePosition h := by
  rcases hgh with rfl | rfl
  · exact .refl h
  · exact ⟨rfl, rfl, rfl, rfl, rfl, rfl, rfl⟩

/-- A game that is left of one on a line is on the line. -/
theorem reached (hgh : g.Leaves h) (hg : Reached g₀ g) : Reached g₀ h := by
  rcases hgh with rfl | rfl
  · exact hg
  · exact ⟨⟨hg.line, g.onRecord, hg.line⟩, hg.status⟩

/-- An action that is accepted is accepted with the same outcome afterwards. -/
theorem update_eq_ok (hgh : g.Leaves h) (hupdate : g.update a = .ok (.ok status, k)) :
    h.update a = .ok (.ok status, k) := by
  rcases hgh with rfl | rfl
  · exact hupdate
  · exact (samePosition (.inr rfl)).update_eq_ok rfl rfl rfl hupdate

/-- When nothing can be redone in what is left, it is the settled game. -/
theorem eq_settled (hgh : g.Leaves h) (hundone : h.log.undone = []) : h = g.settled := by
  rcases hgh with rfl | rfl
  · rw [settled, ← hundone]
  · rfl

end Leaves

/-- Whatever a search does, the log is left alone or with nothing to redo. -/
theorem nesting_log :
    Nesting fun g h => h.log = g.log ∨ h.log = ⟨g.log.committed, []⟩ where
  refl _ := .inl rfl
  trans {g h k} hgh hhk := by
    rcases hgh with hgh | hgh <;> rw [hgh] at hhk
    · exact hhk
    · exact .inr (or_self_iff.1 hhk)
  legalActions hactions := .inl (SameFrame.tries.legalActions hactions).log
  rejected hupdate := by
    obtain ⟨_, -, hlog⟩ | ⟨_, _, hr, -⟩ := log_of_update hupdate
    · exact .inl hlog
    · cases hr
  accepted {g h k l a status answer} hupdate hbetween hundo := by
    obtain ⟨_, hr, -⟩ | ⟨ply, _, -, -, hlog⟩ := log_of_update hupdate
    · cases hr
    · have hcommitted : k.log.committed = h.log.committed := by
        rcases hbetween with hk | hk <;> rw [hk]
      exact .inr (by rw [log_of_undo_drop hundo, hcommitted, hlog, List.tail_cons])

/-- Dropping an action that has just been accepted gives back the settled game, also when the redo
stack has been emptied in between. -/
theorem Reached.undo_eq_settled (h₀ : g₀.Opening) (hg : Reached g₀ g)
    (hupdate : g.update a = .ok (.ok status, h)) (hk : h.Leaves k) :
    ∃ answer, k.undo 1 false = .ok (answer, g.settled) := by
  have hreached : Reached g₀ k := hk.reached (hg.update h₀ hupdate)
  obtain ⟨l, answer, hundo, hl, -⟩ := hreached.undo_eq_ok h₀ 1 false
  have hlog : l.log = ⟨g.log.committed, []⟩ := by
    obtain ⟨_, hr, -⟩ | ⟨ply, _, -, -, hlog⟩ := log_of_update hupdate
    · cases hr
    · rw [log_of_undo_drop hundo]
      rcases hk with rfl | rfl
      · rw [hlog, List.tail_cons]
      · rw [Game.settled, hlog, List.tail_cons]
  have heq : l = g.settled := by
    rw [hg.eq_of_committed hl (by rw [hlog]), hlog, Game.settled]
  exact ⟨answer, heq ▸ hundo⟩

/-- Looking ahead on a line leaves the game or the settled game. -/
theorem nesting_leaves (h₀ : g₀.Opening) : Nesting fun g h => Reached g₀ g → g.Leaves h where
  refl g _ := .refl g
  trans hgh hhk hg := (hgh hg).trans (hhk ((hgh hg).reached hg))
  legalActions hactions hg := .inl ((hg.kept h₀).legalActions_eq_ok hactions).1
  rejected hupdate hg := by
    obtain ⟨_, -, heq, -⟩ | ⟨_, _, hr, -⟩ := (hg.kept h₀).update_cases hupdate
    · exact .inl heq
    · cases hr
  accepted hupdate hbetween hundo hg := by
    have hk := hbetween (hg.update h₀ hupdate)
    obtain ⟨_, hok⟩ := hg.undo_eq_settled h₀ hupdate hk
    exact .inr (Prod.mk.inj (Except.ok.inj (hundo.symm.trans hok))).2

/-- A listed action is accepted. -/
theorem Kept.accepted_of_legalActions (hk : g.Kept) {actions : List Action}
    (hactions : g.legalActions = .ok (actions, h)) (ha : a ∈ actions) {r : Except Rejection Status}
    (hupdate : g.update a = .ok (r, k)) : ∃ status, r = .ok status := by
  rw [(hk.legalActions_eq_ok hactions).2] at ha
  apply (hk.update_ok_iff hupdate).2
  split at ha
  · cases ha
  · next hover => exact ⟨Bool.eq_false_iff.2 hover, ha⟩

/-- What leaves the log alone or with nothing to redo has nothing to redo when it is given a game
with nothing to redo. -/
theorem undone_eq_nil (hlog : h.log = g.log ∨ h.log = ⟨g.log.committed, []⟩)
    (hundone : g.log.undone = []) : h.log.undone = [] := by
  rcases hlog with hlog | hlog
  · rw [hlog, hundone]
  · rw [hlog]

section Emptied

open Search

variable {s s' : Search} {w : Window} {actions : List Action} (hk : s.game.Kept)
  (hlisted : s.game.legalActions = .ok (actions, h)) (hsome : actions ≠ [])
include hk hlisted

/-- Trying a listed action gives a score and leaves nothing to redo. -/
theorem Kept.undone_of_tryAction {scorer : Scorer} (ha : a ∈ actions) {value : Option Score}
    (htry : tryAction scorer w a s = .ok (value, s')) : s'.game.log.undone = [] := by
  obtain ⟨⟨r, game⟩, hupdate, hrest⟩ := bind_eq_ok_iff.1 htry
  obtain ⟨status, rfl⟩ := hk.accepted_of_legalActions hlisted ha hupdate
  obtain ⟨⟨v, s₁⟩, -, hrest⟩ := bind_eq_ok_iff.1 hrest
  obtain ⟨⟨answer, game'⟩, hundo, hanswer⟩ := bind_eq_ok_iff.1 hrest
  obtain ⟨rfl, rfl⟩ := Prod.mk.inj (Except.ok.inj hanswer)
  exact congrArg Log.undone (log_of_undo_drop hundo)

include hsome

/-- Scoring the listed actions leaves nothing to redo. -/
theorem Kept.undone_of_scoreActions {depth : Nat} {m maximising : Bool} {best value : Score}
    (h' : scoreActions (alphaBeta depth m) maximising actions best w s = .ok (value, s')) :
    s'.game.log.undone = [] := by
  obtain ⟨a, rest, rfl⟩ := List.exists_cons_of_ne_nil hsome
  obtain ⟨⟨score, s₁⟩, htry, hrest⟩ := bind_eq_ok_iff.1 h'
  have hs₁ := hk.undone_of_tryAction hlisted List.mem_cons_self htry
  cases score with
  | none => exact undone_eq_nil (nesting_log.scoreActions (nesting_log.alphaBeta depth m) hrest) hs₁
  | some score =>
    dsimp only at hrest
    split at hrest
    · obtain ⟨rfl, rfl⟩ := Prod.mk.inj (Except.ok.inj hrest)
      exact hs₁
    · exact undone_eq_nil (nesting_log.scoreActions (nesting_log.alphaBeta depth m) hrest) hs₁

/-- Choosing among the listed actions leaves nothing to redo. -/
theorem Kept.undone_of_chooseAction {depth : Nat} {m greater : Bool}
    {best choice : Option (Action × Score)}
    (h' : chooseAction (alphaBeta depth m) greater actions best w s = .ok (choice, s')) :
    s'.game.log.undone = [] := by
  obtain ⟨a, rest, rfl⟩ := List.exists_cons_of_ne_nil hsome
  obtain ⟨⟨score, s₁⟩, htry, hrest⟩ := bind_eq_ok_iff.1 h'
  have hs₁ := hk.undone_of_tryAction hlisted List.mem_cons_self htry
  cases score with
  | none => exact undone_eq_nil (nesting_log.chooseAction (nesting_log.alphaBeta depth m) hrest) hs₁
  | some score =>
    dsimp only at hrest
    split at hrest
    · exact undone_eq_nil (nesting_log.chooseAction (nesting_log.alphaBeta depth m) hrest) hs₁
    · exact undone_eq_nil (nesting_log.chooseAction (nesting_log.alphaBeta depth m) hrest) hs₁

theorem Kept.undone_of_nextBest {depth : Nat} {greater : Bool}
    {choice : Option (Action × Score)}
    (h' : s.nextBest depth greater = .ok (choice, s')) : s'.game.log.undone = [] := by
  obtain ⟨⟨actions', game⟩, hactions, hrest⟩ := bind_eq_ok_iff.1 h'
  obtain ⟨rfl, -⟩ := hk.legalActions_eq_ok hactions
  obtain ⟨rfl, -⟩ := Prod.mk.inj (Except.ok.inj (hlisted.symm.trans hactions))
  exact hk.undone_of_chooseAction (s := ⟨s.game, s.nodes⟩) hlisted hsome hrest

/-- Searching at least one ply deep leaves nothing to redo when there is an action. -/
theorem Kept.undone_of_alphaBeta {depth : Nat} {maximising : Bool} {value : Score}
    (h' : alphaBeta (depth + 1) maximising w s = .ok (value, s')) : s'.game.log.undone = [] := by
  obtain ⟨rfl, hactions⟩ := hk.legalActions_eq_ok hlisted
  rw [alphaBeta] at h'
  dsimp only at h'
  split at h'
  · next hover => exact absurd (hactions.trans (if_pos hover)) hsome
  · rw [hlisted] at h'
    change (if actions.isEmpty then _ else _) = _ at h'
    rw [if_neg (by rwa [List.isEmpty_iff])] at h'
    exact hk.undone_of_scoreActions (s := ⟨s.game, s.nodes + 1⟩) hlisted hsome h'

end Emptied

/-- Counting below the listed actions leaves nothing to redo. -/
theorem Kept.undone_of_sumOver (hk : g.Kept) {actions : List Action}
    (hlisted : g.legalActions = .ok (actions, k)) (hsome : actions ≠ []) {depth n : Nat}
    (hsum : sumOver (perft depth) actions g = .ok (n, h)) : h.log.undone = [] := by
  obtain ⟨a, rest, rfl⟩ := List.exists_cons_of_ne_nil hsome
  obtain ⟨⟨r, g₁⟩, hupdate, hrest⟩ := bind_eq_ok_iff.1 hsum
  obtain ⟨status, rfl⟩ := hk.accepted_of_legalActions hlisted List.mem_cons_self hupdate
  obtain ⟨⟨below, g₂⟩, -, hrest⟩ := bind_eq_ok_iff.1 hrest
  obtain ⟨⟨answer, g₃⟩, hundo, hrest⟩ := bind_eq_ok_iff.1 hrest
  obtain ⟨⟨others, g₄⟩, hothers, hanswer⟩ := bind_eq_ok_iff.1 hrest
  obtain ⟨rfl, rfl⟩ := Prod.mk.inj (Except.ok.inj hanswer)
  have hg₃ : g₃.log.undone = [] := congrArg Log.undone (log_of_undo_drop hundo)
  exact undone_eq_nil (nesting_log.sumOver (nesting_log.perft depth) hothers) hg₃

section Idle

open Search

variable {s s' : Search} {w : Window}

/-- Without an action a search of any depth leaves the game as it is. -/
theorem game_of_alphaBeta_nil (hlisted : s.game.legalActions = .ok ([], s.game)) {depth : Nat}
    {maximising : Bool} {value : Score}
    (h' : alphaBeta depth maximising w s = .ok (value, s')) : s'.game = s.game := by
  cases depth with
  | zero =>
    obtain ⟨rfl, rfl⟩ := Prod.mk.inj (Except.ok.inj h')
    rfl
  | succ depth =>
    rw [alphaBeta] at h'
    dsimp only at h'
    split at h'
    · obtain ⟨rfl, rfl⟩ := Prod.mk.inj (Except.ok.inj h')
      rfl
    · rw [hlisted] at h'
      obtain ⟨rfl, rfl⟩ := Prod.mk.inj (Except.ok.inj h')
      rfl

/-- Without an action a search of several depths leaves the game as it is. -/
theorem game_of_deepen_nil (hlisted : s.game.legalActions = .ok ([], s.game)) {depths : List Nat}
    {maximising : Bool} {best value : Score}
    (h' : deepen maximising depths best s = .ok (value, s')) : s'.game = s.game := by
  induction depths generalizing best s with
  | nil =>
    obtain ⟨rfl, rfl⟩ := Prod.mk.inj (Except.ok.inj h')
    rfl
  | cons depth deeper ih =>
    obtain ⟨⟨score, s₁⟩, hscore, hrest⟩ := bind_eq_ok_iff.1 h'
    have hs₁ : s₁.game = s.game := game_of_alphaBeta_nil hlisted hscore
    dsimp only at hrest
    split at hrest
    · obtain ⟨rfl, rfl⟩ := Prod.mk.inj (Except.ok.inj hrest)
      exact hs₁
    · rw [← hs₁] at hlisted
      exact (ih hlisted hrest).trans hs₁

theorem game_of_nextBest_nil (hlisted : s.game.legalActions = .ok ([], s.game)) {depth : Nat}
    {greater : Bool} {choice : Option (Action × Score)}
    (h' : s.nextBest depth greater = .ok (choice, s')) : s'.game = s.game := by
  obtain ⟨⟨actions, game⟩, hactions, hrest⟩ := bind_eq_ok_iff.1 h'
  obtain ⟨rfl, rfl⟩ := Prod.mk.inj (Except.ok.inj (hlisted.symm.trans hactions))
  obtain ⟨rfl, rfl⟩ := Prod.mk.inj (Except.ok.inj hrest)
  rfl

end Idle

/-- There is nothing to redo in a settled game. -/
theorem redo_settled (g : Game) (n : Nat) : g.settled.redo n = .ok (.unchanged, g.settled) := by
  cases n <;> rfl

variable {o : Operation} {n : Nat} {actions : List Action}

/-- An operation that commits no ply, for want of depth or of actions, leaves the game as it is. -/
theorem game_of_perform_idle (hlisted : g.legalActions = .ok (actions, g))
    (ho : o.lookahead = some n) (hidle : n = 0 ∨ actions = []) (hperform : o.perform g = .ok h) :
    h = g := by
  cases o with
  | nextBest depth greater =>
    obtain ⟨⟨choice, s⟩, hop, rfl⟩ := map_eq_ok_iff.1 hperform
    have hn : max depth 1 = n := Option.some.inj ho
    obtain rfl : actions = [] := hidle.resolve_left (by omega)
    exact game_of_nextBest_nil (s := .of g) hlisted hop
  | bestAction config =>
    obtain ⟨⟨choice, s⟩, hop, rfl⟩ := map_eq_ok_iff.1 hperform
    have hn : max config.depth 1 = n := Option.some.inj ho
    obtain rfl : actions = [] := hidle.resolve_left (by omega)
    exact game_of_nextBest_nil (s := .of g) hlisted hop
  | minimax config depth =>
    obtain ⟨⟨value, s⟩, hop, rfl⟩ := map_eq_ok_iff.1 hperform
    have hn : max (min depth config.maxDepth) 1 = n := Option.some.inj ho
    obtain rfl : actions = [] := hidle.resolve_left (by omega)
    exact game_of_deepen_nil (s := .of g) hlisted hop
  | perft depth =>
    obtain ⟨⟨count, g'⟩, hop, rfl⟩ := map_eq_ok_iff.1 hperform
    have hn : depth - 1 = n := Option.some.inj ho
    cases depth with
    | zero =>
      obtain ⟨rfl, rfl⟩ := Prod.mk.inj (Except.ok.inj hop)
      rfl
    | succ depth =>
      obtain ⟨⟨actions', game⟩, hactions, hrest⟩ := bind_eq_ok_iff.1 hop
      obtain ⟨rfl, rfl⟩ := Prod.mk.inj (Except.ok.inj (hlisted.symm.trans hactions))
      dsimp only at hrest
      split at hrest
      · obtain ⟨rfl, rfl⟩ := Prod.mk.inj (Except.ok.inj hrest)
        rfl
      · obtain rfl : actions = [] := hidle.resolve_left (by omega)
        obtain ⟨rfl, rfl⟩ := Prod.mk.inj (Except.ok.inj hrest)
        rfl
  | perftByRoot depth =>
    obtain ⟨⟨count, g'⟩, hop, rfl⟩ := map_eq_ok_iff.1 hperform
    have hn : depth - 1 = n := Option.some.inj ho
    obtain ⟨⟨actions', game⟩, hactions, hrest⟩ := bind_eq_ok_iff.1 hop
    obtain ⟨rfl, rfl⟩ := Prod.mk.inj (Except.ok.inj (hlisted.symm.trans hactions))
    dsimp only at hrest
    split at hrest
    · obtain ⟨rfl, rfl⟩ := Prod.mk.inj (Except.ok.inj hrest)
      rfl
    · obtain rfl : actions = [] := hidle.resolve_left (by omega)
      obtain ⟨rfl, rfl⟩ := Prod.mk.inj (Except.ok.inj hrest)
      rfl
  | _ => cases ho

/-- An operation that looks at least one ply deep and finds an action leaves nothing to redo. -/
theorem Kept.undone_of_perform (hk : g.Kept) (hlisted : g.legalActions = .ok (actions, g))
    (ho : o.lookahead = some n) (hn : n ≠ 0) (hsome : actions ≠ [])
    (hperform : o.perform g = .ok h) : h.log.undone = [] := by
  cases o with
  | nextBest depth greater =>
    obtain ⟨⟨choice, s⟩, hop, rfl⟩ := map_eq_ok_iff.1 hperform
    exact hk.undone_of_nextBest (s := .of g) hlisted hsome hop
  | bestAction config =>
    obtain ⟨⟨choice, s⟩, hop, rfl⟩ := map_eq_ok_iff.1 hperform
    exact hk.undone_of_nextBest (s := .of g) hlisted hsome hop
  | minimax config depth =>
    obtain ⟨⟨value, s⟩, hop, rfl⟩ := map_eq_ok_iff.1 hperform
    obtain ⟨deepest, hdeepest⟩ : ∃ m, max (min depth config.maxDepth) 1 = m + 1 :=
      Nat.exists_eq_add_one.2 (by omega)
    rw [Search.minimax, hdeepest, List.range'_succ] at hop
    obtain ⟨⟨score, s₁⟩, hscore, hrest⟩ := bind_eq_ok_iff.1 hop
    have hs₁ := hk.undone_of_alphaBeta (s := .of g) hlisted hsome hscore
    dsimp only at hrest
    split at hrest
    · obtain ⟨rfl, rfl⟩ := Prod.mk.inj (Except.ok.inj hrest)
      exact hs₁
    · exact undone_eq_nil (nesting_log.deepen hrest) hs₁
  | perft depth =>
    obtain ⟨⟨count, g'⟩, hop, rfl⟩ := map_eq_ok_iff.1 hperform
    have hdepth : depth - 1 = n := Option.some.inj ho
    obtain ⟨depth, rfl⟩ : ∃ m, depth = m + 1 := Nat.exists_eq_add_one.2 (by omega)
    obtain ⟨⟨actions', game⟩, hactions, hrest⟩ := bind_eq_ok_iff.1 hop
    obtain ⟨rfl, rfl⟩ := Prod.mk.inj (Except.ok.inj (hlisted.symm.trans hactions))
    dsimp only at hrest
    rw [if_neg (by omega)] at hrest
    exact hk.undone_of_sumOver hlisted hsome hrest
  | perftByRoot depth =>
    obtain ⟨⟨count, g'⟩, hop, rfl⟩ := map_eq_ok_iff.1 hperform
    have hdepth : depth - 1 = n := Option.some.inj ho
    obtain ⟨⟨actions', game⟩, hactions, hrest⟩ := bind_eq_ok_iff.1 hop
    obtain ⟨rfl, rfl⟩ := Prod.mk.inj (Except.ok.inj (hlisted.symm.trans hactions))
    dsimp only at hrest
    rw [if_neg (by omega)] at hrest
    exact hk.undone_of_sumOver hlisted hsome hrest
  | _ => cases ho

variable {set : PieceSet} {layout : List Char} {config : GameConfig} {ops : List Operation}

/-- A search or a count takes back what it commits, so it keeps the committed entries of any game,
but it drops them, so the redo stack is kept or emptied. With regular pieces a game of a run comes
out as it was when the operation commits no ply, for want of depth or of actions; otherwise it comes
out with nothing to redo and is the same in everything else. -/
theorem log_of_lookahead (ho : o.lookahead = some n) (hperform : o.perform g = .ok h) :
    (h.log = g.log ∨ h.log = ⟨g.log.committed, []⟩) ∧
      (set.Regular → start set layout config = .ok g₀ → g₀.run ops = .ok g →
        g.legalActions = .ok (actions, k) →
          if n = 0 ∨ actions = [] then h = g
          else h = { g with log := ⟨g.log.committed, []⟩ } ∧
            ∀ m, h.redo m = .ok (.unchanged, h)) := by
  refine ⟨nesting_log.perform ho hperform, fun hset hstart hrun hactions => ?_⟩
  have h₀ := opening_of_regular hset hstart
  have hg := h₀.reached_of_run hrun
  have hk := hg.kept h₀
  obtain ⟨rfl, -⟩ := hk.legalActions_eq_ok hactions
  split
  · next hidle => exact game_of_perform_idle hactions ho hidle hperform
  · next htried =>
    rw [not_or] at htried
    have hundone := hk.undone_of_perform hactions ho htried.1 htried.2 hperform
    obtain rfl := ((nesting_leaves h₀).perform ho hperform hg).eq_settled hundone
    exact ⟨rfl, redo_settled k⟩

/-- An operation that is computed to succeed after some others leads to some game, and the games pass
a test that is computed as well. -/
theorem exists_performed (set : PieceSet) (layout : List Char) (config : GameConfig)
    (ops : List Operation) (o : Operation) (test : Game → Game → Bool)
    (h : (start set layout config).toOption.any fun g₀ => (g₀.run ops).toOption.any fun g =>
      (o.perform g).toOption.any fun h => test g h) :
    ∃ g₀ g h, start set layout config = .ok g₀ ∧ g₀.run ops = .ok g ∧ o.perform g = .ok h ∧
      test g h := by
  obtain ⟨g₀, hstart, h⟩ := (Option.any_eq_true _ _).1 h
  obtain ⟨g, hrun, h⟩ := (Option.any_eq_true _ _).1 h
  obtain ⟨g', hperform, htest⟩ := (Option.any_eq_true _ _).1 h
  rw [toOption_eq_some_iff] at hstart hrun hperform
  exact ⟨g₀, g, g', hstart, hrun, hperform, htest⟩

/-- A rook can give a check that it has taken back once more, and then the game is searched one ply
deep. -/
theorem exists_searched_small : ∃ g₀ g h,
    start .orthodox "w wKa1 wRb1 bKc3".toList smallConfig = .ok g₀ ∧
      g₀.run [.update ⟨.white, .ofCoords 1 0, .ofCoords 1 2⟩, .undo 1 true] = .ok g ∧
      (Operation.nextBest 1 true).perform g = .ok h ∧
      g.legalActions.toOption.any (·.1 ≠ []) ∧ (g.redo 1).toOption.any (·.1 ≠ .unchanged) ∧
      (h.redo 1).toOption.any (·.1 = .unchanged) := by
  obtain ⟨g₀, g, h, hstart, hrun, hperform, htest⟩ :=
    exists_performed .orthodox "w wKa1 wRb1 bKc3".toList smallConfig
      [.update ⟨.white, .ofCoords 1 0, .ofCoords 1 2⟩, .undo 1 true] (.nextBest 1 true)
      (fun g h => g.legalActions.toOption.any (·.1 ≠ []) &&
        (g.redo 1).toOption.any (·.1 ≠ .unchanged) &&
        (h.redo 1).toOption.any (·.1 = .unchanged)) (by decide +kernel)
  rw [Bool.and_eq_true, Bool.and_eq_true, and_assoc] at htest
  exact ⟨g₀, g, h, hstart, hrun, hperform, htest⟩

/-- After the search the game has nothing to redo and is the same in everything else. -/
theorem log_of_lookahead_small : ∃ g₀ g h,
    start .orthodox "w wKa1 wRb1 bKc3".toList smallConfig = .ok g₀ ∧
      g₀.run [.update ⟨.white, .ofCoords 1 0, .ofCoords 1 2⟩, .undo 1 true] = .ok g ∧
      (Operation.nextBest 1 true).perform g = .ok h ∧
      h = { g with log := ⟨g.log.committed, []⟩ } ∧ ∀ m, h.redo m = .ok (.unchanged, h) := by
  obtain ⟨g₀, g, h, hstart, hrun, hperform, hactions, -, -⟩ := exists_searched_small
  obtain ⟨⟨actions, k⟩, hlisted, hsome⟩ := (Option.any_eq_true _ _).1 hactions
  rw [toOption_eq_some_iff] at hlisted
  have hlog := (log_of_lookahead rfl hperform).2 regular_orthodox hstart hrun hlisted
  rw [if_neg (by simpa using hsome)] at hlog
  exact ⟨g₀, g, h, hstart, hrun, hperform, hlog⟩

/-- The rook could give its check again before the search, and no more after it. -/
theorem redo_of_nextBest_small : ∃ g₀ g h status k k',
    start .orthodox "w wKa1 wRb1 bKc3".toList smallConfig = .ok g₀ ∧
      g₀.run [.update ⟨.white, .ofCoords 1 0, .ofCoords 1 2⟩, .undo 1 true] = .ok g ∧
      (Operation.nextBest 1 true).perform g = .ok h ∧
      g.redo 1 = .ok (status, k) ∧ status ≠ .unchanged ∧ h.redo 1 = .ok (.unchanged, k') := by
  obtain ⟨g₀, g, h, hstart, hrun, hperform, -, hbefore, hafter⟩ := exists_searched_small
  obtain ⟨⟨status, k⟩, hredo, hstatus⟩ := (Option.any_eq_true _ _).1 hbefore
  obtain ⟨⟨status', k'⟩, hredo', hstatus'⟩ := (Option.any_eq_true _ _).1 hafter
  rw [toOption_eq_some_iff] at hredo hredo'
  obtain rfl : status' = .unchanged := of_decide_eq_true hstatus'
  exact ⟨g₀, g, h, status, k, k', hstart, hrun, hperform, hredo, of_decide_eq_true hstatus,
    hredo'⟩

end Game

end VariantChess
