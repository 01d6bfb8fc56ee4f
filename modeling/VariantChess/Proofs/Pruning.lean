import VariantChess.Proofs.PlainSearch

/-!
# Pruning leaves the score inside the window

A scorer agrees with a score of games when it finds the score of the searched game as far as its
window shows. When a scorer agrees with the scores of the games that the actions of a position lead
to, the loop over these actions agrees with the best of the scores: the window of each action is
narrowed by what the earlier ones have found, and the loop stops early only once nothing more can
count. By induction on the depth a pruned search of any depth agrees with the plain one.
-/

namespace VariantChess

/-- An open window between the sentinels of a search. -/
structure Window.Proper (w : Window) : Prop where
  alpha_ge : -Score.infinity ≤ w.alpha
  beta_le : w.beta ≤ Score.infinity
  isClosed_eq : w.isClosed = false

namespace Window

variable {w : Window} {m : Bool} {value : Score}

/-- The window that excludes no score is proper. -/
theorem proper_full : full.Proper := ⟨le_refl _, le_refl _, by decide⟩

/-- Narrowing a proper window leaves it proper while it is open. -/
theorem Proper.narrow (hw : w.Proper) (hopen : (w.narrow m value).isClosed = false) :
    (w.narrow m value).Proper := by
  refine ⟨?_, ?_, hopen⟩
  · cases m with
    | true => exact hw.alpha_ge.trans (le_max_left _ _)
    | false => exact hw.alpha_ge
  · cases m with
    | true => exact hw.beta_le
    | false => exact (min_le_left _ _).trans hw.beta_le

end Window

namespace Game

open Search

variable {g₀ g h : Game} {a : Action} {status : Status} {s s' : Search} {w : Window}
  {scorer : Scorer} {score : Game → Except Fault Score} {scored : List (Action × Score)}

/-- The scorer finds the score of a game on a line as far as its window shows. -/
def Agrees (g₀ : Game) (scorer : Scorer) (score : Game → Except Fault Score) : Prop :=
  ∀ {w s v s' value}, w.Proper → Reached g₀ s.game → scorer w s = .ok (v, s') →
    score s.game = .ok value → w.clamp v = w.clamp value

section Trying

variable (h₀ : g₀.Opening) (hg : Reached g₀ g) (hgame : g.Leaves s.game)
  (hkeep : Nesting.Scores (fun g h => Reached g₀ g → g.Leaves h) scorer)
include h₀ hg hgame hkeep

/-- Trying an action that is accepted scores the game that it leads to and leaves the settled
game. -/
theorem Reached.of_tryAction (hupdate : g.update a = .ok (.ok status, h)) {value : Option Score}
    (htry : tryAction scorer w a s = .ok (value, s')) : s'.game = g.settled ∧
      ∃ v s₁, value = some v ∧ scorer w ⟨h, s.nodes⟩ = .ok (v, s₁) := by
  have hsame : s.game.update a = .ok (.ok status, h) := hgame.update_eq_ok hupdate
  obtain ⟨⟨r, game⟩, hupdate', hrest⟩ := bind_eq_ok_iff.1 htry
  obtain ⟨rfl, rfl⟩ := Prod.mk.inj (Except.ok.inj (hsame.symm.trans hupdate'))
  obtain ⟨⟨v, s₁⟩, hscore, hrest⟩ := bind_eq_ok_iff.1 hrest
  obtain ⟨⟨answer, game'⟩, hundo, hanswer⟩ := bind_eq_ok_iff.1 hrest
  obtain ⟨rfl, rfl⟩ := Prod.mk.inj (Except.ok.inj hanswer)
  obtain ⟨_, hundo'⟩ := hg.undo_eq_settled h₀ hupdate (hkeep hscore (hg.update h₀ hupdate))
  exact ⟨(Prod.mk.inj (Except.ok.inj (hundo.symm.trans hundo'))).2, v, s₁, rfl, hscore⟩

/-- The loop over some actions agrees with the best of their scores. The invariant is that the
window is the one at the start, narrowed by the best score found so far. -/
theorem Reached.clamp_of_scoreActions (hscorer : Agrees g₀ scorer score)
    (hscored : Scored g₀ g score scored) {m : Bool} {best value : Score} (hw : w.Proper)
    (hopen : (w.narrow m best).isClosed = false)
    (h' : scoreActions scorer m (scored.map (·.1)) best (w.narrow m best) s = .ok (value, s')) :
    w.clamp value = w.clamp ((scored.map (·.2)).foldl (better m) best) := by
  induction scored generalizing best s with
  | nil =>
    obtain ⟨rfl, -⟩ := Prod.mk.inj (Except.ok.inj h')
    rfl
  | cons p rest ih =>
    rw [Scored, List.forall_mem_cons] at hscored
    obtain ⟨⟨status, h, hupdate, hh, hp⟩, hscored⟩ := hscored
    obtain ⟨⟨found, s₁⟩, htry, hrest⟩ := bind_eq_ok_iff.1 h'
    obtain ⟨hs₁, v, s₂, rfl, hscore⟩ := hg.of_tryAction h₀ hgame hkeep hupdate htry
    have hagrees := hscorer (hw.narrow hopen) hh hscore hp
    rw [Window.clamp_narrow hopen, Window.clamp_narrow hopen] at hagrees
    rw [List.map_cons, List.foldl_cons, ← Window.clamp_foldl _ hagrees]
    dsimp only at hrest
    rw [Window.narrow_narrow] at hrest
    split at hrest
    · next hclosed =>
      obtain ⟨rfl, -⟩ := Prod.mk.inj (Except.ok.inj hrest)
      exact (Window.clamp_foldl_of_closed hw.isClosed_eq hclosed _).symm
    · next hstill => exact ih (.inr hs₁) hscored (Bool.eq_false_iff.2 hstill) hrest

end Trying

/-- The score with which a side starts is no better than any score between the sentinels. -/
theorem better_worst {m : Bool} {v : Score} (hv : v.InRange) :
    better m (if m then -Score.infinity else Score.infinity) v = v := by
  cases m with
  | true => exact max_eq_right hv.1.le
  | false => exact min_eq_right hv.2.le

/-- The score with which a side starts does not narrow a proper window. -/
theorem narrow_worst {m : Bool} (hw : w.Proper) :
    w.narrow m (if m then -Score.infinity else Score.infinity) = w := by
  cases m with
  | true => exact congrArg (Window.mk · w.beta) (max_eq_left hw.alpha_ge)
  | false => exact congrArg (Window.mk w.alpha) (min_eq_left hw.beta_le)

/-- The pruned search of a game of chessmen agrees with the plain one, at every depth. -/
theorem agrees_alphaBeta (h₀ : g₀.Opening) (hg₀ : g₀.Standard) (depth : Nat) (maximising : Bool) :
    Agrees g₀ (alphaBeta depth maximising) (plainScore depth maximising) := by
  induction depth generalizing maximising with
  | zero =>
    intro w s v s' value _ _ hsearch hplain
    obtain ⟨rfl, -⟩ := Prod.mk.inj (Except.ok.inj hsearch)
    obtain rfl := Except.ok.inj hplain
    rfl
  | succ depth ih =>
    intro w s v s' value hw hs hsearch hplain
    obtain ⟨scored, hlisted, hscored⟩ := hs.exists_plainScored h₀ hg₀ depth !maximising
    rw [plainScore_succ hlisted fun p hp => hscored.scoreAfter_eq hp] at hplain
    obtain rfl := Except.ok.inj hplain
    rw [alphaBeta] at hsearch
    cases scored with
    | nil =>
      have hv : v = s.game.evaluate := by
        rw [hlisted] at hsearch
        dsimp only at hsearch
        split at hsearch
        · exact (Prod.mk.inj (Except.ok.inj hsearch)).1.symm
        · exact (Prod.mk.inj (Except.ok.inj hsearch)).1.symm
      rw [hv, List.map_nil, Score.best?_nil, Option.getD_none]
    | cons p rest =>
      have hover : ¬s.game.status.isTerminal := by
        intro hover
        rw [legalActions, if_pos hover] at hlisted
        cases hlisted
      have hrange : p.2.InRange := by
        obtain ⟨status, h, -, hh, hp⟩ := hscored p List.mem_cons_self
        exact hh.plainScore_inRange h₀ hg₀ hp
      rw [if_neg hover] at hsearch
      obtain ⟨⟨actions, game⟩, hactions, hloop⟩ := bind_eq_ok_iff.1 hsearch
      obtain ⟨rfl, rfl⟩ := Prod.mk.inj (Except.ok.inj (hlisted.symm.trans hactions))
      change scoreActions _ _ ((p :: rest).map (·.1)) _ _ _ = _ at hloop
      rw [← narrow_worst (m := maximising) hw] at hloop
      have hagrees := hs.clamp_of_scoreActions h₀ (s := ⟨s.game, s.nodes + 1⟩) (.refl _)
        ((nesting_leaves h₀).alphaBeta depth !maximising) (ih !maximising) hscored hw
        (by rw [narrow_worst hw]; exact hw.isClosed_eq) hloop
      rw [hagrees, List.map_cons, List.foldl_cons, better_worst hrange, Score.best?_cons,
        Option.getD_some]

/-- A pruned search leaves the game it was given, up to what can be redone. -/
theorem Reached.game_of_alphaBeta (h₀ : g₀.Opening) (hg : Reached g₀ g)
    (hgame : g.Leaves s.game) {depth : Nat} {maximising : Bool} {v : Score}
    (h : alphaBeta depth maximising w s = .ok (v, s')) : g.Leaves s'.game :=
  hgame.trans ((nesting_leaves h₀).alphaBeta depth maximising h (hgame.reached hg))

/-- In the full window a pruned search finds the plain score. -/
theorem Reached.value_of_alphaBeta (h₀ : g₀.Opening) (hg₀ : g₀.Standard) (hg : Reached g₀ g)
    (hgame : g.Leaves s.game) {depth : Nat} {maximising : Bool} {v value : Score}
    (hplain : plainScore depth maximising g = .ok value)
    (h : alphaBeta depth maximising .full s = .ok (v, s')) : v = value := by
  have hs : plainScore depth maximising s.game = .ok value :=
    (hgame.plainScore_eq h₀ hg₀ hg depth maximising).trans hplain
  have hagrees := agrees_alphaBeta h₀ hg₀ depth maximising Window.proper_full (hgame.reached hg) h hs
  obtain ⟨hlow, hhigh⟩ := hg.plainScore_inRange h₀ hg₀ hplain
  exact Window.eq_of_clamp_eq Window.proper_full.isClosed_eq hagrees hlow hhigh

end Game

end VariantChess
