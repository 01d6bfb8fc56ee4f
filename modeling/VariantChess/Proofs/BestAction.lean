import VariantChess.Proofs.Pruning

/-!
# The best action

At the root of a search the window excludes only the scores that are no better than the best one so
far. An action whose score is no better is told apart from one whose score is better, and the score
of the latter is exact, so the search ends with the first action that attains the best of the plain
scores.
-/

namespace VariantChess

open Search

section Choosing

variable {greater : Bool} {a b c v value : Score} {best : Option (Action × Score)}

/-- The best of two scored actions, the earlier one when their scores are equal. -/
def pick (greater : Bool) (best : Option (Action × Score)) (p : Action × Score) :
    Option (Action × Score) :=
  if improves greater best p.2 then some p else best

/-- The window that the best action so far leaves open. -/
def windowAbove (greater : Bool) : Option (Action × Score) → Window
  | none => .full
  | some p => Window.full.narrow greater p.2

/-- A score improves on another when the other is not the better of the two. -/
theorem improves_some_iff {p : Action × Score} :
    improves greater (some p) v ↔ better greater p.2 v ≠ p.2 := by
  cases greater with
  | true => simp [improves]
  | false => simp [improves]

/-- Picking the best action one by one finds the first one with the best of the scores. -/
theorem foldl_pick (greater : Bool) (b : Action × Score) (scored : List (Action × Score)) :
    scored.foldl (pick greater) (some b) = (b :: scored).find? fun p =>
      p.2 = (scored.map (·.2)).foldl (better greater) b.2 := by
  induction scored generalizing b with
  | nil => simp
  | cons p rest ih =>
    rw [List.foldl_cons, List.map_cons, List.foldl_cons, pick]
    have hbest := better_foldl greater (better greater b.2 p.2) (rest.map (·.2))
    split
    · next himproves =>
      rw [improves_some_iff] at himproves
      have hp : better greater b.2 p.2 = p.2 := (better_eq_or _ _ _).resolve_left himproves
      rw [ih p, hp, List.find?_cons_of_neg (a := b)]
      rw [hp] at hbest
      intro hb
      rw [decide_eq_true_eq] at hb
      apply himproves
      rw [← hb, better_comm] at hbest
      exact hbest
    · next hworse =>
      rw [improves_some_iff, not_not] at hworse
      rw [hworse] at hbest
      rw [ih b, hworse]
      by_cases hb : b.2 = (rest.map (·.2)).foldl (better greater) b.2
      · rw [List.find?_cons_of_pos (by simpa using hb), List.find?_cons_of_pos (by simpa using hb)]
      · have hp : p.2 ≠ (rest.map (·.2)).foldl (better greater) b.2 := by
          intro hp
          apply hb
          rw [← hp, hworse] at hbest
          rw [← hp, hbest]
        rw [List.find?_cons_of_neg (by simpa using hb), List.find?_cons_of_neg (by simpa using hb),
          List.find?_cons_of_neg (by simpa using hp)]

/-- Nothing is picked exactly when there is nothing to pick from. -/
theorem foldl_pick_eq_none_iff {scored : List (Action × Score)} :
    scored.foldl (pick greater) none = none ↔ scored = [] := by
  cases scored with
  | nil => simp
  | cons b rest =>
    have hattained : (rest.map (·.2)).foldl (better greater) b.2 ∈ (b :: rest).map (·.2) :=
      Score.mem_of_best? (Score.best?_cons greater b.2 (rest.map (·.2)))
    obtain ⟨p, hp, hvalue⟩ := List.mem_map.1 hattained
    rw [List.foldl_cons, pick, improves, if_pos rfl, foldl_pick, List.find?_eq_none]
    simp only [reduceCtorEq, iff_false, not_forall, not_not]
    exact ⟨p, hp, by simpa using hvalue⟩

/-- The picked action is the first one with the best of the scores. -/
theorem of_foldl_pick {scored : List (Action × Score)} {p : Action × Score}
    (h : scored.foldl (pick greater) none = some p) :
    Score.best? greater (scored.map (·.2)) = some p.2 ∧
      ∃ before after, scored = before ++ p :: after ∧ ∀ q ∈ before, q.2 ≠ p.2 := by
  cases scored with
  | nil => cases h
  | cons b rest =>
    rw [List.foldl_cons, pick, improves, if_pos rfl, foldl_pick,
      List.find?_eq_some_iff_append] at h
    obtain ⟨hvalue, before, after, hsplit, hbefore⟩ := h
    rw [decide_eq_true_eq] at hvalue
    rw [List.map_cons, Score.best?_cons, hvalue]
    exact ⟨rfl, before, after, hsplit, fun q hq => by simpa using hbefore q hq⟩

/-- Where the best action so far excludes the scores that are no better, the window ends at its
score. -/
theorem windowAbove_some {p : Action × Score} (hp : p.2.InRange) : windowAbove greater (some p) =
    if greater then ⟨p.2, Score.infinity⟩ else ⟨-Score.infinity, p.2⟩ := by
  cases greater with
  | true => exact congrArg (Window.mk · Score.infinity) (max_eq_right hp.1.le)
  | false => exact congrArg (Window.mk (-Score.infinity)) (min_eq_right hp.2.le)

/-- The window that the best action so far leaves is open. -/
theorem proper_windowAbove (hbest : ∀ p, best = some p → p.2.InRange) :
    (windowAbove greater best).Proper := by
  cases best with
  | none => exact Window.proper_full
  | some p =>
    have hp := hbest p rfl
    rw [windowAbove_some hp]
    cases greater with
    | true => exact ⟨hp.1.le, le_refl _, Window.isClosed_eq_false_iff.2 hp.2⟩
    | false => exact ⟨le_refl _, hp.2.le, Window.isClosed_eq_false_iff.2 hp.1⟩

/-- A score that agrees with another in the window that the best action so far leaves improves on
that action when the other does, and is the other then. -/
theorem improves_of_clamp_eq (hbest : ∀ p, best = some p → p.2.InRange) (hvalue : value.InRange)
    (h : (windowAbove greater best).clamp v = (windowAbove greater best).clamp value) :
    (improves greater best v ↔ improves greater best value) ∧
      (improves greater best value → v = value) := by
  have hopen : (windowAbove greater best).isClosed = false := (proper_windowAbove hbest).isClosed_eq
  cases best with
  | none => exact ⟨Iff.rfl, fun _ => Window.eq_of_clamp_eq hopen h hvalue.1 hvalue.2⟩
  | some p =>
    rw [windowAbove_some (hbest p rfl)] at h hopen
    cases greater with
    | true =>
      simp only [improves, if_true, decide_eq_true_eq] at h hopen ⊢
      exact ⟨Window.alpha_lt_iff hopen h, fun hlt => Window.eq_of_clamp_eq hopen h hlt hvalue.2⟩
    | false =>
      simp only [improves, Bool.false_eq_true, if_false, decide_eq_true_eq] at h hopen ⊢
      exact ⟨Window.lt_beta_iff hopen h, fun hlt => Window.eq_of_clamp_eq hopen h hvalue.1 hlt⟩

/-- The window that an improved action leaves. -/
theorem windowAbove_pick {p : Action × Score} (h : improves greater best p.2) :
    (windowAbove greater best).narrow greater p.2 = windowAbove greater (some p) := by
  cases best with
  | none => rfl
  | some b =>
    rw [improves_some_iff] at h
    rw [windowAbove, windowAbove, Window.narrow_narrow, (better_eq_or _ _ _).resolve_left h]

end Choosing

namespace Game

variable {g₀ g : Game} {s s' : Search} {scorer : Scorer} {score : Game → Except Fault Score}
  {scored : List (Action × Score)} {greater : Bool}

/-- The loop at the root picks the best action by the plain scores. The invariant is that the window
is the one that the best action so far leaves. -/
theorem Reached.choice_of_chooseAction (h₀ : g₀.Opening) (hg : Reached g₀ g)
    (hgame : g.Leaves s.game)
    (hkeep : Nesting.Scores (fun g h => Reached g₀ g → g.Leaves h) scorer)
    (hscorer : Agrees g₀ scorer score) (hscored : Scored g₀ g score scored)
    (hrange : ∀ p ∈ scored, p.2.InRange) {best choice : Option (Action × Score)}
    (hbest : ∀ p, best = some p → p.2.InRange)
    (h : chooseAction scorer greater (scored.map (·.1)) best (windowAbove greater best) s =
      .ok (choice, s')) : choice = scored.foldl (pick greater) best := by
  induction scored generalizing best s with
  | nil => exact (Prod.mk.inj (Except.ok.inj h)).1.symm
  | cons p rest ih =>
    rw [Scored, List.forall_mem_cons] at hscored
    obtain ⟨⟨status, k, hupdate, hk, hp⟩, hscored⟩ := hscored
    rw [List.forall_mem_cons] at hrange
    obtain ⟨⟨found, s₁⟩, htry, hrest⟩ := bind_eq_ok_iff.1 h
    obtain ⟨hs₁, v, s₂, rfl, hscore⟩ := hg.of_tryAction h₀ hgame hkeep hupdate htry
    have hagrees := hscorer (proper_windowAbove hbest) hk hscore hp
    obtain ⟨himproves, hexact⟩ := improves_of_clamp_eq hbest hrange.1 hagrees
    rw [List.foldl_cons, pick]
    dsimp only at hrest
    split at hrest
    · next hv =>
      have hp' := himproves.1 hv
      obtain rfl := hexact hp'
      rw [windowAbove_pick hp'] at hrest
      rw [if_pos hp']
      apply ih (.inr hs₁) hscored hrange.2 _ hrest
      intro q hq
      obtain rfl := Option.some.inj hq
      exact hrange.1
    · next hv =>
      rw [if_neg (mt himproves.2 hv)]
      exact ih (.inr hs₁) hscored hrange.2 hbest hrest

/-- The search at the root of a game on a line finds no action exactly when there is none, and
otherwise the first one that attains the plain score of the game. -/
theorem Reached.nextBest_eq_ok (h₀ : g₀.Opening) (hg₀ : g₀.Standard) (hg : Reached g₀ g)
    (depth nodes : Nat) (greater : Bool) :
    ∃ scored choice s, g.legalActions = .ok (scored.map (·.1), g) ∧
      Scored g₀ g (plainScore (depth - 1) !greater) scored ∧
      (Search.mk g nodes).nextBest depth greater = .ok (choice, s) ∧
      (choice = none ↔ scored = []) ∧
      ∀ p, choice = some p → plainScore (depth - 1 + 1) greater g = .ok p.2 ∧
        ∃ before after, scored = before ++ p :: after ∧ ∀ q ∈ before, q.2 ≠ p.2 := by
  obtain ⟨scored, hlisted, hscored⟩ := hg.exists_plainScored h₀ hg₀ (depth - 1) !greater
  obtain ⟨⟨choice, s⟩, hsearch⟩ :=
    (unfailing_reached h₀ hg₀).exists_nextBest (s := ⟨g, nodes⟩) hg depth greater
  have hchoice : choice = scored.foldl (pick greater) none := by
    obtain ⟨⟨actions, game⟩, hactions, hloop⟩ := bind_eq_ok_iff.1 hsearch
    obtain ⟨rfl, rfl⟩ := Prod.mk.inj (Except.ok.inj (hlisted.symm.trans hactions))
    refine hg.choice_of_chooseAction h₀ (s := ⟨g, nodes⟩) (.refl g)
      ((nesting_leaves h₀).alphaBeta _ _) (agrees_alphaBeta h₀ hg₀ _ _) hscored ?_ ?_ hloop
    · intro p hp
      obtain ⟨status, h, -, hh, hv⟩ := hscored p hp
      exact hh.plainScore_inRange h₀ hg₀ hv
    · intro p hp
      cases hp
  refine ⟨scored, choice, s, hlisted, hscored, hsearch, ?_, fun p hp => ?_⟩
  · rw [hchoice, foldl_pick_eq_none_iff]
  · obtain ⟨hbest, hfirst⟩ := of_foldl_pick (hchoice.symm.trans hp)
    rw [plainScore_succ hlisted fun p hp => hscored.scoreAfter_eq hp, hbest, Option.getD_some]
    exact ⟨rfl, hfirst⟩

variable {set : PieceSet} {layout : List Char} {config : GameConfig} {board : Board}
  {turn : Colour} {ops : List Operation}

/-- In every game of a run the search at the root succeeds at any depth and for either side. It finds
no action exactly when there is none. Otherwise it finds the first of the listed actions that
attains the score of the plain search, together with that score. The game starts from any layout of
chessmen on any board, with the side that is not to move out of check. -/
theorem nextBest_of_run (hstart : start set layout config = .ok g₀)
    (hread : Board.read set config.bounds layout = .ok (board, turn)) (hkinds : board.Standard)
    (hcalm : g₀.kingAttacked g₀.turn.other = false) (hrun : g₀.run ops = .ok g)
    (depth nodes : Nat) (greater : Bool) :
    ∃ actions choice s, g.legalActions = .ok (actions, g) ∧
      (Search.mk g nodes).nextBest depth greater = .ok (choice, s) ∧
      (choice = none ↔ actions = []) ∧
      ∀ a value, choice = some (a, value) →
        plainScore (max depth 1) greater g = .ok value ∧
          ∃ before after, actions = before ++ a :: after ∧
            scoreAfter (plainScore (max depth 1 - 1) !greater) g a = .ok value ∧
            ∀ b ∈ before, ∃ other, scoreAfter (plainScore (max depth 1 - 1) !greater) g b =
              .ok other ∧ other ≠ value := by
  have hreg := regular_setUp set config turn hkinds
  have h₀ := opening_of_start hstart hread hreg
  have hg₀ := standard_of_start hstart hread hkinds ((h₀.kept.inCheck_eq _).trans hcalm)
  have hg := h₀.reached_of_run hrun
  obtain ⟨scored, choice, s, hlisted, hscored, hsearch, hnone, hchoice⟩ :=
    hg.nextBest_eq_ok h₀ hg₀ depth nodes greater
  obtain ⟨d, hd⟩ : ∃ d, max depth 1 = d + 1 := Nat.exists_eq_add_one.2 (by omega)
  obtain rfl : depth - 1 = d := by omega
  rw [hd, Nat.add_sub_cancel]
  refine ⟨scored.map (·.1), choice, s, hlisted, hsearch, ?_, ?_⟩
  · rw [hnone, List.map_eq_nil_iff]
  · intro a value hsome
    obtain ⟨hplain, before, after, rfl, hbefore⟩ := hchoice _ hsome
    refine ⟨hplain, before.map (·.1), after.map (·.1), ?_, ?_, ?_⟩
    · rw [List.map_append, List.map_cons]
    · exact hscored.scoreAfter_eq (p := (a, value)) (by simp)
    · intro b hb
      obtain ⟨q, hq, rfl⟩ := List.mem_map.1 hb
      exact ⟨q.2, hscored.scoreAfter_eq (List.mem_append_left _ hq), hbefore q hq⟩

/-- Two plies deep the search finds an action for a king and a rook, with its plain score. -/
theorem nextBest_of_run_small : ∃ g₀ g board turn a value s,
    start .orthodox "w wKa1 wRb1 bKc3".toList smallConfig = .ok g₀ ∧
      Board.read .orthodox smallConfig.bounds "w wKa1 wRb1 bKc3".toList = .ok (board, turn) ∧
      board.Standard ∧ g₀.kingAttacked g₀.turn.other = false ∧
      g₀.run [.update ⟨.white, .ofCoords 1 0, .ofCoords 2 0⟩, .undo 1 true] = .ok g ∧
      (Search.mk g 0).nextBest 2 true = .ok (some (a, value), s) ∧
      plainScore 2 true g = .ok value ∧ scoreAfter (plainScore 1 false) g a = .ok value := by
  obtain ⟨g₀, g, board, turn, hstart, hread, hkinds, hcalm, hrun, hsome⟩ :=
    exists_calm_run "w wKa1 wRb1 bKc3".toList smallConfig
      [.update ⟨.white, .ofCoords 1 0, .ofCoords 2 0⟩, .undo 1 true]
      (fun g => g.legalActions.toOption.any (·.1 ≠ [])) (by decide +kernel)
  obtain ⟨actions, choice, s, hlisted, hsearch, hnone, hchoice⟩ :=
    nextBest_of_run hstart hread hkinds hcalm hrun 2 0 true
  obtain ⟨r, hr, hsome⟩ := (Option.any_eq_true _ _).1 hsome
  rw [hlisted] at hr
  obtain rfl := Option.some.inj hr
  have hfound : choice ≠ none := mt hnone.1 (by simpa using hsome)
  obtain ⟨⟨a, value⟩, rfl⟩ := Option.ne_none_iff_exists'.1 hfound
  obtain ⟨hplain, before, after, -, hscore, -⟩ := hchoice a value rfl
  exact ⟨g₀, g, board, turn, a, value, s, hstart, hread, hkinds, hcalm, hrun, hsearch, hplain,
    hscore⟩

end Game

end VariantChess
