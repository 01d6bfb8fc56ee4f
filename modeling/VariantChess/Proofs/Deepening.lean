import VariantChess.Proofs.BestAction

/-!
# Searching one depth after the other

On the orthodox board no undecided game has the static score of a won one, and no score exceeds it.
So a side that can force a win at some depth can force it at every greater depth, with the same
score. A search that looks at one depth after the other and stops at the first won score therefore
finds the score of the greatest depth.
-/

namespace VariantChess

open Search

namespace Score

variable {m : Bool} {v : Score} {values : List Score}

/-- The bounded scores of decided games are those of won ones. -/
theorem Bounded.isWin_iff (hv : v.Bounded) : v.isWin ↔ v = win ∨ v = -win := by
  obtain ⟨c⟩ := v
  have hlow : (-100000 : Int) ≤ c := hv.1
  have hhigh : c ≤ 100000 := hv.2
  have hwin : (⟨c⟩ : Score).isWin ↔ (100000 : Int) ≤ c.natAbs := decide_eq_true_iff
  have hwhite : (⟨c⟩ : Score) = win ↔ c = 100000 := by rw [win, mk.injEq]
  have hblack : (⟨c⟩ : Score) = -win ↔ c = -100000 := mk.injEq .. ▸ Iff.rfl
  rw [hwin, hwhite, hblack]
  omega

/-- The best of some scores is one that no other improves on. -/
theorem best?_eq_some_iff :
    best? m values = some v ↔ v ∈ values ∧ ∀ x ∈ values, better m x v = v := by
  cases m with
  | true =>
    rw [best?, if_pos rfl, List.max?_eq_some_iff]
    simp only [better_true, max_eq_right_iff]
  | false =>
    rw [best?, if_neg Bool.false_ne_true, List.min?_eq_some_iff]
    simp only [better_false, min_eq_right_iff]

/-- When bounded scores are replaced by others but won ones are kept, the best of them is kept if it
is a won one. -/
theorem best?_of_isWin {pairs : List (Score × Score)}
    (hpairs : ∀ p ∈ pairs, p.1.Bounded ∧ p.2.Bounded ∧ (p.1.isWin → p.2 = p.1))
    (hbest : best? m (pairs.map (·.1)) = some v) (hwin : v.isWin) :
    best? m (pairs.map (·.2)) = some v := by
  rw [best?_eq_some_iff] at hbest ⊢
  obtain ⟨hmem, hall⟩ := hbest
  obtain ⟨p, hp, rfl⟩ := List.mem_map.1 hmem
  obtain ⟨hbounded, -, hkept⟩ := hpairs p hp
  refine ⟨List.mem_map.2 ⟨p, hp, hkept hwin⟩, ?_⟩
  intro x hx
  obtain ⟨q, hq, rfl⟩ := List.mem_map.1 hx
  obtain ⟨hfirst, hsecond, hsame⟩ := hpairs q hq
  have hq' := hall q.1 (List.mem_map_of_mem hq)
  by_cases heq : q.1 = p.1
  · rw [hsame (heq ▸ hwin), heq, better_self]
  · -- a strictly worse score leaves only the win of the side that chooses
    rcases hbounded.isWin_iff.1 hwin with hv | hv
    · cases m with
      | true => exact max_eq_right (hv ▸ hsecond.2)
      | false =>
        rw [better_false, min_eq_right_iff, hv] at hq'
        exact absurd ((le_antisymm hfirst.2 hq').trans hv.symm) heq
    · cases m with
      | true =>
        rw [better_true, max_eq_right_iff, hv] at hq'
        exact absurd ((le_antisymm hq' hfirst.1).trans hv.symm) heq
      | false => exact min_eq_right (hv ▸ hsecond.1)

end Score

namespace Game

variable {g₀ g : Game} {maximising : Bool} {v : Score}

section Orthodox

variable (h₀ : g₀.Opening) (hg₀ : g₀.Standard) (hbounds : g₀.board.bounds = .orthodox)
include h₀ hg₀ hbounds

/-- No plain score on the orthodox board exceeds that of a won game. -/
theorem Reached.plainScore_bounded (hg : Reached g₀ g) {depth : Nat}
    (hv : plainScore depth maximising g = .ok v) : v.Bounded := by
  obtain ⟨h, hscore, hh⟩ := hg.exists_plainScore h₀ hg₀ depth maximising
  obtain rfl := Except.ok.inj (hscore.symm.trans hv)
  exact ((hh.kept h₀).evaluate_orthodox (hh.standard h₀ hg₀).kinds
    ((hh.line.bounds_eq h₀).trans hbounds)).1

/-- A won score is found again one ply deeper. -/
theorem Reached.plainScore_succ_of_isWin (hg : Reached g₀ g) {depth : Nat}
    (hv : plainScore depth maximising g = .ok v) (hwin : v.isWin) :
    plainScore (depth + 1) maximising g = .ok v := by
  induction depth generalizing maximising g v with
  | zero =>
    obtain rfl := Except.ok.inj hv
    obtain ⟨c, hc⟩ := ((hg.kept h₀).evaluate_orthodox (hg.standard h₀ hg₀).kinds
      ((hg.line.bounds_eq h₀).trans hbounds)).2 hwin
    rw [plainScore, if_pos (by rw [hc]; rfl)]
  | succ depth ih =>
    obtain ⟨actions, hlisted, haccepted⟩ := hg.exists_listed h₀ hg₀
    -- every action with its scores at both depths
    obtain ⟨scored, rfl, hscored⟩ := exists_pairs (l := actions)
      (R := fun a (p : Score × Score) =>
        scoreAfter (plainScore depth !maximising) g a = .ok p.1 ∧
        scoreAfter (plainScore (depth + 1) !maximising) g a = .ok p.2 ∧
        p.1.Bounded ∧ p.2.Bounded ∧ (p.1.isWin → p.2 = p.1)) fun a ha => by
      obtain ⟨status, h, hupdate, hh⟩ := haccepted a ha
      obtain ⟨k, hk, -⟩ := hh.exists_plainScore h₀ hg₀ depth !maximising
      obtain ⟨k', hk', -⟩ := hh.exists_plainScore h₀ hg₀ (depth + 1) !maximising
      refine ⟨(k.evaluate, k'.evaluate), bind_eq_ok_iff.2 ⟨_, hupdate, hk⟩,
        bind_eq_ok_iff.2 ⟨_, hupdate, hk'⟩, hh.plainScore_bounded h₀ hg₀ hbounds hk,
        hh.plainScore_bounded h₀ hg₀ hbounds hk', fun hwin => ?_⟩
      exact Except.ok.inj (hk'.symm.trans (ih hh hk hwin))
    have hshallow := plainScore_succ hlisted fun p hp => (hscored p hp).1
    have hdeep := plainScore_succ hlisted fun p hp => (hscored p hp).2.1
    have hvalue := Except.ok.inj (hshallow.symm.trans hv)
    rw [hdeep]
    cases scored with
    | nil => exact congrArg Except.ok hvalue
    | cons p rest =>
      rw [List.map_cons, Score.best?_cons, Option.getD_some] at hvalue
      have hbest : Score.best? maximising (((p :: rest).map (·.2)).map (·.1)) = some v := by
        rw [List.map_map, List.map_cons, Score.best?_cons]
        exact congrArg some hvalue
      have hkept := Score.best?_of_isWin (fun q hq => ?_) hbest hwin
      · rw [List.map_map] at hkept
        exact congrArg (fun b => Except.ok (b.getD g.evaluate)) hkept
      · obtain ⟨t, ht, rfl⟩ := List.mem_map.1 hq
        exact (hscored t ht).2.2

/-- A won score is found again at every greater depth. -/
theorem Reached.plainScore_of_isWin (hg : Reached g₀ g) {depth : Nat}
    (hv : plainScore depth maximising g = .ok v) (hwin : v.isWin) (n : Nat) :
    plainScore (depth + n) maximising g = .ok v := by
  induction n with
  | zero => exact hv
  | succ n ih => exact hg.plainScore_succ_of_isWin h₀ hg₀ hbounds ih hwin

/-- Searching one depth after the other finds the plain score at the last depth, also when it stops
before. -/
theorem Reached.value_of_deepen (hg : Reached g₀ g) {s s' : Search}
    (hgame : g.Leaves s.game) {first n : Nat} {best value : Score}
    (hplain : plainScore (first + n) maximising g = .ok value)
    (h : deepen maximising (List.range' first (n + 1)) best s = .ok (v, s')) : v = value := by
  induction n generalizing first best s with
  | zero =>
    obtain ⟨⟨x, s₁⟩, hsearch, hrest⟩ := bind_eq_ok_iff.1 h
    obtain rfl := hg.value_of_alphaBeta h₀ hg₀ hgame hplain hsearch
    dsimp only at hrest
    split at hrest
    · exact (Prod.mk.inj (Except.ok.inj hrest)).1.symm
    · exact (Prod.mk.inj (Except.ok.inj hrest)).1.symm
  | succ n ih =>
    rw [List.range'_succ] at h
    obtain ⟨⟨x, s₁⟩, hsearch, hrest⟩ := bind_eq_ok_iff.1 h
    obtain ⟨k, hk, -⟩ := hg.exists_plainScore h₀ hg₀ first maximising
    obtain rfl := hg.value_of_alphaBeta h₀ hg₀ hgame hk hsearch
    dsimp only at hrest
    split at hrest
    · next hwin =>
      have hlast := hg.plainScore_of_isWin h₀ hg₀ hbounds hk hwin (n + 1)
      rw [← (Prod.mk.inj (Except.ok.inj hrest)).1]
      exact Except.ok.inj (hlast.symm.trans hplain)
    · refine ih (hg.game_of_alphaBeta h₀ hgame hsearch) ?_ hrest
      rwa [Nat.add_assoc, Nat.add_comm 1 n]

end Orthodox

variable {set : PieceSet} {layout : List Char} {config : GameConfig} {board : Board}
  {turn : Colour} {ops : List Operation}

/-- On the orthodox board the search of a game of a run succeeds for every requested depth and every
greatest depth, and finds the plain score at the requested depth, brought between one and the
greatest depth. When the requested depth is between them and there is a legal action, that score is
also found at the root of a search for the best action of the side to move. -/
theorem minimax_of_run (hstart : start set layout config = .ok g₀)
    (hread : Board.read set config.bounds layout = .ok (board, turn)) (hkinds : board.Standard)
    (hcalm : g₀.kingAttacked g₀.turn.other = false) (hbounds : config.bounds = .orthodox)
    (hrun : g₀.run ops = .ok g) (settings : SearchConfig) (depth nodes : Nat) :
    ∃ value s, (Search.mk g nodes).minimax settings depth = .ok (value, s) ∧
      plainScore (max 1 (min depth settings.maxDepth)) (g.turn = .white) g = .ok value ∧
      ∃ actions, g.legalActions = .ok (actions, g) ∧
        (1 ≤ depth → depth ≤ settings.maxDepth → actions ≠ [] →
          ∃ a s', (Search.mk g nodes).nextBest depth (g.turn = .white) =
            .ok (some (a, value), s')) := by
  have hreg := regular_setUp set config turn hkinds
  have h₀ := opening_of_start hstart hread hreg
  have hg₀ := standard_of_start hstart hread hkinds ((h₀.kept.inCheck_eq _).trans hcalm)
  have hg := h₀.reached_of_run hrun
  have hsame := samePosition_of_start hstart hread hreg
  have horthodox : g₀.board.bounds = .orthodox := by
    obtain ⟨threats, hframe⟩ := setUp_eq set config board turn
    rw [hsame.board, hframe]
    exact (Board.bounds_of_read hread).trans hbounds
  obtain ⟨⟨value, s⟩, hsearch⟩ := (unfailing_reached h₀ hg₀).exists_deepen (s := ⟨g, nodes⟩) hg
    (g.turn = .white) (List.range' 1 (max (min depth settings.maxDepth) 1)) g.evaluate
  obtain ⟨n, hn⟩ : ∃ n, max (min depth settings.maxDepth) 1 = n + 1 :=
    Nat.exists_eq_add_one.2 (by omega)
  obtain ⟨k, hplain, -⟩ := hg.exists_plainScore h₀ hg₀ (1 + n) (g.turn = .white)
  obtain rfl : value = k.evaluate :=
    hg.value_of_deepen h₀ hg₀ horthodox (.refl g) hplain (hn ▸ hsearch)
  obtain ⟨scored, choice, s', hlisted, -, hbest, hnone, hchoice⟩ :=
    hg.nextBest_eq_ok h₀ hg₀ depth nodes (g.turn = .white)
  refine ⟨k.evaluate, s, hsearch, ?_, scored.map (·.1), hlisted, fun hlow hhigh hsome => ?_⟩
  · rw [max_comm, hn, Nat.add_comm]
    exact hplain
  · have hfound : choice ≠ none := by
      rw [Ne, hnone]
      rintro rfl
      exact hsome rfl
    obtain ⟨⟨a, v⟩, rfl⟩ := Option.ne_none_iff_exists'.1 hfound
    obtain ⟨hv, -⟩ := hchoice _ rfl
    obtain rfl : depth - 1 = n := by omega
    rw [Nat.add_comm, hv] at hplain
    obtain rfl := Except.ok.inj hplain
    exact ⟨a, s', hbest⟩

/-- A pawn next to its king, on the orthodox board, is searched three plies deep. -/
theorem minimax_of_run_pawn : ∃ g₀ g board turn value s a s',
    start .orthodox "w wKa1 wPb2 bKc8".toList {} = .ok g₀ ∧
      Board.read .orthodox Bounds.orthodox "w wKa1 wPb2 bKc8".toList = .ok (board, turn) ∧
      board.Standard ∧ g₀.kingAttacked g₀.turn.other = false ∧
      g₀.run [.update ⟨.white, .ofCoords 1 1, .ofCoords 1 3⟩, .undo 1 true] = .ok g ∧
      (Search.mk g 0).minimax {} 3 = .ok (value, s) ∧
      plainScore 3 (g.turn = .white) g = .ok value ∧
      (Search.mk g 0).nextBest 3 (g.turn = .white) = .ok (some (a, value), s') := by
  obtain ⟨g₀, g, board, turn, hstart, hread, hkinds, hcalm, hrun, hsome⟩ :=
    exists_calm_run "w wKa1 wPb2 bKc8".toList {}
      [.update ⟨.white, .ofCoords 1 1, .ofCoords 1 3⟩, .undo 1 true]
      (fun g => g.legalActions.toOption.any (·.1 ≠ [])) (by decide +kernel)
  obtain ⟨value, s, hsearch, hplain, actions, hlisted, hbest⟩ :=
    minimax_of_run hstart hread hkinds hcalm rfl hrun {} 3 0
  obtain ⟨r, hr, hsome⟩ := (Option.any_eq_true _ _).1 hsome
  rw [hlisted] at hr
  obtain rfl := Option.some.inj hr
  obtain ⟨a, s', hnext⟩ := hbest (by decide) (by decide) (by simpa using hsome)
  exact ⟨g₀, g, board, turn, value, s, a, s', hstart, hread, hkinds, hcalm, hrun, hsearch, hplain,
    hnext⟩

end Game

end VariantChess
