import VariantChess.Proofs.Run

/-!
# Rejected actions

Most rejections come before anything is played. An action that leaves the own king in check is
found out only after its ply has been played, with its capture and its side effect and with both
threat maps brought up to date; all of it is then taken back. In every game of a run a rejected
action leaves the whole game as it was, redo stack included, and taking the ply back raises no
fault.

A submitted action answers `unchanged` exactly when it is rejected, since no verdict is `unchanged`.
-/

namespace VariantChess

namespace Game

variable {g₀ g h : Game} {set : PieceSet} {layout : List Char} {config : GameConfig}
  {ops : List Operation} {a : Action}

/-- A verdict is never the answer that nothing changed. -/
theorem judged_ne_unchanged (g : Game) (mover : Colour) : g.judged mover ≠ .unchanged := by
  unfold judged
  split_ifs <;> simp

/-- An action whose planned ply leaves the own king in check is rejected, and the game is given back
as it was. -/
theorem Kept.update_of_inCheck (hk : g.Kept) {ply : Ply} (hvet : g.vet a = .ok ply)
    (happly : g.apply ply = .ok h) (hcheck : h.inCheck g.turn) :
    g.update a = .ok (.error .kingInCheck, g) := by
  obtain ⟨b, hstep, rfl⟩ := (apply_eq_ok_iff (hk.of_vet hvet).1).1 happly
  have hrevert : (g.after ply b).revert ply = .ok g := hk.revert_after hstep
  have hback : (g.after ply b).inCheck (g.after ply b).turn := by
    rw [turn_after]
    exact hcheck
  simp only [update, hvet, happly, bind, Except.bind, hback, if_true, hrevert]
  rfl

/-- A submitted action answers `unchanged` exactly when the action is rejected. -/
theorem Kept.submit_eq_unchanged_iff (hk : g.Kept) {status : Status}
    (hsubmit : g.submit a = .ok (status, h)) :
    status = .unchanged ↔ ∃ e, g.update a = .ok (.error e, h) := by
  obtain ⟨⟨r, g'⟩, hupdate, hanswer⟩ := bind_eq_ok_iff.1 hsubmit
  obtain ⟨rfl, rfl⟩ := Prod.mk.inj (Except.ok.inj hanswer)
  obtain ⟨e, rfl, -, -⟩ | ⟨ply, status, rfl, -, -, -, hjudged⟩ := hk.update_cases hupdate
  · simp [hupdate, Except.toOption]
  · have hne : status ≠ .unchanged := hjudged ▸ judged_ne_unchanged _ _
    simp [hupdate, Except.toOption, hne]

/-- In every game of a run, from any layout and with any regular piece set, a rejected action leaves
the whole game as it was. A submitted action answers `unchanged` exactly when it is rejected, and
then changes nothing either. An action that turns out to leave the own king in check once its ply
has been played is rejected without a fault. -/
theorem eq_of_rejected (hset : set.Regular) (hstart : start set layout config = .ok g₀)
    (hrun : g₀.run ops = .ok g) (a : Action) :
    (∀ e h, g.update a = .ok (.error e, h) → h = g) ∧
      (∀ status h, g.submit a = .ok (status, h) →
        (status = .unchanged ↔ ∃ e, g.update a = .ok (.error e, h)) ∧
          (status = .unchanged → h = g)) ∧
      ∀ ply h, g.vet a = .ok ply → g.apply ply = .ok h → h.inCheck g.turn →
        g.update a = .ok (.error .kingInCheck, g) := by
  have h₀ := opening_of_regular hset hstart
  have hk : g.Kept := (h₀.reached_of_run hrun).kept h₀
  have hrejected : ∀ e h, g.update a = .ok (.error e, h) → h = g := by
    intro e h hupdate
    obtain ⟨_, -, heq, -⟩ | ⟨_, _, hr, -⟩ := hk.update_cases hupdate
    · exact heq
    · cases hr
  refine ⟨hrejected, fun status h hsubmit => ?_, fun ply h => hk.update_of_inCheck⟩
  have hiff := hk.submit_eq_unchanged_iff hsubmit
  refine ⟨hiff, fun hstatus => ?_⟩
  obtain ⟨e, hupdate⟩ := hiff.1 hstatus
  exact hrejected e h hupdate

/-- A rook shields its king from another rook. It may not take a bishop off the line: the bishop and
both rooks are back in their places, and what was undone before can still be redone. -/
theorem eq_of_rejected_pinned : ∃ g₀ g h status k,
    start .orthodox "w wKa1 wRb1 bRc1 bBb3 bKc3".toList smallConfig = .ok g₀ ∧
      g₀.run [.update ⟨.white, .ofCoords 1 0, .ofCoords 2 0⟩, .undo 1 true] = .ok g ∧
      g.update ⟨.white, .ofCoords 1 0, .ofCoords 1 2⟩ = .ok (.error .kingInCheck, h) ∧ h = g ∧
      g.submit ⟨.white, .ofCoords 1 0, .ofCoords 1 2⟩ = .ok (status, k) ∧
      status = .unchanged ∧ k = g ∧ g.log.undone.length = 1 := by
  have hcheck : ((start .orthodox "w wKa1 wRb1 bRc1 bBb3 bKc3".toList
      smallConfig).toOption.bind fun g₀ =>
        (g₀.run [.update ⟨.white, .ofCoords 1 0, .ofCoords 2 0⟩, .undo 1 true]).toOption.bind
          fun g => (g.update ⟨.white, .ofCoords 1 0, .ofCoords 1 2⟩).toOption.bind fun r =>
            (g.submit ⟨.white, .ofCoords 1 0, .ofCoords 1 2⟩).toOption.bind fun q =>
              match r.1 with
              | .error .kingInCheck =>
                if q.1 = .unchanged ∧ g.log.undone.length = 1 then some (g₀, g, r.2, q) else none
              | _ => none).isSome := by
    decide +kernel
  obtain ⟨x, hx⟩ := Option.isSome_iff_exists.1 hcheck
  obtain ⟨g₀, hstart, hx⟩ := Option.bind_eq_some_iff.1 hx
  obtain ⟨g, hrun, hx⟩ := Option.bind_eq_some_iff.1 hx
  obtain ⟨⟨r, h⟩, hupdate, hx⟩ := Option.bind_eq_some_iff.1 hx
  obtain ⟨⟨status, k⟩, hsubmit, hx⟩ := Option.bind_eq_some_iff.1 hx
  rw [toOption_eq_some_iff] at hstart hrun hupdate hsubmit
  split at hx
  · next hr =>
    dsimp only at hr
    subst hr
    split at hx
    · next htest =>
      have hrejected := eq_of_rejected regular_orthodox hstart hrun
        ⟨.white, .ofCoords 1 0, .ofCoords 1 2⟩
      exact ⟨g₀, g, h, status, k, hstart, hrun, hupdate, hrejected.1 _ _ hupdate, hsubmit, htest.1,
        (hrejected.2.1 _ _ hsubmit).2 htest.1, htest.2⟩
    · cases hx
  · cases hx

end Game

end VariantChess
