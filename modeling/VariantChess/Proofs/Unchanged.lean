import VariantChess.Proofs.Chronicle

/-!
# Undoing and redoing nothing

Undoing and redoing answer that nothing changed exactly if there was no ply to take back or to play
again, or none was asked for: the count that decides it is zero then only, and no entry of the log
and no game has that answer as its status. Redoing nothing gives the very game back, and so does
undoing nothing, except that undoing without saving in a game without plies forgets what could be
redone: the redo stack is emptied before it is known whether there is an entry to drop.
-/

namespace VariantChess

namespace Game

variable {g₀ g h : Game} {b₀ : Board} {first : Colour} {n : Nat} {save : Bool} {answer : Status}

/-- No ply is taken back exactly if none is asked for or there is none. -/
theorem undoPlies_eq_zero_iff : undoPlies save n g = .ok (0, h) ↔
    (n = 0 ∨ g.log.committed = []) ∧
      h = if n = 0 ∨ save then g else { g with log := .empty } := by
  cases n with
  | zero => simp [undoPlies, eq_comm]
  | succ n =>
    cases hlog : g.log.committed with
    | nil =>
      cases save with
      | false => simp [undoPlies, Log.drop, Log.empty, hlog, eq_comm]
      | true =>
        simp only [undoPlies, Log.undo, hlog]
        simpa using eq_comm
    | cons e rest =>
      simp only [Nat.succ_ne_zero, reduceCtorEq, or_self, false_and, iff_false]
      intro hplies
      rw [undoPlies, Log.undo, Log.drop, hlog] at hplies
      -- whether or not the entry is saved, the count is one more than that of the other entries
      cases save <;>
      · obtain ⟨_, -, hrest⟩ := bind_eq_ok_iff.1 hplies
        obtain ⟨_, -, hanswer⟩ := bind_eq_ok_iff.1 hrest
        exact Nat.succ_ne_zero _ (Prod.mk.inj (Except.ok.inj hanswer)).1

/-- No ply is played again exactly if none is asked for or there is none. -/
theorem redoPlies_eq_zero_iff : redoPlies n g = .ok (0, h) ↔
    (n = 0 ∨ g.log.undone = []) ∧ h = g := by
  cases n with
  | zero => simp [redoPlies, eq_comm]
  | succ n =>
    cases hlog : g.log.undone with
    | nil =>
      simp only [redoPlies, Log.redo, hlog]
      simpa using eq_comm
    | cons e rest =>
      simp only [Nat.succ_ne_zero, reduceCtorEq, or_self, false_and, iff_false]
      intro hplies
      rw [redoPlies, Log.redo, hlog] at hplies
      obtain ⟨_, -, hrest⟩ := bind_eq_ok_iff.1 hplies
      obtain ⟨_, -, hanswer⟩ := bind_eq_ok_iff.1 hrest
      exact Nat.succ_ne_zero _ (Prod.mk.inj (Except.ok.inj hanswer)).1

/-- Undoing answers with the status of the game, or that nothing changed if no ply was taken back. -/
theorem answer_of_undo (hundo : g.undo n save = .ok (answer, h)) :
    answer = h.status ∨ answer = .unchanged ∧ undoPlies save n g = .ok (0, h) := by
  obtain ⟨count, k, hplies, -⟩ := undo_cases hundo
  rw [undo_eq hplies] at hundo
  split at hundo
  · next hcount =>
    obtain ⟨rfl, rfl⟩ := Prod.mk.inj (Except.ok.inj hundo)
    exact .inr ⟨rfl, hcount ▸ hplies⟩
  · obtain ⟨rfl, rfl⟩ := Prod.mk.inj (Except.ok.inj hundo)
    exact .inl rfl

/-- Redoing answers with the status of the game, or that nothing changed if no ply was played
again. -/
theorem answer_of_redo (hredo : g.redo n = .ok (answer, h)) :
    answer = h.status ∨ answer = .unchanged ∧ redoPlies n g = .ok (0, h) := by
  obtain ⟨⟨count, k⟩, hplies, hrest⟩ := bind_eq_ok_iff.1 hredo
  dsimp only at hrest
  split at hrest
  · next hcount =>
    obtain ⟨rfl, rfl⟩ := Prod.mk.inj (Except.ok.inj hrest)
    exact .inr ⟨rfl, hcount ▸ hplies⟩
  · obtain ⟨rfl, rfl⟩ := Prod.mk.inj (Except.ok.inj hrest)
    exact .inl rfl

namespace Chronicled

/-- No game has as its status that nothing changed, if the first one has not. -/
theorem status_ne_unchanged (hg : Chronicled b₀ first g₀ g) (h₀ : g₀.initial ≠ .unchanged) :
    g.status ≠ .unchanged := by
  rcases hg.status_cases with ⟨-, hstatus⟩ | ⟨-, -, hstatus⟩
  · exact hstatus ▸ h₀
  · exact hstatus

/-- Undoing answers that nothing changed exactly if no ply was taken back. -/
theorem undo_eq_unchanged_iff (hg : Chronicled b₀ first g₀ g) (h₀ : g₀.initial ≠ .unchanged) :
    g.undo n save = .ok (.unchanged, h) ↔ undoPlies save n g = .ok (0, h) := by
  constructor
  · intro hundo
    rcases answer_of_undo hundo with hanswer | ⟨-, hplies⟩
    · exact absurd hanswer.symm ((hg.undo hundo).status_ne_unchanged h₀)
    · exact hplies
  · intro hplies
    rw [undo_eq hplies, if_pos rfl]

/-- Redoing answers that nothing changed exactly if no ply was played again. -/
theorem redo_eq_unchanged_iff (hg : Chronicled b₀ first g₀ g) (h₀ : g₀.initial ≠ .unchanged) :
    g.redo n = .ok (.unchanged, h) ↔ redoPlies n g = .ok (0, h) := by
  constructor
  · intro hredo
    rcases answer_of_redo hredo with hanswer | ⟨-, hplies⟩
    · exact absurd hanswer.symm ((hg.redo hredo).status_ne_unchanged h₀)
    · exact hplies
  · intro hplies
    rw [Game.redo, hplies]
    rfl

end Chronicled

variable {set : PieceSet} {layout : List Char} {config : GameConfig} {ops : List Operation}

/-- In every game of a run, from any layout and with any piece set, undoing and redoing answer that
nothing changed exactly if there is no ply to take back or to play again or none is asked for. The
game is then the same, with all its threat maps, its log and its redo stack, but for one case:
undoing without saving in a game without plies leaves nothing to redo. -/
theorem unchanged_of_run (hstart : start set layout config = .ok g₀) (hrun : g₀.run ops = .ok g) :
    (∀ n save h, g.undo n save = .ok (.unchanged, h) ↔
      (n = 0 ∨ g.log.committed = []) ∧
        h = if n = 0 ∨ save then g else { g with log := .empty }) ∧
      ∀ n h, g.redo n = .ok (.unchanged, h) ↔ (n = 0 ∨ g.log.undone = []) ∧ h = g := by
  obtain ⟨board, first, -, hfirst, hinitial, -, hg⟩ := chronicled_of_run hstart hrun
  rw [← hinitial] at hfirst
  exact ⟨fun n save h => (hg.undo_eq_unchanged_iff hfirst).trans undoPlies_eq_zero_iff,
    fun n h => (hg.redo_eq_unchanged_iff hfirst).trans redoPlies_eq_zero_iff⟩

/-- A rook gives check and the ply is undone. Undoing once more changes nothing, and it forgets the
ply unless it is told to save. -/
theorem unchanged_of_run_small : ∃ g₀ g,
    start .orthodox "w wKa1 wRb1 bKc3".toList smallConfig = .ok g₀ ∧
      g₀.run [.update ⟨.white, .ofCoords 1 0, .ofCoords 1 2⟩, .undo 1 true] = .ok g ∧
      g.log.undone.length = 1 ∧ g.undo 1 true = .ok (.unchanged, g) ∧
      g.undo 1 false = .ok (.unchanged, { g with log := .empty }) ∧
      g.redo 0 = .ok (.unchanged, g) ∧ ∀ h, g.redo 1 ≠ .ok (.unchanged, h) := by
  obtain ⟨g₀, g, hstart, hrun, htest⟩ :=
    exists_run_passing .orthodox "w wKa1 wRb1 bKc3".toList smallConfig
      [.update ⟨.white, .ofCoords 1 0, .ofCoords 1 2⟩, .undo 1 true]
      (fun _ g => g.log.committed = [] && g.log.undone.length = 1) (by decide +kernel)
  rw [Bool.and_eq_true, decide_eq_true_eq, decide_eq_true_eq] at htest
  obtain ⟨hcommitted, hundone⟩ := htest
  obtain ⟨hundo, hredo⟩ := unchanged_of_run hstart hrun
  refine ⟨g₀, g, hstart, hrun, hundone, (hundo 1 true g).2 ⟨.inr hcommitted, rfl⟩,
    (hundo 1 false _).2 ⟨.inr hcommitted, rfl⟩, (hredo 0 g).2 ⟨.inl rfl, rfl⟩, fun h hnone => ?_⟩
  rcases ((hredo 1 h).1 hnone).1 with hn | hnil
  · exact Nat.one_ne_zero hn
  · rw [hnil] at hundone
    exact Nat.zero_ne_one hundone

/-- Undoing without saving has changed nothing by its answer, but the rook can give its check again
before it and not after it. -/
theorem redo_of_undo_drop_small : ∃ g₀ g h status k,
    start .orthodox "w wKa1 wRb1 bKc3".toList smallConfig = .ok g₀ ∧
      g₀.run [.update ⟨.white, .ofCoords 1 0, .ofCoords 1 2⟩, .undo 1 true] = .ok g ∧
      g.undo 1 false = .ok (.unchanged, h) ∧ g.redo 1 = .ok (status, k) ∧ status ≠ .unchanged ∧
      h.redo 1 = .ok (.unchanged, h) ∧ h.log.undone ≠ g.log.undone := by
  obtain ⟨g₀, g, hstart, hrun, htest⟩ :=
    exists_run_passing .orthodox "w wKa1 wRb1 bKc3".toList smallConfig
      [.update ⟨.white, .ofCoords 1 0, .ofCoords 1 2⟩, .undo 1 true]
      (fun _ g => (g.undo 1 false).toOption.any fun r => r.1 = .unchanged &&
        ((g.redo 1).toOption.any fun s => s.1 ≠ .unchanged) &&
          ((r.2.redo 1).toOption.any fun s => s.1 = .unchanged && s.2 = r.2) &&
            r.2.log.undone ≠ g.log.undone) (by decide +kernel)
  obtain ⟨⟨answer, h⟩, hundo, htest⟩ := (Option.any_eq_true _ _).1 htest
  simp only [Bool.and_eq_true, decide_eq_true_eq] at htest
  obtain ⟨⟨⟨rfl, hbefore⟩, hafter⟩, hlog⟩ := htest
  obtain ⟨⟨status, k⟩, hredo, hstatus⟩ := (Option.any_eq_true _ _).1 hbefore
  obtain ⟨⟨answer', k'⟩, hredo', hsame⟩ := (Option.any_eq_true _ _).1 hafter
  simp only [Bool.and_eq_true, decide_eq_true_eq] at hsame
  obtain ⟨rfl, rfl⟩ := hsame
  rw [toOption_eq_some_iff] at hundo hredo hredo'
  exact ⟨g₀, g, k', status, k, hstart, hrun, hundo, hredo, of_decide_eq_true hstatus, hredo', hlog⟩

end Game

end VariantChess
