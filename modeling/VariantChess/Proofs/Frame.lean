import VariantChess.Game.Undo
import VariantChess.Proofs.Commit
import VariantChess.Proofs.Trying

/-!
# What operations leave alone

The statements here hold for every game, with any pieces and whether or not its threat maps are up
to date. Looking for legal plies plays plies and takes them back, so it can change the board and the
threat maps and nothing else. An accepted action adds one entry to the log, passes the turn and
stores a status; a rejected one leaves the log, the turn and the status alone. Dropping plies takes
their entries off the log and forgets what could be redone.
-/

namespace VariantChess

namespace Game

variable {g h k : Game} {ply : Ply} {id : PieceId}

/-- The games differ at most in the board and the threat maps. -/
def SameFrame (g h : Game) : Prop := h = { g with board := h.board, threats := h.threats }

namespace SameFrame

theorem refl (g : Game) : g.SameFrame g := rfl

theorem trans (hgh : g.SameFrame h) (hhk : h.SameFrame k) : g.SameFrame k := by
  rw [SameFrame, hhk, hgh]

theorem log (hgh : g.SameFrame h) : h.log = g.log := by rw [hgh]

/-- Looking at pieces again changes the threat maps only. -/
theorem of_refresh (g : Game) (ids : List PieceId) : g.SameFrame (g.refresh ids) := by
  rw [SameFrame, refresh_eq]

/-- Setting a board and looking at the affected pieces changes the board and the threat maps. -/
theorem of_after (g : Game) (ply : Ply) (b : Board) : g.SameFrame (g.after ply b) := by
  rw [SameFrame, after_eq]

theorem of_apply (happly : g.apply ply = .ok h) : g.SameFrame h := by
  rw [apply_eq_map] at happly
  obtain ⟨b, -, rfl⟩ := map_eq_ok_iff.1 happly
  exact of_after g ply b

theorem of_revert (hrevert : g.revert ply = .ok h) : g.SameFrame h := by
  rw [revert_eq_map] at hrevert
  obtain ⟨b, -, rfl⟩ := map_eq_ok_iff.1 hrevert
  exact of_after g ply b

/-- A ply that is tried is played and taken back. -/
theorem of_isLegal {safe : Bool} (h' : g.isLegal ply = .ok (safe, h)) : g.SameFrame h := by
  obtain ⟨g₁, happly, hrest⟩ := bind_eq_ok_iff.1 h'
  obtain ⟨g₂, hrevert, hanswer⟩ := bind_eq_ok_iff.1 hrest
  obtain ⟨rfl, rfl⟩ := Prod.mk.inj (Except.ok.inj hanswer)
  exact (of_apply happly).trans (of_revert hrevert)

/-- Looking for plies changes the board and the threat maps at most. -/
theorem tries : Tries SameFrame where
  refl := refl
  trans := trans
  isLegal _ := of_isLegal

end SameFrame

/-- A verdict is never that the game has not begun, nor that nothing has changed. -/
theorem settled_of_verdict {mover : Colour} {status : Status}
    (h' : g.verdict mover = .ok (status, h)) : status ≠ .pending ∧ status ≠ .unchanged := by
  rw [verdict] at h'
  split at h'
  · obtain ⟨rfl, rfl⟩ := Prod.mk.inj (Except.ok.inj h')
    decide
  · split at h'
    · obtain ⟨⟨mate, g₁⟩, -, hanswer⟩ := bind_eq_ok_iff.1 h'
      obtain ⟨rfl, rfl⟩ := Prod.mk.inj (Except.ok.inj hanswer)
      cases mate <;> simp
    · obtain ⟨⟨free, g₁⟩, -, hanswer⟩ := bind_eq_ok_iff.1 h'
      obtain ⟨rfl, rfl⟩ := Prod.mk.inj (Except.ok.inj hanswer)
      cases free <;> simp

/-- Committing a ply puts it on top of the log, passes the turn and stores the verdict. -/
theorem frame_of_commit {status : Status} (h' : g.commit ply = .ok (status, h)) :
    (status ≠ .pending ∧ status ≠ .unchanged) ∧ h = { g with
      board := h.board, log := ⟨⟨ply, status⟩ :: g.log.committed, []⟩, threats := h.threats,
      turn := g.turn.other, status } := by
  rw [commit_eq_bind, logged_eq] at h'
  obtain ⟨⟨verdict, g₁⟩, hverdict, hanswer⟩ := bind_eq_ok_iff.1 h'
  obtain ⟨rfl, rfl⟩ := Prod.mk.inj (Except.ok.inj hanswer)
  refine ⟨settled_of_verdict hverdict, ?_⟩
  rw [SameFrame.tries.verdict hverdict]
  rfl

/-- A committed ply is the new entry of the log, and nothing is left to redo. -/
theorem log_of_commit {status : Status} (h' : g.commit ply = .ok (status, h)) :
    h.log = ⟨⟨ply, status⟩ :: g.log.committed, []⟩ := by
  rw [(frame_of_commit h').2]

/-- An action that is rejected leaves the log alone; one that is accepted puts its planned ply on
top of the log. -/
theorem log_of_update {a : Action} {r : Except Rejection Status} (h' : g.update a = .ok (r, h)) :
    (∃ e, r = .error e ∧ h.log = g.log) ∨
      ∃ ply status, r = .ok status ∧ g.vet a = .ok ply ∧
        h.log = ⟨⟨ply, status⟩ :: g.log.committed, []⟩ := by
  rw [update] at h'
  split at h'
  · next e hvet =>
    obtain ⟨rfl, rfl⟩ := Prod.mk.inj (Except.ok.inj h')
    exact .inl ⟨e, rfl, rfl⟩
  · next ply hvet =>
    obtain ⟨g₁, happly, hrest⟩ := bind_eq_ok_iff.1 h'
    have hg₁ : g₁.log = g.log := (SameFrame.of_apply happly).log
    split at hrest
    · obtain ⟨g₂, hrevert, hanswer⟩ := bind_eq_ok_iff.1 hrest
      obtain ⟨rfl, rfl⟩ := Prod.mk.inj (Except.ok.inj hanswer)
      exact .inl ⟨_, rfl, (SameFrame.of_revert hrevert).log.trans hg₁⟩
    · obtain ⟨⟨status, g₂⟩, hcommit, hanswer⟩ := bind_eq_ok_iff.1 hrest
      obtain ⟨rfl, rfl⟩ := Prod.mk.inj (Except.ok.inj hanswer)
      exact .inr ⟨ply, status, rfl, hvet, hg₁ ▸ log_of_commit hcommit⟩

/-- Dropping plies takes their entries off the log and forgets what could be redone. -/
theorem log_of_undoPlies_drop {n count : Nat} (h' : undoPlies false n g = .ok (count, h)) :
    h.log = if n = 0 then g.log else ⟨g.log.committed.drop n, []⟩ := by
  induction n generalizing g h count with
  | zero =>
    obtain ⟨rfl, rfl⟩ := Prod.mk.inj (Except.ok.inj h')
    rfl
  | succ n ih =>
    rw [undoPlies] at h'
    cases hlog : g.log.committed with
    | nil =>
      simp only [Bool.false_eq_true, if_false, Log.drop, hlog, List.head?_nil] at h'
      obtain ⟨rfl, rfl⟩ := Prod.mk.inj (Except.ok.inj h')
      simp
    | cons e rest =>
      simp only [Bool.false_eq_true, if_false, Log.drop, hlog, List.head?_cons] at h'
      obtain ⟨g₁, hrevert, hrest⟩ := bind_eq_ok_iff.1 h'
      obtain ⟨⟨earlier, g₂⟩, hplies, hanswer⟩ := bind_eq_ok_iff.1 hrest
      obtain ⟨rfl, rfl⟩ := Prod.mk.inj (Except.ok.inj hanswer)
      have hg₁ : g₁.log = ⟨rest, []⟩ := (SameFrame.of_revert hrevert).log
      rw [ih hplies, hg₁]
      cases n <;> simp

/-- Taking the latest entry back for good takes it off the log and forgets what could be redone. -/
theorem log_of_undo_drop {answer : Status} (h' : g.undo 1 false = .ok (answer, h)) :
    h.log = ⟨g.log.committed.tail, []⟩ := by
  obtain ⟨⟨count, g₁⟩, hplies, hrest⟩ := bind_eq_ok_iff.1 h'
  have hg₁ : g₁.log = ⟨g.log.committed.tail, []⟩ := by simpa using log_of_undoPlies_drop hplies
  dsimp only at hrest
  split at hrest
  · obtain ⟨rfl, rfl⟩ := Prod.mk.inj (Except.ok.inj hrest)
    exact hg₁
  · obtain ⟨rfl, rfl⟩ := Prod.mk.inj (Except.ok.inj hrest)
    exact ((SameFrame.of_refresh g₁ _).log).trans hg₁

end Game

end VariantChess
