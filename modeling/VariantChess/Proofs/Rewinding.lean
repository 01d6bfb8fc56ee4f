import VariantChess.Proofs.Frame
import VariantChess.Proofs.Line

/-!
# Undoing and redoing one entry at a time

Undoing takes back entry by entry and redoing plays entry by entry. So what survives one entry
survives all of them; the principles here count the entries as they go. They hold for every game,
with any pieces and whether or not its threat maps are up to date.
-/

namespace VariantChess

namespace Game

variable {g h : Game} {P : Nat → Game → Prop} {n count k : Nat} {save : Bool} {answer : Status}

/-- What survives taking back the latest entry, and forgetting the redo stack when there is none, is
true after undoing if it is true before. -/
theorem undoPlies_induction
    (back : ∀ {k g h e rest undone}, P k g → g.log.committed = e :: rest →
      (undone = e :: g.log.undone ∨ undone = []) →
      ({ g with log := ⟨rest, undone⟩ } : Game).revert e.ply = .ok h →
      P (k + 1) { h with turn := h.turn.other })
    (forget : ∀ {k g}, P k g → g.log.committed = [] → P k { g with log := .empty })
    (hg : P k g) (h' : undoPlies save n g = .ok (count, h)) : P (k + count) h := by
  induction n generalizing g h count k with
  | zero =>
    obtain ⟨rfl, rfl⟩ := Prod.mk.inj (Except.ok.inj h')
    exact hg
  | succ n ih =>
    rw [undoPlies] at h'
    cases hlog : g.log.committed with
    | nil =>
      cases save with
      | true =>
        rw [if_pos rfl, Log.undo, hlog] at h'
        obtain ⟨rfl, rfl⟩ := Prod.mk.inj (Except.ok.inj h')
        exact hg
      | false =>
        rw [if_neg Bool.false_ne_true, Log.drop, hlog] at h'
        obtain ⟨rfl, rfl⟩ := Prod.mk.inj (Except.ok.inj h')
        exact forget hg hlog
    | cons e rest =>
      obtain ⟨undone, hundo, hundone⟩ := Log.exists_undone hlog save
      rw [hundo] at h'
      obtain ⟨g₁, hrevert, hrest⟩ := bind_eq_ok_iff.1 h'
      obtain ⟨⟨earlier, g₂⟩, hplies, hanswer⟩ := bind_eq_ok_iff.1 hrest
      obtain ⟨rfl, rfl⟩ := Prod.mk.inj (Except.ok.inj hanswer)
      have hlast := ih (back hg hlog hundone hrevert) hplies
      rwa [Nat.add_assoc, Nat.add_comm 1] at hlast

/-- What survives playing the latest undone entry again is true after redoing if it is true
before. -/
theorem redoPlies_induction
    (again : ∀ {k g h e rest}, P k g → g.log.undone = e :: rest →
      ({ g with log := ⟨e :: g.log.committed, rest⟩ } : Game).apply e.ply = .ok h →
      P (k + 1) { h with turn := h.turn.other, status := e.status })
    (hg : P k g) (h' : redoPlies n g = .ok (count, h)) : P (k + count) h := by
  induction n generalizing g h count k with
  | zero =>
    obtain ⟨rfl, rfl⟩ := Prod.mk.inj (Except.ok.inj h')
    exact hg
  | succ n ih =>
    rw [redoPlies, Log.redo] at h'
    cases hlog : g.log.undone with
    | nil =>
      rw [hlog] at h'
      obtain ⟨rfl, rfl⟩ := Prod.mk.inj (Except.ok.inj h')
      exact hg
    | cons e rest =>
      rw [hlog] at h'
      obtain ⟨g₁, happly, hrest⟩ := bind_eq_ok_iff.1 h'
      obtain ⟨⟨later, g₂⟩, hplies, hanswer⟩ := bind_eq_ok_iff.1 hrest
      obtain ⟨rfl, rfl⟩ := Prod.mk.inj (Except.ok.inj hanswer)
      have hlast := ih (again hg hlog happly) hplies
      rwa [Nat.add_assoc, Nat.add_comm 1] at hlast

/-- Undoing leaves the status and the status at the start alone and takes as many entries off the
log as it counts. -/
theorem committed_of_undoPlies (h' : undoPlies save n g = .ok (count, h)) :
    h.log.committed = g.log.committed.drop count ∧ h.status = g.status ∧ h.initial = g.initial := by
  have hlast := undoPlies_induction (P := fun k h =>
      h.log.committed = g.log.committed.drop k ∧ h.status = g.status ∧ h.initial = g.initial)
    (k := 0) ?back ?forget ⟨rfl, rfl, rfl⟩ h'
  case back =>
    rintro k g₁ h e rest undone ⟨hcommitted, hstatus, hinitial⟩ hlog - hrevert
    have hframe := SameFrame.of_revert hrevert
    rw [hframe]
    refine ⟨?_, hstatus, hinitial⟩
    rw [← List.tail_drop, ← hcommitted, hlog]
    rfl
  case forget =>
    rintro k g₁ ⟨hcommitted, hstatus, hinitial⟩ hlog
    exact ⟨hlog.symm.trans hcommitted, hstatus, hinitial⟩
  rwa [Nat.zero_add] at hlast

/-- After plies have been taken back the threat maps are looked after and the status is that of the
log. -/
theorem undo_eq (hplies : undoPlies save n g = .ok (count, h)) : g.undo n save =
    .ok (if count = 0 then (.unchanged, h)
      else (h.recordedStatus, { h.refreshVolatile with status := h.recordedStatus })) := by
  have hrecord : h.refreshVolatile.recordedStatus = h.recordedStatus := by
    rw [refreshVolatile, refresh_eq]
    rfl
  rw [undo, hplies]
  show (if count = 0 then _ else _) = _
  split
  · rfl
  · exact congrArg (fun status => Except.ok (status, { h.refreshVolatile with status })) hrecord

/-- Undoing takes plies back and, if there were any, changes the threat maps and the status after
that. -/
theorem undo_cases (hundo : g.undo n save = .ok (answer, h)) : ∃ count k,
    undoPlies save n g = .ok (count, k) ∧ (count = 0 ∧ h = k ∨
      h = { k with threats := h.threats, status := k.recordedStatus }) := by
  obtain ⟨⟨count, k⟩, hplies, -⟩ := bind_eq_ok_iff.1 hundo
  refine ⟨count, k, hplies, ?_⟩
  rw [undo_eq hplies] at hundo
  split at hundo
  · next hcount =>
    obtain ⟨-, rfl⟩ := Prod.mk.inj (Except.ok.inj hundo)
    exact .inl ⟨hcount, rfl⟩
  · obtain ⟨-, rfl⟩ := Prod.mk.inj (Except.ok.inj hundo)
    rw [refreshVolatile, refresh_eq]
    exact .inr rfl

/-- Redoing plays plies again and changes threat maps after that. -/
theorem redo_cases (hredo : g.redo n = .ok (answer, h)) : ∃ count k,
    redoPlies n g = .ok (count, k) ∧ h = { k with threats := h.threats } := by
  obtain ⟨⟨count, k⟩, hplies, hrest⟩ := bind_eq_ok_iff.1 hredo
  refine ⟨count, k, hplies, ?_⟩
  dsimp only at hrest
  split at hrest
  · obtain ⟨-, rfl⟩ := Prod.mk.inj (Except.ok.inj hrest)
    rfl
  · obtain ⟨-, rfl⟩ := Prod.mk.inj (Except.ok.inj hrest)
    rw [refreshVolatile, refresh_eq]

end Game

end VariantChess
