import Mathlib.Algebra.GroupWithZero.Nat
import VariantChess.Proofs.Rewinding
import VariantChess.Proofs.SearchLog

/-!
# Undoing and redoing several plies

Undoing moves entries from one stack of the log to the other and redoing moves them back. Of the
games on the lines from one opening the log tells everything, so undoing as many plies as there are
and redoing them again gives the same game, and it makes no difference whether plies are undone or
redone in one call or in several.

What undoing and redoing have in common is stated once: `Game.Moves` describes an operation that
succeeds on a line and moves the log by a number of entries that adds up.
-/

namespace VariantChess

namespace Log

variable {l : Log}

/-- The log after its latest `n` entries have been undone, or dropped unless they are saved. -/
def undoBy (save : Bool) (n : Nat) (l : Log) : Log :=
  if save then ⟨l.committed.drop n, (l.committed.take n).reverse ++ l.undone⟩
  else if n = 0 then l
  else ⟨l.committed.drop n, []⟩

/-- The log after the latest `n` undone entries have been committed again. -/
def redoBy (n : Nat) (l : Log) : Log :=
  ⟨(l.undone.take n).reverse ++ l.committed, l.undone.drop n⟩

@[simp] theorem committed_undoBy (save : Bool) (n : Nat) (l : Log) :
    (l.undoBy save n).committed = l.committed.drop n := by
  unfold undoBy
  split
  · rfl
  · split
    · next hn => rw [hn, List.drop_zero]
    · rfl

/-- Undoing twice undoes as many entries as both times together. -/
theorem undoBy_undoBy (save : Bool) (m n : Nat) (l : Log) :
    (l.undoBy save m).undoBy save n = l.undoBy save (m + n) := by
  cases save with
  | true => simp [undoBy, List.take_add]
  | false =>
    by_cases hm : m = 0 <;> by_cases hn : n = 0 <;> simp [undoBy, hm, hn]

/-- Redoing twice redoes as many entries as both times together. -/
theorem redoBy_redoBy (m n : Nat) (l : Log) : (l.redoBy m).redoBy n = l.redoBy (m + n) := by
  simp [redoBy, List.take_add]

/-- There is nothing to undo in an empty log. -/
theorem undoBy_of_nil (h : l.committed = []) (n : Nat) : l.undoBy true n = l := by
  cases l
  subst h
  simp [undoBy]

/-- There is nothing to redo without undone entries. -/
theorem redoBy_of_nil (h : l.undone = []) (n : Nat) : l.redoBy n = l := by
  cases l
  subst h
  simp [redoBy]

/-- The entries that were undone can be redone. -/
theorem redoBy_undoBy {n : Nat} (h : n ≤ l.committed.length) : (l.undoBy true n).redoBy n = l := by
  have hlength : (l.committed.take n).reverse.length = n := by simp [h]
  simp only [undoBy, redoBy, if_true, List.take_left' hlength, List.drop_left' hlength,
    List.reverse_reverse, List.take_append_drop]

/-- The entries that were redone can be undone. -/
theorem undoBy_redoBy {n : Nat} (h : n ≤ l.undone.length) : (l.redoBy n).undoBy true n = l := by
  have hlength : (l.undone.take n).reverse.length = n := by simp [h]
  simp only [undoBy, redoBy, if_true, List.take_left' hlength, List.drop_left' hlength,
    List.reverse_reverse, List.take_append_drop]

end Log

namespace Game

variable {g₀ g h : Game} {n : Nat} {answer : Status}

/-- Undoing plies moves or drops as many entries of the log. -/
theorem log_of_undoPlies {save : Bool} {count : Nat} (h' : undoPlies save n g = .ok (count, h)) :
    h.log = g.log.undoBy save n := by
  cases save with
  | false => exact log_of_undoPlies_drop h'
  | true =>
    induction n generalizing g h count with
    | zero =>
      obtain ⟨rfl, rfl⟩ := Prod.mk.inj (Except.ok.inj h')
      rfl
    | succ n ih =>
      rw [undoPlies, if_pos rfl, Log.undo] at h'
      cases hlog : g.log.committed with
      | nil =>
        rw [hlog] at h'
        obtain ⟨rfl, rfl⟩ := Prod.mk.inj (Except.ok.inj h')
        exact (Log.undoBy_of_nil hlog _).symm
      | cons e rest =>
        rw [hlog] at h'
        obtain ⟨g₁, hrevert, hrest⟩ := bind_eq_ok_iff.1 h'
        obtain ⟨⟨earlier, g₂⟩, hplies, hanswer⟩ := bind_eq_ok_iff.1 hrest
        obtain ⟨rfl, rfl⟩ := Prod.mk.inj (Except.ok.inj hanswer)
        have hg₁ : g₁.log = ⟨rest, e :: g.log.undone⟩ := (SameFrame.of_revert hrevert).log
        rw [ih hplies, hg₁]
        simp [Log.undoBy, hlog]

/-- Redoing plies moves as many entries of the log. -/
theorem log_of_redoPlies {count : Nat} (h' : redoPlies n g = .ok (count, h)) :
    h.log = g.log.redoBy n := by
  induction n generalizing g h count with
  | zero =>
    obtain ⟨rfl, rfl⟩ := Prod.mk.inj (Except.ok.inj h')
    rfl
  | succ n ih =>
    rw [redoPlies, Log.redo] at h'
    cases hlog : g.log.undone with
    | nil =>
      rw [hlog] at h'
      obtain ⟨rfl, rfl⟩ := Prod.mk.inj (Except.ok.inj h')
      exact (Log.redoBy_of_nil hlog _).symm
    | cons e rest =>
      rw [hlog] at h'
      obtain ⟨g₁, happly, hrest⟩ := bind_eq_ok_iff.1 h'
      obtain ⟨⟨later, g₂⟩, hplies, hanswer⟩ := bind_eq_ok_iff.1 hrest
      obtain ⟨rfl, rfl⟩ := Prod.mk.inj (Except.ok.inj hanswer)
      have hg₁ : g₁.log = ⟨e :: g.log.committed, rest⟩ := (SameFrame.of_apply happly).log
      rw [ih hplies, hg₁]
      simp [Log.redoBy, hlog]

/-- Undoing moves or drops as many entries of the log. -/
theorem log_of_undo {save : Bool} (hundo : g.undo n save = .ok (answer, h)) :
    h.log = g.log.undoBy save n := by
  obtain ⟨count, k, hplies, hk⟩ := undo_cases hundo
  rw [← log_of_undoPlies hplies]
  obtain ⟨-, rfl⟩ | hsame := hk
  · rfl
  · rw [hsame]

/-- Redoing moves as many entries of the log. -/
theorem log_of_redo (hredo : g.redo n = .ok (answer, h)) : h.log = g.log.redoBy n := by
  obtain ⟨count, k, hplies, hsame⟩ := redo_cases hredo
  rw [← log_of_redoPlies hplies, hsame]

/-- Of two games on the lines from one opening, those with the same log are the same. -/
theorem Reached.eq_of_log (hg : Reached g₀ g) (hh : Reached g₀ h) (hlog : h.log = g.log) :
    h = g := by
  rw [hg.eq_of_committed hh (by rw [hlog]), hlog]

/-- An operation that moves a number of plies of a game on a line from one stack of the log to the
other, as far as the first one has them. -/
structure Moves (g₀ : Game) (go : Nat → Game → Except Fault (Status × Game))
    (shift : Nat → Log → Log) (room : Log → Nat) : Prop where
  shift_shift : ∀ m n l, shift n (shift m l) = shift (m + n) l
  room_shift : ∀ n l, room (shift n l) = room l - n
  go_zero : ∀ g, go 0 g = .ok (.unchanged, g)
  go_eq_ok : ∀ {g} n, Reached g₀ g → ∃ answer h, go n g = .ok (answer, h) ∧ Reached g₀ h ∧
    h.log = shift n g.log ∧ (min n (room g.log) ≠ 0 → answer = h.status)

/-- Undoing moves plies off the committed entries. -/
theorem moves_undo (h₀ : g₀.Opening) (save : Bool) :
    Moves g₀ (fun n g => g.undo n save) (Log.undoBy save) Log.length where
  shift_shift := Log.undoBy_undoBy save
  room_shift n l := by
    rw [Log.length, Log.length, Log.committed_undoBy, List.length_drop]
  go_zero _ := rfl
  go_eq_ok {g} n hg := by
    obtain ⟨h, answer, hundo, hh, -, hanswer⟩ := hg.undo_eq_ok h₀ n save
    exact ⟨answer, h, hundo, hh, log_of_undo hundo, hanswer⟩

/-- Redoing moves plies off the undone entries. -/
theorem moves_redo (h₀ : g₀.Opening) :
    Moves g₀ (fun n g => g.redo n) Log.redoBy (·.undone.length) where
  shift_shift := Log.redoBy_redoBy
  room_shift n l := by
    rw [Log.redoBy, List.length_drop]
  go_zero _ := rfl
  go_eq_ok {g} n hg := by
    obtain ⟨h, answer, hredo, hh⟩ := hg.redo_eq_ok h₀ n
    refine ⟨answer, h, hredo, hh, log_of_redo hredo, ?_⟩
    obtain ⟨k, hplies, -⟩ := hg.redoPlies_eq_ok h₀ n
    obtain ⟨⟨count, g₁⟩, hplies', hrest⟩ := bind_eq_ok_iff.1 hredo
    obtain ⟨rfl, rfl⟩ := Prod.mk.inj (Except.ok.inj (hplies.symm.trans hplies'))
    dsimp only at hrest
    split at hrest
    · next hcount => exact fun hn => absurd hcount hn
    · obtain ⟨rfl, rfl⟩ := Prod.mk.inj (Except.ok.inj hrest)
      exact fun _ => rfl

/-- Moving plies in several calls, one after the other; the answer is that of the last call. -/
def inTurn (go : Nat → Game → Except Fault (Status × Game)) (counts : List Nat) (g : Game) :
    Except Fault (Status × Game) :=
  counts.foldlM (fun r n => go n r.2) (.unchanged, g)

namespace Moves

variable {go : Nat → Game → Except Fault (Status × Game)} {shift : Nat → Log → Log}
  {room : Log → Nat} (hgo : Moves g₀ go shift room)
include hgo

/-- Several calls move as many plies as one call that moves them all, whatever was answered before
them. The answers agree as well when every call, the first one included, has a ply to move. -/
theorem foldlM_eq_ok (hg : Reached g₀ g) (before : Status) (counts : List Nat) :
    ∃ answer answer' h, counts.foldlM (fun r n => go n r.2) (before, g) = .ok (answer, h) ∧
      go counts.sum g = .ok (answer', h) ∧
      (counts ≠ [] → (∀ n ∈ counts, n ≠ 0) → counts.sum ≤ room g.log →
        answer = h.status ∧ answer' = h.status) := by
  induction counts generalizing g before with
  | nil =>
    exact ⟨before, .unchanged, g, rfl, hgo.go_zero g, fun hne => absurd rfl hne⟩
  | cons n rest ih =>
    obtain ⟨first, g₁, hfirst, hg₁, hlog₁, hanswer₁⟩ := hgo.go_eq_ok n hg
    obtain ⟨last, _, h, hrest, hjoint, hlast⟩ := ih hg₁ first
    obtain ⟨answer', h', hall, hh', hlog', hanswer'⟩ := hgo.go_eq_ok (n + rest.sum) hg
    -- both ways lead along the line, and to the same log
    obtain ⟨_, h₁, hjoint₁, hh, hlog, -⟩ := hgo.go_eq_ok rest.sum hg₁
    obtain ⟨-, rfl⟩ := Prod.mk.inj (Except.ok.inj (hjoint.symm.trans hjoint₁))
    obtain rfl : h = h' := hh'.eq_of_log hh (by rw [hlog, hlog₁, hgo.shift_shift, hlog'])
    refine ⟨last, answer', h, ?_, hall, fun _ hsome hroom => ?_⟩
    · rw [List.foldlM_cons]
      exact bind_eq_ok_iff.2 ⟨_, hfirst, hrest⟩
    · rw [List.forall_mem_cons] at hsome
      rw [List.sum_cons] at hroom
      have hn := hsome.1
      refine ⟨?_, hanswer' (by omega)⟩
      cases rest with
      | nil =>
        obtain ⟨rfl, rfl⟩ := Prod.mk.inj (Except.ok.inj hrest)
        exact hanswer₁ (by omega)
      | cons m rest =>
        refine (hlast (List.cons_ne_nil m rest) hsome.2 ?_).1
        rw [hlog₁, hgo.room_shift]
        omega

/-- Moving plies in several calls gives the same game as moving them in one. The answer is the same
as well when every call has a ply to move. -/
theorem inTurn_eq_ok (hg : Reached g₀ g) (counts : List Nat) :
    ∃ answer answer' h, inTurn go counts g = .ok (answer, h) ∧
      go counts.sum g = .ok (answer', h) ∧
      ((∀ n ∈ counts, n ≠ 0) → counts.sum ≤ room g.log → answer = answer') := by
  obtain ⟨answer, answer', h, hturn, hjoint, hsame⟩ := hgo.foldlM_eq_ok hg .unchanged counts
  refine ⟨answer, answer', h, hturn, hjoint, fun hsome hroom => ?_⟩
  cases counts with
  | nil =>
    obtain ⟨rfl, -⟩ := Prod.mk.inj (Except.ok.inj hturn)
    rw [List.sum_nil, hgo.go_zero] at hjoint
    exact (Prod.mk.inj (Except.ok.inj hjoint)).1
  | cons n rest =>
    obtain ⟨hanswer, hanswer'⟩ := hsame (List.cons_ne_nil n rest) hsome hroom
    exact hanswer.trans hanswer'.symm

/-- Moving plies and moving them back gives back the game when the log says so. -/
theorem back {back : Nat → Game → Except Fault (Status × Game)} {unshift : Nat → Log → Log}
    {room' : Log → Nat} (hback : Moves g₀ back unshift room') (hg : Reached g₀ g)
    (hlog : unshift n (shift n g.log) = g.log) :
    ∃ answer h answer', go n g = .ok (answer, h) ∧ back n h = .ok (answer', g) := by
  obtain ⟨answer, h, hthere, hh, hlog₁, -⟩ := hgo.go_eq_ok n hg
  obtain ⟨answer', k, hagain, hk, hlog₂, -⟩ := hback.go_eq_ok n hh
  obtain rfl := hg.eq_of_log hk (by rw [hlog₂, hlog₁, hlog])
  exact ⟨answer, h, answer', hthere, hagain⟩

end Moves

variable {set : PieceSet} {layout : List Char} {config : GameConfig} {ops : List Operation}

/-- In every game of a run, from any layout and with any regular piece set, undoing plies that are
committed and redoing them gives back the game, and so does redoing plies that are undone and
undoing them. Undoing or redoing plies in several calls gives the same game as in one, with the same
answer when each of the calls has a ply to move. -/
theorem undo_redo_of_run (hset : set.Regular) (hstart : start set layout config = .ok g₀)
    (hrun : g₀.run ops = .ok g) :
    (∀ n ≤ g.log.committed.length, ∃ answer h answer',
      g.undo n true = .ok (answer, h) ∧ h.redo n = .ok (answer', g)) ∧
    (∀ n ≤ g.log.undone.length, ∃ answer h answer',
      g.redo n = .ok (answer, h) ∧ h.undo n true = .ok (answer', g)) ∧
    (∀ save counts, ∃ answer answer' h,
      inTurn (fun n g => g.undo n save) counts g = .ok (answer, h) ∧
      g.undo counts.sum save = .ok (answer', h) ∧
      ((∀ n ∈ counts, n ≠ 0) → counts.sum ≤ g.log.committed.length → answer = answer')) ∧
    (∀ counts, ∃ answer answer' h,
      inTurn (fun n g => g.redo n) counts g = .ok (answer, h) ∧
      g.redo counts.sum = .ok (answer', h) ∧
      ((∀ n ∈ counts, n ≠ 0) → counts.sum ≤ g.log.undone.length → answer = answer')) := by
  have h₀ := opening_of_regular hset hstart
  have hg := h₀.reached_of_run hrun
  refine ⟨fun n hn => ?_, fun n hn => ?_, fun save counts => ?_, fun counts => ?_⟩
  · exact (moves_undo h₀ true).back (moves_redo h₀) hg (Log.redoBy_undoBy hn)
  · exact (moves_redo h₀).back (moves_undo h₀ true) hg (Log.undoBy_redoBy hn)
  · exact (moves_undo h₀ save).inTurn_eq_ok hg counts
  · exact (moves_redo h₀).inTurn_eq_ok hg counts

/-- A rook gives check and is taken. Undoing both plies, in one call or in two, leads to the game with
nothing committed and both plies undone, in which the rook is back on the board and the king unmoved.
Redoing them gives the game again, with the rook off the board and its taker marked as before. -/
theorem undo_redo_of_run_small : ∃ g₀ g answer h answer',
    start .orthodox "w wKa1 wRb1 bKc3*".toList smallConfig = .ok g₀ ∧
      g₀.run [.update ⟨.white, .ofCoords 1 0, .ofCoords 1 2⟩,
        .update ⟨.black, .ofCoords 2 2, .ofCoords 1 2⟩] = .ok g ∧
      g.log.committed.length = 2 ∧ g.board.has ⟨1⟩ = false ∧
      g.board.piece? ⟨2⟩ = some ⟨.black, .standard .king, .ofCoords 1 2, true⟩ ∧
      g.undo 2 true = .ok (answer, h) ∧
      h.log.committed = [] ∧ h.log.undone.length = 2 ∧ h.board.has ⟨1⟩ ∧
      h.board.piece? ⟨2⟩ = some ⟨.black, .standard .king, .ofCoords 2 2, false⟩ ∧
      h.redo 2 = .ok (answer', g) ∧
      inTurn (fun n g => g.undo n true) [1, 1] g = .ok (answer, h) := by
  obtain ⟨g₀, g, hstart, hrun, htest⟩ :=
    exists_run_passing .orthodox "w wKa1 wRb1 bKc3*".toList smallConfig
      [.update ⟨.white, .ofCoords 1 0, .ofCoords 1 2⟩,
        .update ⟨.black, .ofCoords 2 2, .ofCoords 1 2⟩]
      (fun _ g => decide (g.log.committed.length = 2 ∧ g.board.has ⟨1⟩ = false ∧
          g.board.piece? ⟨2⟩ = some ⟨.black, .standard .king, .ofCoords 1 2, true⟩) &&
        (g.undo 2 true).toOption.any fun r : Status × Game =>
          decide (r.2.log.committed.length = 0 ∧ r.2.log.undone.length = 2 ∧ r.2.board.has ⟨1⟩ ∧
            r.2.board.piece? ⟨2⟩ = some ⟨.black, .standard .king, .ofCoords 2 2, false⟩))
      (by decide +kernel)
  rw [Bool.and_eq_true, decide_eq_true_eq] at htest
  obtain ⟨⟨hlength, htaken, hmoved⟩, hundone⟩ := htest
  obtain ⟨⟨answer, h⟩, hundo, hmiddle⟩ := (Option.any_eq_true _ _).1 hundone
  rw [toOption_eq_some_iff] at hundo
  obtain ⟨hnone, hboth, hback, hunmoved⟩ := of_decide_eq_true hmiddle
  obtain ⟨hagain, -, hturns, -⟩ := undo_redo_of_run regular_orthodox hstart hrun
  obtain ⟨_, _, answer', hundo', hredo⟩ := hagain 2 (by rw [hlength])
  obtain ⟨rfl, rfl⟩ := Prod.mk.inj (Except.ok.inj (hundo.symm.trans hundo'))
  obtain ⟨_, _, _, hturn, hjoint, hsame⟩ := hturns true [1, 1]
  obtain rfl := hsame (by decide) (by rw [hlength]; decide)
  obtain ⟨rfl, rfl⟩ := Prod.mk.inj (Except.ok.inj (hundo.symm.trans hjoint))
  exact ⟨g₀, g, answer, h, answer', hstart, hrun, hlength, htaken, hmoved, hundo,
    List.eq_nil_of_length_eq_zero hnone, hboth, hback, hunmoved, hredo, hturn⟩

end Game

end VariantChess
