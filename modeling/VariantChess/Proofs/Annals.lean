import VariantChess.Proofs.KingTable
import VariantChess.Proofs.RelabelledPlay
import VariantChess.Proofs.UndoRedo

/-!
# The history tells what happened

The log does not hold the kinds of the movers. The history finds them by walking back from the board
through the promotions, and what it finds are the kinds that the pieces had: a step changes the kind
of a promoted mover only, and the ply records what that was. So a written move tells what could be
seen when its ply was played, however often the mover was promoted by then or later and whether or
not it was taken since.

Committed and undone plies are one sequence, which undoing and redoing do not change. There is one
sequence of written moves for it, and the history is as much of its beginning as there are committed
plies. All of this holds for any pieces and whether or not the threat maps are up to date.
-/

namespace VariantChess

/-- The kinds of the pieces, on the board or taken. -/
def Board.kindOf (b : Board) (id : PieceId) : Option Kind := (b.piece? id).map (·.kind)

/-- A written move tells of a step what can be seen of it: the kind of the mover before the step,
its source and target and whether a piece went off the board. -/
structure MoveText.Tells (m : MoveText) (p : Ply) (b b' : Board) : Prop where
  step : p.Step b b'
  kind : b.kindOf p.piece = some m.kind
  source : m.source = p.source
  target : m.target = p.target
  capture : m.capture ↔ ∃ id, b.has id ∧ b'.has id = false

namespace Ply

variable {p : Ply} {b b' : Board}

/-- A ply names a piece that it takes off the board exactly if it takes one. -/
theorem taken_isSome_iff : p.taken.isSome ↔ ∃ id, p.takes id := by
  simp only [taken, takes, Bool.or_eq_true, decide_eq_true_eq]
  rw [Option.isSome_iff_exists]
  cases p.effect with
  | none => simp
  | some e =>
    cases e with
    | remove id place => exact ⟨fun _ => ⟨id, by simp⟩, fun _ => ⟨id, rfl⟩⟩
    | relocate | promote => simp

namespace Step

/-- A step takes a piece off the board exactly if its ply names one. -/
theorem taken_isSome_iff (h : p.Step b b') (hb : b.Sound) :
    p.taken.isSome ↔ ∃ id, b.has id ∧ b'.has id = false := by
  rw [Ply.taken_isSome_iff]
  refine exists_congr fun id => ?_
  obtain ⟨hstood, hhas⟩ := h.has_eq hb id
  rw [hhas]
  constructor
  · intro htakes
    exact ⟨hstood htakes, by rw [htakes, Bool.not_true, Bool.and_false]⟩
  · rintro ⟨hb, hgone⟩
    rw [hb, Bool.true_and, Bool.not_eq_false'] at hgone
    exact hgone

/-- Walking back over a step finds the kinds of the board before it. -/
theorem kindBefore_eq (h : p.Step b b') : Game.kindBefore b'.kindOf p = b.kindOf := by
  funext id
  have hkind := h.kind_map_eq id
  have heffect := h.records.effect
  rw [RecordsEffect] at heffect
  rw [Game.kindBefore]
  cases he : p.effect with
  | none =>
    rw [he] at hkind
    exact hkind
  | some e =>
    rw [he] at hkind heffect
    cases e with
    | relocate | remove => exact hkind
    | promote source target =>
      obtain ⟨q, hq, rfl⟩ := heffect
      by_cases hid : id = p.piece
      · rw [hid, Board.kindOf, hq]
        exact if_pos rfl
      · simp only [Ne.symm hid, if_false] at hkind
        exact (if_neg hid).trans hkind

/-- Every step has a written move. -/
theorem exists_tells (h : p.Step b b') (hb : b.Sound) : ∃ m : MoveText, m.Tells p b b' := by
  obtain ⟨q, hq, -⟩ := h.records.mover
  refine ⟨⟨q.kind, p.source, p.target, p.taken.isSome⟩, h, ?_, rfl, rfl, h.taken_isSome_iff hb⟩
  rw [Board.kindOf, hq]
  rfl

end Step

end Ply

/-- What is written of a step is the move that tells of it. -/
theorem MoveText.Tells.written {m : MoveText} {p : Ply} {b b' : Board} (h : m.Tells p b b')
    (hb : b.Sound) : (Game.kindBefore b'.kindOf p p.piece).toList.map
      (fun kind => ⟨kind, p.source, p.target, p.taken.isSome⟩) = [m] := by
  have hcapture : p.taken.isSome = m.capture := by
    rw [Bool.eq_iff_iff, h.step.taken_isSome_iff hb, h.capture]
  rw [h.step.kindBefore_eq, h.kind, hcapture, ← h.source, ← h.target]
  rfl

namespace Board

/-- The plies lead from the first board to the second, and each of the moves tells of one of them.
Both come latest first. -/
inductive Told (b₀ : Board) : List Ply → List MoveText → Board → Prop
  | start : Told b₀ [] [] b₀
  | next {log : List Ply} {moves : List MoveText} {p : Ply} {m : MoveText} {b b' : Board}
    (earlier : Told b₀ log moves b) (tells : m.Tells p b b') : Told b₀ (p :: log) (m :: moves) b'

namespace Told

variable {b₀ b : Board} {log : List Ply} {moves : List MoveText}

/-- Plies that are told of can be played. -/
theorem played (h : b₀.Told log moves b) : b₀.Played log b := by
  induction h with
  | start => exact .start
  | next _ tells ih => exact ih.next tells.step

/-- There is one move for each ply. -/
theorem length_eq (h : b₀.Told log moves b) : moves.length = log.length := by
  induction h with
  | start => rfl
  | next _ _ ih => rw [List.length_cons, List.length_cons, ih]

/-- Moves for earlier plies come earlier. -/
theorem exists_earlier {later : List Ply} (h : b₀.Told (later ++ log) moves b) :
    ∃ moves₁ moves₂ b', moves = moves₁ ++ moves₂ ∧ b₀.Told log moves₂ b' := by
  induction later generalizing moves b with
  | nil => exact ⟨[], moves, b, rfl, h⟩
  | cons p later ih =>
    cases h with
    | @next _ _ _ m _ _ earlier _ =>
      obtain ⟨moves₁, moves₂, b', rfl, htold⟩ := ih earlier
      exact ⟨m :: moves₁, moves₂, b', rfl, htold⟩

/-- The moves counted from the oldest one, with the boards before and after their plies. -/
theorem getElem? (h : b₀.Told log moves b) {i : Nat} {m : MoveText}
    (hm : moves.reverse[i]? = some m) : ∃ p b₁ b₂, log.reverse[i]? = some p ∧
      b₀.Played (log.reverse.take i).reverse b₁ ∧ m.Tells p b₁ b₂ := by
  induction h with
  | start => simp at hm
  | @next log moves p m' b b' earlier tells ih =>
    have hlength := earlier.length_eq
    rw [List.reverse_cons, List.getElem?_append, List.length_reverse] at hm
    simp only [List.reverse_cons, List.getElem?_append, List.length_reverse]
    split at hm
    · next hi =>
      obtain ⟨p, b₁, b₂, hp, hplayed, htells⟩ := ih hm
      rw [if_pos (hlength ▸ hi), List.take_append_of_le_length (by simp; omega)]
      exact ⟨p, b₁, b₂, hp, hplayed, htells⟩
    · next hi =>
      have hlast : i - moves.length < [m'].length := (List.getElem?_eq_some_iff.1 hm).1
      rw [List.length_singleton] at hlast
      obtain rfl : i = moves.length := by omega
      rw [Nat.sub_self, List.getElem?_cons_zero, Option.some.injEq] at hm
      subst hm
      have hall : log.reverse.length = moves.length := List.length_reverse.trans hlength.symm
      refine ⟨p, b, b', by simp [hlength], ?_, tells⟩
      rw [List.take_left' hall, List.reverse_reverse]
      exact earlier.played

variable (h₀ : b₀.Sound)
include h₀

/-- Plies that can be played have moves that tell of them. -/
theorem of_played (h : b₀.Played log b) : ∃ moves, b₀.Told log moves b := by
  induction h with
  | start => exact ⟨[], .start⟩
  | next hprev hstep ih =>
    obtain ⟨moves, htold⟩ := ih
    obtain ⟨m, htells⟩ := hstep.exists_tells (hprev.sound h₀)
    exact ⟨m :: moves, htold.next htells⟩

/-- The moves that are written for a log, given the kinds on the board that it leads to, are those
that tell of its plies. -/
theorem writePlies_eq {log : List LogEntry} (h : b₀.Told (log.map (·.ply)) moves b)
    (written : List MoveText) :
    Game.writePlies b.kindOf log written = moves.reverse ++ written := by
  induction log generalizing moves b written with
  | nil =>
    cases h
    rfl
  | cons e log ih =>
    rw [List.map_cons] at h
    cases h with
    | next earlier tells =>
      rw [Game.writePlies_cons, tells.written (earlier.played.sound h₀), tells.step.kindBefore_eq,
        ih earlier, List.reverse_cons, List.append_assoc]

end Told

end Board

namespace Log

variable {l : Log} {n : Nat}

/-- The committed entries and the undone ones that continue them, latest first. -/
def sequence (l : Log) : List LogEntry := l.undone.reverse ++ l.committed

/-- The committed entries are the earlier ones. -/
theorem committed_suffix (l : Log) : l.committed <:+ l.sequence := ⟨l.undone.reverse, rfl⟩

/-- Undoing without dropping anything keeps the sequence. -/
theorem sequence_undoBy (n : Nat) (l : Log) : (l.undoBy true n).sequence = l.sequence := by
  simp only [sequence, undoBy, if_true, List.reverse_append, List.reverse_reverse,
    List.append_assoc, List.take_append_drop]

/-- Redoing keeps the sequence. -/
theorem sequence_redoBy (n : Nat) (l : Log) : (l.redoBy n).sequence = l.sequence := by
  simp only [sequence, redoBy, ← List.append_assoc, ← List.reverse_append, List.take_append_drop]

/-- Undoing takes off as many committed entries as there are. -/
theorem length_undoBy (save : Bool) (n : Nat) (l : Log) :
    (l.undoBy save n).length = l.length - n := by
  rw [length, length, committed_undoBy, List.length_drop]

/-- Redoing commits as many entries again as there are. -/
theorem length_redoBy (n : Nat) (l : Log) :
    (l.redoBy n).length = min (l.length + n) l.sequence.length := by
  simp only [length, redoBy, sequence, List.length_append, List.length_reverse, List.length_take]
  omega

end Log

namespace Operation

/-- Whether an operation undoes plies, keeping them for redoing, or redoes plies. -/
def travels : Operation → Bool
  | .undo _ save => save
  | .redo _ => true
  | _ => false

/-- How many plies are committed after undoing or redoing, of the given number in all. -/
def seek (total : Nat) : Operation → Nat → Nat
  | .undo n _, k => k - n
  | .redo n, k => min (k + n) total
  | _, k => k

end Operation

namespace Game

variable {g h : Game} {b₀ : Board}

namespace Recorded

/-- Plies can always be taken back. -/
theorem exists_undoPlies (hg : Recorded b₀ g) (save : Bool) (n : Nat) :
    ∃ r, Game.undoPlies save n g = .ok r := by
  induction n generalizing g with
  | zero => exact ⟨_, rfl⟩
  | succ n ih =>
    rw [Game.undoPlies]
    cases hlog : g.log.committed with
    | nil =>
      rw [Log.undo, Log.drop, hlog]
      cases save <;> exact ⟨_, rfl⟩
    | cons e rest =>
      obtain ⟨undone, hundo, hundone⟩ := Log.exists_undone hlog save
      rw [hundo]
      have hplayed := hg.played
      rw [hlog, List.map_cons] at hplayed
      obtain ⟨b, -, hstep⟩ := hplayed.exists_step
      apply exists_bind_eq_ok
      · rw [revert_eq_map, hstep.takeBack]
        exact ⟨_, rfl⟩
      · intro g₁ hrevert
        exact exists_bind_eq_ok (ih ((hg.of_revert hlog hundone hrevert).of_same rfl rfl))
          fun _ _ => ⟨_, rfl⟩

/-- Undone plies can always be played again. -/
theorem exists_redoPlies (hg : Recorded b₀ g) (n : Nat) : ∃ r, Game.redoPlies n g = .ok r := by
  induction n generalizing g with
  | zero => exact ⟨_, rfl⟩
  | succ n ih =>
    rw [Game.redoPlies, Log.redo]
    cases hlog : g.log.undone with
    | nil => exact ⟨_, rfl⟩
    | cons e rest =>
      obtain ⟨last, hreplay⟩ := hg.replayable
      rw [hlog, List.reverse_cons, List.append_assoc, List.singleton_append, List.map_append]
        at hreplay
      obtain ⟨b', hnext⟩ := hreplay.exists_earlier
      obtain ⟨b, hprev, hstep⟩ := hnext.exists_step
      obtain rfl := hprev.unique hg.played
      apply exists_bind_eq_ok
      · rw [apply_eq_map, hstep.play]
        exact ⟨_, rfl⟩
      · intro g₁ happly
        exact exists_bind_eq_ok (ih ((hg.of_apply hlog happly).of_same rfl rfl))
          fun _ _ => ⟨_, rfl⟩

/-- Undoing always succeeds. -/
theorem exists_undo (hg : Recorded b₀ g) (n : Nat) (save : Bool) :
    ∃ answer h, g.undo n save = .ok (answer, h) := by
  obtain ⟨⟨count, k⟩, hplies⟩ := hg.exists_undoPlies save n
  exact ⟨_, _, undo_eq hplies⟩

/-- Redoing always succeeds. -/
theorem exists_redo (hg : Recorded b₀ g) (n : Nat) :
    ∃ answer h, g.redo n = .ok (answer, h) := by
  obtain ⟨⟨count, k⟩, hplies⟩ := hg.exists_redoPlies n
  rw [Game.redo, hplies]
  by_cases hcount : count = 0
  · exact ⟨_, _, if_pos hcount⟩
  · exact ⟨_, _, if_neg hcount⟩

/-- Undoing and redoing moves along the sequence of plies. -/
theorem perform_of_travels {o : Operation} (ho : o.travels) (hg : Recorded b₀ g) :
    ∃ h, o.perform g = .ok h ∧ Recorded b₀ h ∧ h.log.sequence = g.log.sequence ∧
      h.log.length = o.seek g.log.sequence.length g.log.length := by
  cases o with
  | undo n save =>
    obtain rfl : save = true := ho
    obtain ⟨answer, h, hundo⟩ := hg.exists_undo n true
    refine ⟨h, map_eq_ok_iff.2 ⟨_, hundo, rfl⟩, hg.undo hundo, ?_, ?_⟩
    · rw [log_of_undo hundo, Log.sequence_undoBy]
    · rw [log_of_undo hundo, Log.length_undoBy, Operation.seek]
  | redo n =>
    obtain ⟨answer, h, hredo⟩ := hg.exists_redo n
    refine ⟨h, map_eq_ok_iff.2 ⟨_, hredo, rfl⟩, hg.redo hredo, ?_, ?_⟩
    · rw [log_of_redo hredo, Log.sequence_redoBy]
    · rw [log_of_redo hredo, Log.length_redoBy, Operation.seek]
  | _ => cases ho

/-- So does every run that undoes and redoes. -/
theorem run_of_travels {ops : List Operation} (hops : ∀ o ∈ ops, o.travels)
    (hg : Recorded b₀ g) : ∃ h, g.run ops = .ok h ∧ Recorded b₀ h ∧
      h.log.sequence = g.log.sequence ∧
      h.log.length = ops.foldl (fun k o => o.seek g.log.sequence.length k) g.log.length := by
  induction ops generalizing g with
  | nil => exact ⟨g, rfl, hg, rfl, rfl⟩
  | cons o rest ih =>
    rw [List.forall_mem_cons] at hops
    obtain ⟨g₁, hperform, hg₁, hsequence, hlength⟩ := hg.perform_of_travels hops.1
    obtain ⟨h, hrun, hh, hsequence', hlength'⟩ := ih hops.2 hg₁
    refine ⟨h, ?_, hh, hsequence'.trans hsequence, ?_⟩
    · rw [Game.run, List.foldlM_cons]
      exact bind_eq_ok_iff.2 ⟨g₁, hperform, hrun⟩
    · rw [hlength', hsequence, hlength, List.foldl_cons]

/-- The history of a game is the beginning of what is told of a longer sequence of plies. -/
theorem history_eq (h₀ : b₀.Sound) (hg : Recorded b₀ g) {log : List LogEntry}
    {moves : List MoveText} {b : Board} (htold : b₀.Told (log.map (·.ply)) moves b)
    (hlog : g.log.committed <:+ log) : g.history = moves.reverse.take g.log.length := by
  obtain ⟨later, rfl⟩ := hlog
  rw [List.map_append] at htold
  obtain ⟨moves₁, moves₂, b', rfl, hearlier⟩ := htold.exists_earlier
  obtain rfl := hearlier.played.unique hg.played
  have hlength : moves₂.reverse.length = g.log.length := by
    rw [List.length_reverse, hearlier.length_eq, List.length_map, Log.length]
  rw [List.reverse_append, List.take_left' hlength]
  exact (hearlier.writePlies_eq h₀ []).trans (List.append_nil _)

/-- The history of a game tells of its committed plies. -/
theorem told_history (h₀ : b₀.Sound) (hg : Recorded b₀ g) :
    b₀.Told (g.log.committed.map (·.ply)) g.history.reverse g.board := by
  obtain ⟨moves, htold⟩ := Board.Told.of_played h₀ hg.played
  have hlength : moves.reverse.length ≤ g.log.length := by
    rw [List.length_reverse, htold.length_eq, List.length_map, Log.length]
  rw [hg.history_eq h₀ htold (List.suffix_refl _), List.take_of_length_le hlength,
    List.reverse_reverse]
  exact htold

/-- There is one written move for each committed ply. -/
theorem length_history (h₀ : b₀.Sound) (hg : Recorded b₀ g) : g.history.length = g.log.length := by
  rw [← List.length_reverse, (hg.told_history h₀).length_eq, List.length_map, Log.length]

/-- An accepted action adds the move that tells of it to the history. -/
theorem history_of_update (h₀ : b₀.Sound) (hg : Recorded b₀ g) {a : Action} {status : Status}
    (hupdate : g.update a = .ok (.ok status, h)) : ∃ e m, h.log.committed = e :: g.log.committed ∧
      h.history = g.history ++ [m] ∧ m.Tells e.ply g.board h.board ∧ m.action a.colour = a := by
  have hsound := hg.played.sound h₀
  have hh := hg.update h₀ hupdate
  obtain ⟨_, hr, -⟩ | ⟨ply, status', -, hc⟩ := update_cases_of_sound hsound hupdate
  · cases hr
  obtain ⟨_, hr, -⟩ | ⟨ply', _, -, hvet, hlog⟩ := log_of_update hupdate
  · cases hr
  obtain ⟨m, htells⟩ := hc.step.exists_tells hsound
  have htold : b₀.Told (h.log.committed.map (·.ply)) (m :: g.history.reverse) h.board := by
    rw [hc.log]
    exact (hg.told_history h₀).next htells
  have hlength : (m :: g.history.reverse).reverse.length = h.log.length := by
    rw [List.length_reverse, htold.length_eq, List.length_map, Log.length]
  refine ⟨⟨ply, status'⟩, m, congrArg Log.committed hc.log, ?_, htells, ?_⟩
  · rw [hh.history_eq h₀ htold (List.suffix_refl _), List.take_of_length_le hlength.le,
      List.reverse_cons, List.reverse_reverse]
  · -- the committed ply is the one that was planned for the action
    have hentry := hc.log.symm.trans hlog
    simp only [Log.mk.injEq, List.cons.injEq, LogEntry.mk.injEq, and_true] at hentry
    obtain ⟨rfl, -⟩ := hentry
    obtain ⟨-, -, -, -, id, hon, -, hplan⟩ := vet_eq_ok_iff.1 hvet
    obtain ⟨owner, howner, hsource⟩ := source_of_plan? hplan
    rw [MoveText.action, htells.source, htells.target, hsource, hsound.point_eq hon howner,
      target_of_plan? hplan]

end Recorded

variable {set : PieceSet} {layout : List Char} {config : GameConfig} {ops : List Operation}
  {g₀ : Game}

/-- In every game of a run, from any layout and with any piece set, the history has one move for
each committed ply. It tells of the ply what could be seen on the board that the plies before it
lead to: the kind that its mover had then, its squares and whether it took a piece. An accepted
action adds the move that tells of it and leaves the others alone. Undoing always succeeds and drops
as many of the latest moves. There is one sequence of moves for the committed and the undone plies,
and any run that undoes plies, keeping them, and redoes them succeeds and leaves a beginning of it
as the history, which is as long as the undone and redone plies make it. -/
theorem history_of_run (hstart : start set layout config = .ok g₀) (hrun : g₀.run ops = .ok g) :
    ∃ board first, Board.read set config.bounds layout = .ok (board, first) ∧
      g.history.length = g.log.length ∧
      (∀ i m, g.history[i]? = some m → ∃ e b b', g.log.entries[i]? = some e ∧
        board.Played ((g.log.entries.take i).map (·.ply)).reverse b ∧ m.Tells e.ply b b') ∧
      (∀ a status h, g.update a = .ok (.ok status, h) → ∃ e m,
        h.log.committed = e :: g.log.committed ∧ h.history = g.history ++ [m] ∧
          m.Tells e.ply g.board h.board ∧ m.action a.colour = a) ∧
      (∀ n save, ∃ answer h, g.undo n save = .ok (answer, h) ∧
        h.history = g.history.take (g.log.length - n)) ∧
      ∃ whole : List MoveText, whole.length = g.log.length + g.log.undone.length ∧
        ∀ ops, (∀ o ∈ ops, o.travels) → ∃ h, g.run ops = .ok h ∧
          h.history = whole.take (ops.foldl (fun k o => o.seek whole.length k) g.log.length) := by
  obtain ⟨board, first, hread, hrecorded⟩ := recorded_of_start hstart
  obtain ⟨h₀, -, -⟩ := Board.of_read hread
  have hg := (preserved_recorded h₀).run hrecorded hrun
  refine ⟨board, first, hread, hg.length_history h₀, fun i m hm => ?_,
    fun a status h hupdate => hg.history_of_update h₀ hupdate, fun n save => ?_, ?_⟩
  · rw [← g.history.reverse_reverse] at hm
    obtain ⟨p, b, b', hp, hplayed, htells⟩ := (hg.told_history h₀).getElem? hm
    rw [← List.map_reverse, List.getElem?_map, Option.map_eq_some_iff] at hp
    obtain ⟨e, he, rfl⟩ := hp
    rw [← List.map_reverse, ← List.map_take] at hplayed
    exact ⟨e, b, b', he, hplayed, htells⟩
  · obtain ⟨answer, h, hundo⟩ := hg.exists_undo n save
    refine ⟨answer, h, hundo, ?_⟩
    have hlog := log_of_undo hundo
    rw [(hg.undo hundo).history_eq h₀ (hg.told_history h₀), List.reverse_reverse, hlog,
      Log.length_undoBy]
    rw [hlog, Log.committed_undoBy]
    exact List.drop_suffix n _
  · obtain ⟨last, hreplay⟩ := hg.replayable
    obtain ⟨moves, htold⟩ := Board.Told.of_played h₀ hreplay
    have hlength : moves.reverse.length = g.log.sequence.length := by
      rw [List.length_reverse, htold.length_eq, List.length_map, Log.sequence]
    refine ⟨moves.reverse, ?_, fun ops hops => ?_⟩
    · rw [hlength, Log.sequence, List.length_append, List.length_reverse, Nat.add_comm, Log.length]
    · obtain ⟨h, hback, hh, hsequence, hcount⟩ := hg.run_of_travels hops
      refine ⟨h, hback, ?_⟩
      have hsuffix := h.log.committed_suffix
      rw [hsequence] at hsuffix
      rw [hlength, ← hcount]
      exact hh.history_eq h₀ htold hsuffix

/-- A pawn takes a rook and becomes a queen, which the king takes. The first move is written with
the pawn all the same, also after both plies have been undone and it has been redone. -/
theorem history_of_run_small : ∃ g₀ g m,
    start .orthodox "w wKc1 wPa2 bRb3 bKc3".toList smallConfig = .ok g₀ ∧
      g₀.run [.update ⟨.white, .ofCoords 0 1, .ofCoords 1 2⟩,
        .update ⟨.black, .ofCoords 2 2, .ofCoords 1 2⟩] = .ok g ∧
      g.board.kindOf ⟨1⟩ = some (.standard .queen) ∧ g.board.has ⟨1⟩ = false ∧
      g.history.length = 2 ∧ g.history[0]? = some m ∧ m.text = "Pa2xb3".toList ∧
      (∃ e b b', g.log.entries[0]? = some e ∧ m.Tells e.ply b b') ∧
      ∃ h, g.run [.undo 2 true, .redo 1] = .ok h ∧ h.history = [m] := by
  obtain ⟨g₀, g, hstart, hrun, htest⟩ :=
    exists_run_passing .orthodox "w wKc1 wPa2 bRb3 bKc3".toList smallConfig
      [.update ⟨.white, .ofCoords 0 1, .ofCoords 1 2⟩,
        .update ⟨.black, .ofCoords 2 2, .ofCoords 1 2⟩]
      (fun _ g => g.board.kindOf ⟨1⟩ = some (.standard .queen) ∧ g.board.has ⟨1⟩ = false ∧
        g.log.undone.length = 0 ∧ g.log.length = 2 ∧
          g.history.head? = some ⟨.standard .pawn, .ofCoords 0 1, .ofCoords 1 2, true⟩)
      (by decide +kernel)
  obtain ⟨hkind, hgone, hundone, hlength, hfirst⟩ := of_decide_eq_true htest
  obtain ⟨board, first, -, hcount, htells, -, -, whole, hwhole, htravel⟩ :=
    history_of_run hstart hrun
  have hmove := hfirst
  rw [List.head?_eq_getElem?] at hmove
  obtain ⟨e, b, b', he, -, hm⟩ := htells 0 _ hmove
  obtain ⟨h, hback, hhistory⟩ := htravel [.undo 2 true, .redo 1] (by decide)
  refine ⟨g₀, g, _, hstart, hrun, hkind, hgone, hcount.trans hlength, hmove, by rfl,
    ⟨e, b, b', he, hm⟩, h, hback, ?_⟩
  -- the run that does nothing shows that all moves are those of the history
  obtain ⟨_, hstay, hall⟩ := htravel [] (by decide)
  obtain rfl := Except.ok.inj hstay
  rw [hundone, hlength] at hwhole
  rw [List.foldl_nil, hlength, List.take_of_length_le hwhole.le] at hall
  rw [hlength, hwhole, ← hall] at hhistory
  have hone : h.history = g.history.take 1 := hhistory
  rw [hone, List.take_one, hfirst]
  rfl

end Game

end VariantChess
