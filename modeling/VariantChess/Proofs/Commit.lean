import VariantChess.Proofs.Position

/-!
# What an accepted action leads to

`Game.Follows` relates a kept game to the one that a committed ply leads to; the latter is
determined by the ply and its status. An update either rejects its action and returns the game that
it was given or commits the planned ply of the action. Taking back a committed ply restores the
earlier position, and playing it again the later one.
-/

namespace VariantChess

namespace Game

variable {g h h' : Game} {ply : Ply} {status : Status} {a : Action}

/-- The second game is the first after a ply has been committed with a status. -/
structure Follows (g : Game) (ply : Ply) (status : Status) (h : Game) : Prop where
  step : ply.Step g.board h.board
  kept : h.Kept
  pieceSet : h.pieceSet = g.pieceSet
  kings : h.kings = g.kings
  initial : h.initial = g.initial
  config : h.config = g.config
  turn : h.turn = g.turn.other
  log : h.log = ⟨⟨ply, status⟩ :: g.log.committed, []⟩
  status : h.status = status

namespace Follows

/-- The latest ply is the committed one. -/
theorem lastPly (hf : g.Follows ply status h) : h.lastPly = some ply := by
  rw [Game.lastPly, hf.log]
  rfl

end Follows

/-- Playing a ply leaves the status at the start alone. -/
theorem initial_after (g : Game) (ply : Ply) (b : Board) :
    (g.after ply b).initial = g.initial := by
  rw [after_eq]

/-- The planned ply of an action: the game goes on, the colour is to move, and the ply takes its own
piece on the source to the target. -/
theorem vet_eq_ok_iff : g.vet a = .ok ply ↔ g.status.isTerminal = false ∧ a.colour = g.turn ∧
    g.board.bounds.contains a.source ∧ g.board.bounds.contains a.target ∧
      ∃ id, g.board.on? a.source = some id ∧ g.board.owns g.turn id ∧
        g.plan? id a.target = some ply := by
  rw [vet]
  simp only [bind, Except.bind, pure, Except.pure, throw, throwThe, MonadExceptOf.throw,
    guard_eq_ok_iff, Bool.not_eq_true', Bool.not_eq_false, Bool.not_eq_true, ne_eq, not_not]
  refine and_congr_right fun _ => and_congr_right fun _ => and_congr_right fun _ =>
    and_congr_right fun _ => ?_
  cases g.board.on? a.source with
  | none => simp
  | some id =>
    simp only [guard_eq_ok_iff, Bool.not_eq_false, Option.some.injEq, exists_eq_left']
    cases g.plan? id a.target <;> simp

/-- The game with a ply in its log and the turn passed, before the verdict. -/
def logged (g : Game) (ply : Ply) : Game :=
  { refreshVolatile { g with log := g.log.push ⟨ply, .ongoing⟩ } with turn := g.turn.other }

/-- Only the log, the threat maps and the turn change. -/
theorem logged_eq (g : Game) (ply : Ply) : g.logged ply =
    { g with
      log := g.log.push ⟨ply, .ongoing⟩, threats := (g.logged ply).threats,
      turn := g.turn.other } := by
  rw [logged, refreshVolatile, refresh_eq]

/-- Committing a ply stores the verdict on the game with the ply in its log. -/
theorem commit_eq_bind (g : Game) (ply : Ply) : g.commit ply =
    (g.logged ply).verdict g.turn >>= fun r =>
      pure (r.1, { r.2 with log := r.2.log.amend r.1, status := r.1 }) := rfl

/-- A kept game with a ply in its log is kept. -/
theorem Kept.logged (hk : g.Kept) (ply : Ply) : (g.logged ply).Kept := by
  have hsteady : Steady { g with log := g.log.push ⟨ply, .ongoing⟩ } :=
    hk.fresh.steady.of_same hk.regular rfl rfl rfl
  have hframe : refreshVolatile { g with log := g.log.push ⟨ply, .ongoing⟩ } = _ := refresh_eq _ _
  have hvolatile : (refreshVolatile { g with log := g.log.push ⟨ply, .ongoing⟩ }).Kept := by
    refine ⟨?_, ?_, hsteady.refreshVolatile⟩
    · rw [hframe]
      exact hk.sound
    · rw [hframe]
      exact hk.regular
  exact hvolatile.of_same rfl rfl rfl rfl

/-- A ply that has been played and put in the log changes the board, the log, the threat maps and
the turn. -/
theorem exists_logged_after_eq (g : Game) (ply : Ply) (b : Board) :
    ∃ threats, (g.after ply b).logged ply =
      { g with
        board := b, log := g.log.push ⟨ply, .ongoing⟩, threats, turn := g.turn.other } := by
  obtain ⟨threats, hafter⟩ : ∃ threats, g.after ply b = { g with board := b, threats } :=
    ⟨_, after_eq g ply b⟩
  rw [hafter]
  exact ⟨_, logged_eq _ _⟩

/-- Storing a verdict in a game with a ply in its log leaves the position as it is. -/
theorem samePosition_amend {l : List LogEntry} (hlog : g.log = ⟨⟨ply, .ongoing⟩ :: l, []⟩)
    (status : Status) : g.SamePosition { g with log := g.log.amend status, status } := by
  refine ⟨rfl, rfl, rfl, rfl, rfl, rfl, ?_⟩
  rw [lastPly, lastPly, hlog]
  rfl

/-- Committing a ply that has just been played appends it to the log, passes the turn and stores the
verdict on the new position. -/
theorem Kept.follows_of_commit (hk : g.Kept) {b : Board} (hstep : ply.Step g.board b)
    (h : (g.after ply b).commit ply = .ok (status, h')) :
    g.Follows ply status h' ∧ status = h'.judged g.turn := by
  rw [commit_eq_bind, turn_after] at h
  have hlogged := (hk.after hstep).logged ply
  obtain ⟨threats, hframe⟩ := exists_logged_after_eq g ply b
  generalize (g.after ply b).logged ply = l at h hlogged hframe
  obtain ⟨⟨st, g₁⟩, hverdict, hanswer⟩ := bind_eq_ok_iff.1 h
  obtain ⟨rfl, rfl⟩ := hlogged.verdict_eq_ok hverdict
  obtain ⟨rfl, rfl⟩ := Prod.mk.inj (Except.ok.inj hanswer)
  have hlog : g₁.log = ⟨⟨ply, .ongoing⟩ :: g.log.committed, []⟩ := by
    rw [hframe, Log.push]
  have hposition := samePosition_amend hlog (g₁.judged g.turn)
  refine ⟨⟨?_, hposition.kept hlogged, ?_, ?_, ?_, ?_, ?_, ?_, rfl⟩, (hposition.judged_eq _).symm⟩
  · rw [hframe]
    exact hstep
  · rw [hframe]
  · rw [hframe]
  · rw [hframe]
  · rw [hframe]
  · rw [hframe]
  · rw [hlog, Log.amend]

/-- An update either rejects its action and returns the game that it was given, or commits the
planned ply of the action, which is safe, and stores the verdict on the new position. -/
theorem Kept.update_cases (hk : g.Kept) {r : Except Rejection Status}
    (h : g.update a = .ok (r, h')) :
    (∃ e, r = .error e ∧ h' = g ∧ ∀ ply, g.vet a = .ok ply → g.isSafe ply = false) ∨
      ∃ ply status, r = .ok status ∧ g.vet a = .ok ply ∧ g.isSafe ply ∧
        g.Follows ply status h' ∧ status = h'.judged g.turn := by
  rw [update] at h
  split at h
  · next e hvet =>
    obtain ⟨rfl, rfl⟩ := Prod.mk.inj (Except.ok.inj h)
    refine .inl ⟨e, rfl, rfl, fun ply hply => ?_⟩
    rw [hvet] at hply
    cases hply
  · next ply hvet =>
    obtain ⟨-, -, -, -, id, -, howns, hplan⟩ := vet_eq_ok_iff.1 hvet
    obtain rfl := piece_of_plan? hplan
    have hr := records_of_plan? hk.sound hplan
    obtain ⟨g₁, happly, hrest⟩ := bind_eq_ok_iff.1 h
    obtain ⟨b, hstep, rfl⟩ := (apply_eq_ok_iff hr).1 happly
    have hsafe : g.isSafe ply = !(g.after ply b).inCheck g.turn := by
      obtain ⟨q, hq, hcolour⟩ := Board.owns_iff.1 howns
      rw [isSafe_of_step hstep, hq, Option.map_some, Option.getD_some, hcolour]
    rw [turn_after] at hrest
    split at hrest
    · next hcheck =>
      obtain ⟨g₂, hrevert, hanswer⟩ := bind_eq_ok_iff.1 hrest
      rw [hk.revert_after hstep] at hrevert
      obtain rfl := Except.ok.inj hrevert
      obtain ⟨rfl, rfl⟩ := Prod.mk.inj (Except.ok.inj hanswer)
      refine .inl ⟨_, rfl, rfl, fun ply' hply' => ?_⟩
      rw [hvet] at hply'
      obtain rfl := Except.ok.inj hply'
      rw [hsafe, hcheck, Bool.not_true]
    · next hcheck =>
      obtain ⟨⟨st, g₂⟩, hcommit, hanswer⟩ := bind_eq_ok_iff.1 hrest
      obtain ⟨rfl, rfl⟩ := Prod.mk.inj (Except.ok.inj hanswer)
      refine .inr ⟨ply, st, rfl, hvet, ?_, hk.follows_of_commit hstep hcommit⟩
      rw [hsafe, Bool.not_eq_true', Bool.eq_false_iff]
      exact hcheck

/-- A vetted ply is recorded by the board and has the source and the target of its action. -/
theorem Kept.of_vet (hk : g.Kept) (h : g.vet a = .ok ply) :
    ply.Records g.board ∧ a = ⟨g.turn, ply.source, ply.target⟩ := by
  obtain ⟨-, hturn, -, -, id, hon, -, hplan⟩ := vet_eq_ok_iff.1 h
  obtain ⟨owner, howner, hsource⟩ := source_of_plan? hplan
  refine ⟨records_of_plan? hk.sound hplan, ?_⟩
  rw [hsource, hk.sound.point_eq hon howner, target_of_plan? hplan, ← hturn]

/-- With a ply in the log, games in the same position and with the same committed entries are equal:
the redo stack is gone. -/
theorem SamePosition.logged_eq (hp : g.SamePosition h) (hstatus : h.status = g.status)
    (hinitial : h.initial = g.initial) (hlog : h.log.committed = g.log.committed) (ply : Ply) :
    h.logged ply = g.logged ply := by
  have hpushed : ({ h with log := h.log.push ⟨ply, .ongoing⟩ } : Game) =
      { g with log := g.log.push ⟨ply, .ongoing⟩ } := by
    refine Game.ext hp.board hp.pieceSet ?_ hp.threats hp.kings hp.turn hstatus hinitial hp.config
    rw [Log.push, Log.push, hlog]
  rw [logged, logged, hpushed, hp.turn]

/-- An action that is accepted is accepted with the same outcome in the same position, when the
statuses and the committed entries agree as well. -/
theorem SamePosition.update_eq_ok (hp : g.SamePosition h) (hstatus : h.status = g.status)
    (hinitial : h.initial = g.initial) (hlog : h.log.committed = g.log.committed)
    (hupdate : g.update a = .ok (.ok status, h')) : h.update a = .ok (.ok status, h') := by
  rw [update, hp.vet_eq hstatus]
  rw [update] at hupdate
  split at hupdate
  · cases hupdate
  · next ply hvet =>
    simp only [apply_eq_map, hp.board] at hupdate ⊢
    cases hplay : ply.play g.board with
    | error fault =>
      rw [hplay] at hupdate
      cases hupdate
    | ok b =>
      have hafter := hp.after ply b
      have hlogged : (h.after ply b).logged ply = (g.after ply b).logged ply := by
        refine hafter.logged_eq ?_ ?_ ?_ ply
        · rw [after_eq, after_eq g, hstatus]
        · rw [initial_after, initial_after, hinitial]
        · rw [log_after, log_after, hlog]
      rw [hplay] at hupdate
      change (if (g.after ply b).inCheck (g.after ply b).turn then _ else _) = _ at hupdate
      change (if (h.after ply b).inCheck (h.after ply b).turn then _ else _) = _
      rw [hafter.inCheck_eq, hafter.turn]
      split at hupdate
      · obtain ⟨g₂, -, hanswer⟩ := bind_eq_ok_iff.1 hupdate
        cases hanswer
      · next hcheck =>
        rw [if_neg hcheck, commit_eq_bind, hlogged, hafter.turn, ← commit_eq_bind]
        exact hupdate

namespace Follows

/-- The ply that led to a position can be taken back in it, which restores the board and leaves the
threat maps up to date with whatever is the latest ply then. -/
theorem revert_eq {k : Game} (hf : g.Follows ply status h) (hk : g.Kept)
    (hboard : k.board = h.board) (hset : k.pieceSet = h.pieceSet) (hthreats : k.threats = h.threats) :
    k.revert ply = .ok (k.after ply g.board) ∧ (k.after ply g.board).Fresh := by
  have hsteady : k.Steady := hf.kept.fresh.steady.of_same hf.kept.regular hboard hset hthreats
  have hregular := hf.kept.regular.of_same hboard hset
  refine ⟨?_, hsteady.fresh_of_step_back hregular hk.sound (hboard.symm ▸ hf.step)⟩
  rw [revert_eq_map, hboard, hf.step.takeBack]
  rfl

/-- The ply that led to a position can be played again in the earlier one, which restores the board
and leaves the threat maps up to date with whatever is the latest ply then. -/
theorem apply_eq {k : Game} (hf : g.Follows ply status h) (hk : g.Kept) (hboard : k.board = g.board)
    (hset : k.pieceSet = g.pieceSet) (hthreats : k.threats = g.threats) :
    k.apply ply = .ok (k.after ply h.board) ∧ (k.after ply h.board).Fresh := by
  have hsteady : k.Steady := hk.fresh.steady.of_same hk.regular hboard hset hthreats
  have hregular := hk.regular.of_same hboard hset
  refine ⟨?_, hsteady.fresh_of_step hregular (hboard.symm ▸ hk.sound) (hboard.symm ▸ hf.step)⟩
  rw [apply_eq_map, hboard, hf.step.play]
  rfl

end Follows

end Game

end VariantChess
