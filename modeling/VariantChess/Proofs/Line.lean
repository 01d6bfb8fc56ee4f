import VariantChess.Game.Undo
import VariantChess.Proofs.Commit

/-!
# Lines of play

A line leads from an opening through accepted actions, one for each entry of the log. Of a game that
is on a line, the part that the committed entries describe is the end of that line, and the redo
stack continues it. Updating, undoing and redoing keep a game on a line: an accepted action extends
the line, undoing goes back along it because every ply restores the position before it, and redoing
goes forward because every ply leads to one position only.
-/

namespace VariantChess

/-- Taking the latest entry back puts it on top of the undone ones, or forgets them with it. -/
theorem Log.exists_undone {l : Log} {e : LogEntry} {rest : List LogEntry}
    (h : l.committed = e :: rest) (save : Bool) : ∃ undone,
      (if save then l.undo else l.drop) = (some e, ⟨rest, undone⟩) ∧
        (undone = e :: l.undone ∨ undone = []) := by
  rw [Log.undo, Log.drop, h]
  cases save with
  | false => exact ⟨_, rfl, .inr rfl⟩
  | true => exact ⟨_, rfl, .inl rfl⟩

namespace Game

variable {g₀ g h : Game} {log : List LogEntry} {e : LogEntry}

/-- A kept game in which nothing has been committed or undone yet. -/
structure Opening (g : Game) : Prop where
  kept : g.Kept
  log : g.log = .empty
  status : g.status = g.initial

/-- The second game is reached from the first by playing the moves of the entries, latest first, as
accepted actions that were committed as these entries. -/
inductive Line (g₀ : Game) : List LogEntry → Game → Prop
  | start : Line g₀ [] g₀
  | next {log : List LogEntry} {g h : Game} {e : LogEntry} (earlier : Line g₀ log g)
      (accepted : g.update ⟨g.turn, e.ply.source, e.ply.target⟩ = .ok (.ok e.status, h))
      (logged : h.log = ⟨e :: log, []⟩) : Line g₀ (e :: log) h

/-- The status that the log gives to a game. -/
def recordedStatus (g : Game) : Status := (g.log.last?.map (·.status)).getD g.initial

/-- The game as its committed entries describe it, without a redo stack. -/
def onRecord (g : Game) : Game :=
  { g with log := ⟨g.log.committed, []⟩, status := g.recordedStatus }

/-- The committed entries lead to the game, and the undone ones lead on from it. -/
structure OnLine (g₀ g : Game) : Prop where
  line : Line g₀ g.log.committed g.onRecord
  redoable : ∃ h, Line g₀ (g.log.undone.reverse ++ g.log.committed) h

/-- A game on a line that has the status of its log. -/
structure Reached (g₀ g : Game) : Prop extends OnLine g₀ g where
  status : g.status = g.recordedStatus

/-- Leaving out the redo stack does not change the position. -/
theorem samePosition_onRecord (g : Game) : g.SamePosition g.onRecord :=
  ⟨rfl, rfl, rfl, rfl, rfl, rfl, rfl⟩

/-- The status on record depends on the committed entries and the status at the start. -/
theorem recordedStatus_eq (hlog : h.log.committed = g.log.committed)
    (hinitial : h.initial = g.initial) : h.recordedStatus = g.recordedStatus := by
  rw [recordedStatus, recordedStatus, Log.last?, Log.last?, hlog, hinitial]

/-- A game without a redo stack that has the status of its log is as its entries describe it. -/
theorem onRecord_eq_self (hlog : g.log.undone = []) (hstatus : g.status = g.recordedStatus) :
    g.onRecord = g := by
  refine Game.ext rfl rfl ?_ rfl rfl rfl hstatus.symm rfl rfl
  rw [onRecord, ← hlog]

namespace Line

/-- The game at the end of a line is kept, and its log holds the entries of the line. -/
theorem kept_and_log (h₀ : g₀.Opening) (hl : Line g₀ log g) : g.Kept ∧ g.log = ⟨log, []⟩ := by
  induction hl with
  | start => exact ⟨h₀.kept, h₀.log⟩
  | next earlier accepted logged ih =>
    refine ⟨?_, logged⟩
    obtain ⟨_, hr, -⟩ | ⟨ply, status, -, -, -, hf, -⟩ := ih.1.update_cases accepted
    · cases hr
    · exact hf.kept

/-- The last entry of a line is committed by an accepted action, with the verdict as its status. -/
theorem cases_next (h₀ : g₀.Opening) (hl : Line g₀ (e :: log) h) :
    ∃ g, Line g₀ log g ∧ g.Kept ∧ g.vet ⟨g.turn, e.ply.source, e.ply.target⟩ = .ok e.ply ∧
      g.isSafe e.ply ∧ g.Follows e.ply e.status h ∧ e.status = h.judged g.turn := by
  cases hl with
  | @next _ g _ _ earlier accepted logged =>
    have hk := (earlier.kept_and_log h₀).1
    obtain ⟨_, hr, -⟩ | ⟨ply, status, hr, hvet, hsafe, hf, hstatus⟩ := hk.update_cases accepted
    · cases hr
    · have hentry : e = ⟨ply, status⟩ := by
        have hlog := logged.symm.trans hf.log
        injection hlog with hcommitted _
        exact (List.cons.inj hcommitted).1
      subst hentry
      exact ⟨g, earlier, hk, hvet, hsafe, hf, hstatus⟩

/-- A line without entries ends where it starts. -/
theorem eq_start (hl : Line g₀ [] g) : g = g₀ := by
  cases hl
  rfl

/-- A line has one end only. -/
theorem unique (hl : Line g₀ log g) (hl' : Line g₀ log h) : g = h := by
  induction hl generalizing h with
  | start =>
    cases hl'
    rfl
  | next earlier accepted logged ih =>
    cases hl' with
    | next earlier' accepted' logged' =>
      obtain rfl := ih earlier'
      exact congrArg Prod.snd (Except.ok.inj (accepted.symm.trans accepted'))

/-- A line passes through an earlier game for each shorter log. -/
theorem exists_earlier {later : List LogEntry} (hl : Line g₀ (later ++ log) h) :
    ∃ g, Line g₀ log g := by
  induction later generalizing h with
  | nil => exact ⟨h, hl⟩
  | cons e rest ih =>
    cases hl with
    | next earlier accepted logged => exact ih earlier

/-- A game at the end of a line has the settings of the opening and the status of its log. -/
theorem fixed (h₀ : g₀.Opening) (hl : Line g₀ log g) :
    g.pieceSet = g₀.pieceSet ∧ g.kings = g₀.kings ∧ g.initial = g₀.initial ∧
      g.config = g₀.config ∧ g.status = g.recordedStatus := by
  induction log generalizing g with
  | nil =>
    cases hl
    refine ⟨rfl, rfl, rfl, rfl, ?_⟩
    rw [recordedStatus, h₀.log]
    exact h₀.status
  | cons e rest ih =>
    obtain ⟨g', hl', -, -, -, hf, -⟩ := hl.cases_next h₀
    obtain ⟨hset, hkings, hinitial, hconfig, -⟩ := ih hl'
    refine ⟨hf.pieceSet.trans hset, hf.kings.trans hkings, hf.initial.trans hinitial,
      hf.config.trans hconfig, ?_⟩
    rw [recordedStatus, hf.log, hf.status]
    rfl

/-- Play does not change the bounds of the board. -/
theorem bounds_eq (h₀ : g₀.Opening) (hl : Line g₀ log g) :
    g.board.bounds = g₀.board.bounds := by
  induction log generalizing g with
  | nil => rw [hl.eq_start]
  | cons e rest ih =>
    obtain ⟨g', hl', -, -, -, hf, -⟩ := hl.cases_next h₀
    exact hf.step.agreeOff.bounds.trans (ih hl')

end Line

namespace OnLine

/-- A game on a line is kept. -/
theorem kept (h₀ : g₀.Opening) (hg : OnLine g₀ g) : g.Kept :=
  (samePosition_onRecord g).symm.kept (hg.line.kept_and_log h₀).1

/-- Taking back the latest entry goes back along the line, whether the entry is saved or not. -/
theorem takeBack (h₀ : g₀.Opening) (hg : OnLine g₀ g) {rest undone : List LogEntry}
    (hlog : g.log.committed = e :: rest) (hundone : undone = e :: g.log.undone ∨ undone = []) :
    ∃ g', revert { g with log := ⟨rest, undone⟩ } e.ply = .ok g' ∧ g'.log = ⟨rest, undone⟩ ∧
      g'.status = g.status ∧ g'.turn = g.turn ∧ OnLine g₀ { g' with turn := g.turn.other } := by
  have hline := hg.line
  rw [hlog] at hline
  obtain ⟨h, hl, hk, -, -, hf, -⟩ := hline.cases_next h₀
  obtain ⟨-, -, -, -, hstatus⟩ := hl.fixed h₀
  have hlogged : h.log = ⟨rest, []⟩ := (hl.kept_and_log h₀).2
  obtain ⟨hrevert, hfresh⟩ := hf.revert_eq hk
    (k := { g with log := ⟨rest, undone⟩ }) rfl rfl rfl
  obtain ⟨threats, hafter⟩ : ∃ threats, after { g with log := ⟨rest, undone⟩ } e.ply h.board =
      { g with log := ⟨rest, undone⟩, board := h.board, threats } := ⟨_, after_eq _ _ _⟩
  rw [hafter] at hrevert hfresh
  have hthreats : threats = h.threats := by
    refine hk.fresh.threats_eq hfresh rfl hf.pieceSet ?_
    rw [lastPly, lastPly, hlogged]
    rfl
  refine ⟨_, hrevert, rfl, rfl, rfl, ?_, ?_⟩
  · -- the game on record is the one before the entry was committed
    have hrecord : onRecord { g with
        log := ⟨rest, undone⟩, board := h.board, threats, turn := g.turn.other } = h := by
      refine Game.ext rfl hf.pieceSet hlogged.symm hthreats hf.kings ?_ ?_ hf.initial hf.config
      · exact (congrArg Colour.other hf.turn).trans h.turn.other_other
      · rw [hstatus, recordedStatus, hlogged, ← hf.initial]
        rfl
    exact hrecord ▸ hl
  · rcases hundone with rfl | rfl
    · obtain ⟨last, hlast⟩ := hg.redoable
      rw [hlog] at hlast
      exact ⟨last, by simpa using hlast⟩
    · exact ⟨h, hl⟩

/-- Playing the latest undone entry again goes forward along the line. -/
theorem playAgain (h₀ : g₀.Opening) (hg : OnLine g₀ g) {rest : List LogEntry}
    (hlog : g.log.undone = e :: rest) :
    ∃ g', apply { g with log := ⟨e :: g.log.committed, rest⟩ } e.ply = .ok g' ∧
      g'.log = ⟨e :: g.log.committed, rest⟩ ∧ g'.turn = g.turn ∧
      Reached g₀ { g' with turn := g.turn.other, status := e.status } := by
  have hall := hg.redoable
  rw [hlog, List.reverse_cons, List.append_assoc, List.singleton_append] at hall
  obtain ⟨last, hlast⟩ := hall
  obtain ⟨h, hl⟩ := hlast.exists_earlier
  obtain ⟨g', hl', hk, -, -, hf, -⟩ := hl.cases_next h₀
  obtain rfl := hl'.unique hg.line
  obtain ⟨-, -, -, -, hstatus⟩ := hl.fixed h₀
  obtain ⟨happly, hfresh⟩ := hf.apply_eq hk
    (k := { g with log := ⟨e :: g.log.committed, rest⟩ }) rfl rfl rfl
  obtain ⟨threats, hafter⟩ : ∃ threats,
      after { g with log := ⟨e :: g.log.committed, rest⟩ } e.ply h.board =
        { g with log := ⟨e :: g.log.committed, rest⟩, board := h.board, threats } :=
    ⟨_, after_eq _ _ _⟩
  rw [hafter] at happly hfresh
  have hthreats : threats = h.threats :=
    hf.kept.fresh.threats_eq hfresh rfl hf.pieceSet.symm hf.lastPly.symm
  refine ⟨_, happly, rfl, rfl, ⟨?_, ⟨last, hlast⟩⟩, rfl⟩
  -- the game on record is the one that the entry leads to
  have hrecord : onRecord { g with
      log := ⟨e :: g.log.committed, rest⟩, board := h.board, threats, turn := g.turn.other,
      status := e.status } = h :=
    Game.ext rfl hf.pieceSet.symm hf.log.symm hthreats hf.kings.symm hf.turn.symm hf.status.symm
      hf.initial.symm hf.config.symm
  exact hrecord ▸ hl

end OnLine

/-- Undoing goes back along the line, as far as it was asked to and there are entries. -/
theorem OnLine.undoPlies_eq_ok (h₀ : g₀.Opening) (save : Bool) (n : Nat) (hg : OnLine g₀ g) :
    ∃ g', undoPlies save n g = .ok (min n g.log.length, g') ∧ OnLine g₀ g' ∧
      g'.log.committed = g.log.committed.drop n ∧ g'.status = g.status := by
  induction n generalizing g with
  | zero => exact ⟨g, by rw [undoPlies, Nat.zero_min], hg, rfl, rfl⟩
  | succ n ih =>
    cases hlog : g.log.committed with
    | nil =>
      have hlength : min (n + 1) g.log.length = 0 := by
        rw [Log.length, hlog, List.length_nil, Nat.min_zero]
      rw [undoPlies, hlength, Log.undo, Log.drop, hlog]
      cases save with
      | true => exact ⟨g, rfl, hg, hlog, rfl⟩
      | false =>
        -- there is nothing to take back, but dropping forgets the redo stack
        refine ⟨{ g with log := ⟨[], []⟩ }, rfl, ⟨?_, g₀, .start⟩, rfl, rfl⟩
        have hline := hg.line
        rw [onRecord, recordedStatus, Log.last?, hlog] at hline
        exact hline
    | cons e rest =>
      obtain ⟨undone, hundo, hundone⟩ := Log.exists_undone hlog save
      obtain ⟨g₁, hrevert, hlog₁, hstatus₁, hturn, hline⟩ := hg.takeBack h₀ hlog hundone
      obtain ⟨g₂, hplies, hline', hcommitted, hstatus₂⟩ := ih hline
      have hcount : min (n + 1) g.log.length = min n rest.length + 1 := by
        rw [Log.length, hlog, List.length_cons, Nat.succ_min_succ]
      refine ⟨g₂, ?_, hline', ?_, hstatus₂.trans hstatus₁⟩
      · rw [undoPlies, hundo, hcount]
        refine bind_eq_ok_iff.2 ⟨g₁, hrevert,
          bind_eq_ok_iff.2 ⟨(min n rest.length, g₂), ?_, rfl⟩⟩
        rw [hturn, hplies, Log.length, hlog₁]
      · rw [hcommitted, hlog₁, List.drop_succ_cons]

/-- Undoing always succeeds; it goes back along the line and gives the game the status that its log
then has, which is the answer when some ply was taken back. -/
theorem Reached.undo_eq_ok (h₀ : g₀.Opening) (hg : Reached g₀ g) (n : Nat) (save : Bool) :
    ∃ g' status, g.undo n save = .ok (status, g') ∧ Reached g₀ g' ∧
      g'.log.committed = g.log.committed.drop n ∧
      (min n g.log.length ≠ 0 → status = g'.status) := by
  obtain ⟨g', hplies, hline, hcommitted, hstatus⟩ := hg.toOnLine.undoPlies_eq_ok h₀ save n
  by_cases hcount : min n g.log.length = 0
  · -- nothing was taken back, so the committed entries are what they were
    have hsame : g.log.committed.drop n = g.log.committed := by
      rw [Log.length] at hcount
      rcases Nat.min_eq_zero_iff.1 hcount with hn | hlength
      · rw [hn, List.drop_zero]
      · rw [List.eq_nil_of_length_eq_zero hlength, List.drop_nil]
    refine ⟨g', .unchanged, bind_eq_ok_iff.2 ⟨_, hplies, ?_⟩, ⟨hline, ?_⟩, hcommitted,
      fun hn => absurd hcount hn⟩
    · dsimp only
      rw [if_pos hcount]
      rfl
    · have hinitial : g'.initial = g.initial :=
        (hline.line.fixed h₀).2.2.1.trans (hg.line.fixed h₀).2.2.1.symm
      rw [hstatus, hg.status]
      exact (recordedStatus_eq (hcommitted.trans hsame) hinitial).symm
  · have hfresh := (hline.kept h₀).fresh
    refine ⟨{ g' with status := g'.recordedStatus }, g'.recordedStatus,
      bind_eq_ok_iff.2 ⟨_, hplies, ?_⟩, ⟨⟨hline.line, hline.redoable⟩, rfl⟩, hcommitted,
      fun _ => rfl⟩
    dsimp only
    rw [if_neg hcount, hfresh.refreshVolatile_eq]
    rfl

/-- Redoing always succeeds and goes forward along the line. -/
theorem Reached.redoPlies_eq_ok (h₀ : g₀.Opening) (n : Nat) (hg : Reached g₀ g) :
    ∃ g', redoPlies n g = .ok (min n g.log.undone.length, g') ∧ Reached g₀ g' := by
  induction n generalizing g with
  | zero => exact ⟨g, by rw [redoPlies, Nat.zero_min], hg⟩
  | succ n ih =>
    rw [redoPlies, Log.redo]
    cases hlog : g.log.undone with
    | nil => exact ⟨g, rfl, hg⟩
    | cons e rest =>
      obtain ⟨g₁, happly, hlog₁, hturn, hreached⟩ := hg.toOnLine.playAgain h₀ hlog
      obtain ⟨g₂, hplies, hreached'⟩ := ih hreached
      refine ⟨g₂, ?_, hreached'⟩
      rw [List.length_cons, Nat.succ_min_succ]
      refine bind_eq_ok_iff.2 ⟨g₁, happly, bind_eq_ok_iff.2 ⟨(min n rest.length, g₂), ?_, rfl⟩⟩
      rw [hturn, hplies, hlog₁]

/-- Redoing always succeeds and goes forward along the line. -/
theorem Reached.redo_eq_ok (h₀ : g₀.Opening) (hg : Reached g₀ g) (n : Nat) :
    ∃ g' status, g.redo n = .ok (status, g') ∧ Reached g₀ g' := by
  obtain ⟨g', hplies, hreached⟩ := hg.redoPlies_eq_ok h₀ n
  by_cases hcount : min n g.log.undone.length = 0
  · refine ⟨g', .unchanged, bind_eq_ok_iff.2 ⟨_, hplies, ?_⟩, hreached⟩
    dsimp only
    rw [if_pos hcount]
    rfl
  · refine ⟨g', g'.status, bind_eq_ok_iff.2 ⟨_, hplies, ?_⟩, hreached⟩
    dsimp only
    rw [if_neg hcount, (hreached.kept h₀).fresh.refreshVolatile_eq]
    rfl

/-- An update keeps a game on a line: a rejected action changes nothing and an accepted one extends
the line. -/
theorem Reached.update (h₀ : g₀.Opening) (hg : Reached g₀ g) {a : Action}
    {r : Except Rejection Status} (hupdate : g.update a = .ok (r, h)) : Reached g₀ h := by
  have hk := hg.kept h₀
  obtain ⟨_, -, rfl, -⟩ | ⟨ply, status, rfl, hvet, -, hf, -⟩ := hk.update_cases hupdate
  · exact hg
  · obtain ⟨-, rfl⟩ := hk.of_vet hvet
    have hstatus : h.status = h.recordedStatus := by
      rw [recordedStatus, hf.log]
      exact hf.status
    have hnext : Line g₀ (⟨ply, status⟩ :: g.log.committed) h := by
      refine .next hg.line ?_ hf.log
      refine (samePosition_onRecord g).update_eq_ok ?_ rfl rfl hupdate
      exact hg.status.symm
    refine ⟨⟨?_, h, ?_⟩, hstatus⟩
    · rw [onRecord_eq_self (by rw [hf.log]) hstatus, hf.log]
      exact hnext
    · rw [hf.log]
      exact hnext

/-- An opening is on its own line. -/
theorem Opening.reached (h₀ : g₀.Opening) : Reached g₀ g₀ := by
  have hstatus : g₀.status = g₀.recordedStatus := by
    rw [recordedStatus, h₀.log]
    exact h₀.status
  refine ⟨⟨?_, g₀, ?_⟩, hstatus⟩
  · rw [onRecord_eq_self (by rw [h₀.log, Log.empty]) hstatus, h₀.log]
    exact .start
  · rw [h₀.log]
    exact .start

/-- The game at the end of a line is reached. -/
theorem Line.reached (h₀ : g₀.Opening) (hl : Line g₀ log g) : Reached g₀ g := by
  induction hl with
  | start => exact h₀.reached
  | next _ accepted _ ih => exact ih.update h₀ accepted

end Game

end VariantChess
