import VariantChess.Proofs.Annals

/-!
# How far a ply reaches

The threat maps are kept up to date by looking at the touched points of a ply and at its pieces only,
so a ply must not change anything beyond them. It does not, whatever its side effect: off the touched
points the same pieces stand, the other pieces keep their records and stay on the board or off it,
and a piece leaves the board only by being captured or removed. The same bounds hold when the ply is
taken back, at any time that its entry is the latest.
-/

namespace VariantChess

namespace Ply

/-- Two boards differ on the points that a ply touches and in its pieces at most. -/
structure Confines (p : Ply) (b b' : Board) : Prop where
  occupant : ∀ r, r ∉ p.touched → b'.on? r = b.on? r
  standing : ∀ r, r ∉ p.touched → b'.pieceAt? r = b.pieceAt? r
  record : ∀ id, id ∉ p.pieces → b'.piece? id = b.piece? id
  has : ∀ id, id ∉ p.pieces → b'.has id = b.has id

variable {p : Ply} {b b' : Board} {id : PieceId}

theorem Confines.symm (h : p.Confines b b') : p.Confines b' b where
  occupant r hr := (h.occupant r hr).symm
  standing r hr := (h.standing r hr).symm
  record i hi := (h.record i hi).symm
  has i hi := (h.has i hi).symm

/-- A step changes nothing on a sound board that is out of reach of its ply. -/
theorem Step.confines (h : p.Step b b') (hb : b.Sound) : p.Confines b b' where
  occupant := h.agreeOff.occupant
  standing _ hr := h.pieceAt?_eq hb hr
  record := h.agreeOff.record
  has _ hi := h.agreeOff.has_eq hi

/-- A ply takes the piece that it captures and the one that its side effect removes. -/
theorem takes_iff : p.takes id ↔
    p.captured = some id ∨ ∃ place, p.effect = some (.remove id place) := by
  rw [takes, Bool.or_eq_true, decide_eq_true_eq]
  refine or_congr_right ?_
  cases p.effect with
  | none => simp
  | some e => cases e <;> simp [eq_comm]

/-- A piece that leaves a sound board in a step is captured or removed. -/
theorem Step.takes_of_left (h : p.Step b b') (hb : b.Sound) (hbefore : b.has id)
    (hafter : b'.has id = false) :
    p.captured = some id ∨ ∃ place, p.effect = some (.remove id place) := by
  rw [(h.has_eq hb id).2, hbefore, Bool.true_and, Bool.not_eq_false'] at hafter
  exact takes_iff.1 hafter

end Ply

namespace Game

variable {g g₀ : Game} {b₀ : Board} {e : LogEntry} {rest : List LogEntry}

/-- The latest entry can be undone, which goes back along the step of its ply. -/
theorem Recorded.exists_step_back (hg : Recorded b₀ g) (hlog : g.log.committed = e :: rest)
    (save : Bool) : ∃ answer k, g.undo 1 save = .ok (answer, k) ∧ k.log.committed = rest ∧
      b₀.Played (rest.map (·.ply)) k.board ∧ e.ply.Step k.board g.board := by
  obtain ⟨answer, k, hundo⟩ := hg.exists_undo 1 save
  have hcommitted : k.log.committed = rest := by
    rw [log_of_undo hundo, Log.committed_undoBy, hlog]
    rfl
  have hbefore := (hg.undo hundo).played
  have hplayed := hg.played
  rw [hcommitted] at hbefore
  rw [hlog, List.map_cons] at hplayed
  -- the earlier plies lead to one board only, the one that undoing gives
  obtain ⟨b, hprev, hstep⟩ := hplayed.exists_step
  obtain rfl := hprev.unique hbefore
  exact ⟨answer, k, hundo, hcommitted, hbefore, hstep⟩

variable {set : PieceSet} {layout : List Char} {config : GameConfig} {ops : List Operation}

/-- In every game of a run, from any layout and with any piece set, an accepted action commits an
entry and changes nothing beyond the touched points and the pieces of its ply; a piece that leaves
the board is the captured one or the one that the side effect removes. Whenever an entry is the
latest, undoing it succeeds, takes it off the log and changes nothing beyond the same points and
pieces. -/
theorem extent_of_run (hstart : start set layout config = .ok g₀) (hrun : g₀.run ops = .ok g) :
    (∀ a status h, g.update a = .ok (.ok status, h) → ∃ e,
      h.log.committed = e :: g.log.committed ∧ e.ply.Confines g.board h.board ∧
        ∀ id, g.board.has id → h.board.has id = false →
          e.ply.captured = some id ∨ ∃ place, e.ply.effect = some (.remove id place)) ∧
      ∀ e rest, g.log.committed = e :: rest → ∀ save, ∃ answer k,
        g.undo 1 save = .ok (answer, k) ∧ k.log.committed = rest ∧
          e.ply.Confines g.board k.board := by
  obtain ⟨board, turn, hread, hrecorded⟩ := recorded_of_start hstart
  have hsound := (Board.of_read hread).1
  have hg := (preserved_recorded hsound).run hrecorded hrun
  have hb := hg.played.sound hsound
  refine ⟨fun a status h hupdate => ?_, fun e rest hlog save => ?_⟩
  · obtain ⟨_, hr, -⟩ | ⟨ply, status', -, hc⟩ := update_cases_of_sound hb hupdate
    · cases hr
    · exact ⟨_, congrArg Log.committed hc.log, hc.step.confines hb,
        fun id hbefore hafter => hc.step.takes_of_left hb hbefore hafter⟩
  · obtain ⟨answer, k, hundo, hcommitted, hbefore, hstep⟩ := hg.exists_step_back hlog save
    exact ⟨answer, k, hundo, hcommitted, (hstep.confines (hbefore.sound hsound)).symm⟩

/-- A drover takes a pawn and pulls a rook onto the point that it leaves. Five pieces stand on the
board and the extent of the ply takes in three of them; it covers undoing as well. -/
theorem extent_of_run_drover : ∃ g₀ status h e answer k,
    start droverSet "w w~drover~a1 wRb1 wKc1 bPa2 bKc3".toList smallConfig = .ok g₀ ∧
      g₀.update ⟨.white, .ofCoords 0 0, .ofCoords 0 1⟩ = .ok (.ok status, h) ∧
      h.log.committed = [e] ∧ g₀.board.count = 5 ∧ e.ply.pieces = [⟨0⟩, ⟨3⟩, ⟨1⟩] ∧
      e.ply.Confines g₀.board h.board ∧ g₀.board.has ⟨3⟩ ∧ h.board.has ⟨3⟩ = false ∧
      (e.ply.captured = some ⟨3⟩ ∨ ∃ place, e.ply.effect = some (.remove ⟨3⟩ place)) ∧
      h.undo 1 true = .ok (answer, k) ∧ e.ply.Confines h.board k.board := by
  obtain ⟨g₀, g, status, h, hstart, hrun, hupdate, htest⟩ :=
    exists_accepted droverSet "w w~drover~a1 wRb1 wKc1 bPa2 bKc3".toList smallConfig []
      ⟨.white, .ofCoords 0 0, .ofCoords 0 1⟩
      (fun _ g _ h => g.log.committed = [] && g.board.count = 5 && g.board.has ⟨3⟩ &&
        !h.board.has ⟨3⟩ && h.log.committed.map (·.ply.pieces) = [[⟨0⟩, ⟨3⟩, ⟨1⟩]])
      (by decide +kernel)
  obtain rfl := Except.ok.inj hrun
  simp only [Bool.and_eq_true, decide_eq_true_eq, Bool.not_eq_true'] at htest
  obtain ⟨⟨⟨⟨hnone, hcount⟩, hbefore⟩, hafter⟩, hpieces⟩ := htest
  obtain ⟨e, hlog, hextent, hleft⟩ := (extent_of_run hstart hrun).1 _ _ _ hupdate
  rw [hnone] at hlog
  rw [hlog] at hpieces
  have hrun' : g₀.run [.update ⟨.white, .ofCoords 0 0, .ofCoords 0 1⟩] = .ok h :=
    bind_eq_ok_iff.2 ⟨h, map_eq_ok_iff.2 ⟨_, hupdate, rfl⟩, rfl⟩
  obtain ⟨answer, k, hundo, -, hback⟩ := (extent_of_run hstart hrun').2 e [] hlog true
  exact ⟨g₀, status, h, e, answer, k, hstart, hupdate, hlog, hcount, (List.cons.inj hpieces).1,
    hextent, hbefore, hafter, hleft ⟨3⟩ hbefore hafter, hundo, hback⟩

end Game

end VariantChess
