import VariantChess.Proofs.Provenance
import VariantChess.Proofs.Rewinding
import VariantChess.Proofs.Run

/-!
# The log as a record of the board

The board of a game is what the committed plies make of the board that was read, and the undone
plies can be played on it again. This holds for any pieces and whether or not the threat maps are up
to date: trying a ply gives back the board, an accepted action adds a step, and undoing and redoing
go back and forth along the steps. So the committed plies tell which pieces are missing and which
are marked as moved.
-/

namespace VariantChess

namespace Game

variable {g h : Game} {b₀ : Board} {ply : Ply}

/-- Playing a ply and looking at pieces again changes the board as the ply says. -/
theorem board_of_apply (happly : g.apply ply = .ok h) : ply.play g.board = .ok h.board := by
  rw [apply_eq_map] at happly
  obtain ⟨b, hplay, rfl⟩ := map_eq_ok_iff.1 happly
  rw [hplay, after_eq]

/-- Taking a ply back and looking at pieces again changes the board as the ply says. -/
theorem board_of_revert (hrevert : g.revert ply = .ok h) : ply.takeBack g.board = .ok h.board := by
  rw [revert_eq_map] at hrevert
  obtain ⟨b, hback, rfl⟩ := map_eq_ok_iff.1 hrevert
  rw [hback, after_eq]

/-- A planned ply that is played and taken back on a sound board gives back the board. -/
theorem tries_board : Tries fun g h => g.board.Sound → h.board = g.board where
  refl _ _ := rfl
  trans hgh hhk hg := (hhk (hgh hg ▸ hg)).trans (hgh hg)
  isLegal {g h id target ply safe} hplan hlegal hg := by
    obtain ⟨g₁, happly, hrest⟩ := bind_eq_ok_iff.1 hlegal
    obtain ⟨g₂, hrevert, hanswer⟩ := bind_eq_ok_iff.1 hrest
    obtain ⟨rfl, rfl⟩ := Prod.mk.inj (Except.ok.inj hanswer)
    have hstep : ply.Step g.board g₁.board := ⟨records_of_plan? hg hplan, board_of_apply happly⟩
    exact Except.ok.inj ((board_of_revert hrevert).symm.trans hstep.takeBack)

/-- Committing a ply that has been played changes the log and looks at plies, and gives back the
board. -/
theorem board_of_commit {status : Status} (hg : g.board.Sound)
    (hcommit : g.commit ply = .ok (status, h)) : h.board = g.board := by
  rw [commit_eq_bind] at hcommit
  obtain ⟨⟨verdict, g₁⟩, hverdict, hanswer⟩ := bind_eq_ok_iff.1 hcommit
  obtain ⟨rfl, rfl⟩ := Prod.mk.inj (Except.ok.inj hanswer)
  have hlogged : (g.logged ply).board = g.board := by rw [logged_eq]
  exact (tries_board.verdict hverdict (hlogged.symm ▸ hg)).trans hlogged

/-- The second game is the first after a ply has been committed with a status. Unlike
`Game.Follows` this says nothing of the threat maps. -/
structure Commits (g : Game) (ply : Ply) (status : Status) (h : Game) : Prop where
  planned : ∃ id target, g.plan? id target = some ply
  going : g.status.isTerminal = false
  owns : g.board.owns g.turn ply.piece
  step : ply.Step g.board h.board
  settled : status ≠ .pending ∧ status ≠ .unchanged
  frame : h = { g with
    board := h.board, log := ⟨⟨ply, status⟩ :: g.log.committed, []⟩, threats := h.threats,
    turn := g.turn.other, status }

/-- The committed ply is on top of the log, and nothing is left to redo. -/
theorem Commits.log {status : Status} (hc : g.Commits ply status h) :
    h.log = ⟨⟨ply, status⟩ :: g.log.committed, []⟩ := by rw [hc.frame]

/-- An action on a sound board either is rejected and changes nothing but threat maps, or commits a
ply. -/
theorem update_cases_of_sound {a : Action} {r : Except Rejection Status} (hg : g.board.Sound)
    (hupdate : g.update a = .ok (r, h)) :
    (∃ e, r = .error e ∧ h = { g with threats := h.threats }) ∨
      ∃ ply status, r = .ok status ∧ g.Commits ply status h := by
  rw [update] at hupdate
  split at hupdate
  · obtain ⟨rfl, rfl⟩ := Prod.mk.inj (Except.ok.inj hupdate)
    exact .inl ⟨_, rfl, rfl⟩
  · next ply hvet =>
    obtain ⟨hgoing, -, -, -, id, -, howns, hplan⟩ := vet_eq_ok_iff.1 hvet
    obtain rfl := piece_of_plan? hplan
    obtain ⟨g₁, happly, hrest⟩ := bind_eq_ok_iff.1 hupdate
    have hstep : ply.Step g.board g₁.board := ⟨records_of_plan? hg hplan, board_of_apply happly⟩
    have hframe := SameFrame.of_apply happly
    split at hrest
    · obtain ⟨g₂, hrevert, hanswer⟩ := bind_eq_ok_iff.1 hrest
      obtain ⟨rfl, rfl⟩ := Prod.mk.inj (Except.ok.inj hanswer)
      have hback : g₂.board = g.board :=
        Except.ok.inj ((board_of_revert hrevert).symm.trans hstep.takeBack)
      refine .inl ⟨_, rfl, ?_⟩
      rw [hframe.trans (SameFrame.of_revert hrevert), hback]
    · obtain ⟨⟨status, g₂⟩, hcommit, hanswer⟩ := bind_eq_ok_iff.1 hrest
      obtain ⟨rfl, rfl⟩ := Prod.mk.inj (Except.ok.inj hanswer)
      obtain ⟨hsettled, hcommitted⟩ := frame_of_commit hcommit
      refine .inr ⟨ply, status, rfl, ⟨_, _, hplan⟩, hgoing, howns, ?_, hsettled, ?_⟩
      · rw [board_of_commit (hstep.sound hg) hcommit]
        exact hstep
      · rw [hcommitted, hframe]

/-- The committed plies lead to the board of a game, and the undone ones can be played on it
again. -/
structure Recorded (b₀ : Board) (g : Game) : Prop where
  played : b₀.Played (g.log.committed.map (·.ply)) g.board
  replayable : ∃ b, b₀.Played ((g.log.undone.reverse ++ g.log.committed).map (·.ply)) b

namespace Recorded

/-- Only the board and the log count. -/
theorem of_same (hg : Recorded b₀ g) (hboard : h.board = g.board) (hlog : h.log = g.log) :
    Recorded b₀ h := by
  refine ⟨?_, ?_⟩
  · rw [hlog, hboard]
    exact hg.played
  · rw [hlog]
    exact hg.replayable

/-- The latest ply is taken back along its step. -/
theorem of_revert (hg : Recorded b₀ g) {e : LogEntry} {rest undone : List LogEntry}
    (hlog : g.log.committed = e :: rest) (hundone : undone = e :: g.log.undone ∨ undone = [])
    (hrevert : ({ g with log := ⟨rest, undone⟩ } : Game).revert e.ply = .ok h) :
    Recorded b₀ h := by
  have hplayed := hg.played
  rw [hlog, List.map_cons] at hplayed
  obtain ⟨b, hprev, hstep⟩ := hplayed.exists_step
  have hboard : h.board = b :=
    Except.ok.inj ((board_of_revert hrevert).symm.trans hstep.takeBack)
  have hlog' : h.log = ⟨rest, undone⟩ := (SameFrame.of_revert hrevert).log
  refine ⟨by rw [hlog', hboard]; exact hprev, ?_⟩
  rw [hlog']
  rcases hundone with rfl | rfl
  · rw [List.reverse_cons, List.append_assoc, List.singleton_append, ← hlog]
    exact hg.replayable
  · exact ⟨b, hprev⟩

/-- The latest undone ply is played along its step. -/
theorem of_apply (hg : Recorded b₀ g) {e : LogEntry} {rest : List LogEntry}
    (hundone : g.log.undone = e :: rest)
    (happly : ({ g with log := ⟨e :: g.log.committed, rest⟩ } : Game).apply e.ply = .ok h) :
    Recorded b₀ h := by
  obtain ⟨last, hreplay⟩ := hg.replayable
  rw [hundone, List.reverse_cons, List.append_assoc, List.singleton_append] at hreplay
  obtain ⟨b', hnext⟩ := (List.map_append ▸ hreplay :).exists_earlier
  obtain ⟨b, hprev, hstep⟩ := hnext.exists_step
  obtain rfl := hprev.unique hg.played
  have hboard : h.board = b' := Except.ok.inj ((board_of_apply happly).symm.trans hstep.play)
  have hlog : h.log = ⟨e :: g.log.committed, rest⟩ := (SameFrame.of_apply happly).log
  refine ⟨by rw [hlog, hboard]; exact hnext, last, ?_⟩
  rw [hlog]
  exact hreplay

theorem undoPlies {save : Bool} {n count : Nat} (hg : Recorded b₀ g)
    (h' : Game.undoPlies save n g = .ok (count, h)) : Recorded b₀ h := by
  refine undoPlies_induction (P := fun _ => Recorded b₀) (k := 0) ?back ?forget hg h'
  case back =>
    intro _ g h e rest undone hg hlog hundone hrevert
    exact (hg.of_revert hlog hundone hrevert).of_same rfl rfl
  case forget =>
    intro _ g hg hlog
    have hplayed := hg.played
    rw [hlog] at hplayed
    exact ⟨hplayed, g.board, hplayed⟩

theorem redoPlies {n count : Nat} (hg : Recorded b₀ g)
    (h' : Game.redoPlies n g = .ok (count, h)) : Recorded b₀ h := by
  refine redoPlies_induction (P := fun _ => Recorded b₀) (k := 0) ?again hg h'
  intro _ g h e rest hg hlog happly
  exact (hg.of_apply hlog happly).of_same rfl rfl

theorem update (h₀ : b₀.Sound) (hg : Recorded b₀ g) {a : Action} {r : Except Rejection Status}
    (hupdate : g.update a = .ok (r, h)) : Recorded b₀ h := by
  obtain ⟨_, -, hsame⟩ | ⟨ply, status, -, hc⟩ := update_cases_of_sound (hg.played.sound h₀) hupdate
  · rw [hsame]
    exact hg.of_same rfl rfl
  · have hplayed : b₀.Played (h.log.committed.map (·.ply)) h.board := by
      rw [hc.log]
      exact hg.played.next hc.step
    refine ⟨hplayed, h.board, ?_⟩
    rw [hc.log] at hplayed ⊢
    exact hplayed

theorem undo {n : Nat} {save : Bool} {answer : Status} (hg : Recorded b₀ g)
    (hundo : g.undo n save = .ok (answer, h)) : Recorded b₀ h := by
  obtain ⟨count, k, hplies, ⟨-, rfl⟩ | hsame⟩ := undo_cases hundo
  · exact hg.undoPlies hplies
  · rw [hsame]
    exact (hg.undoPlies hplies).of_same rfl rfl

theorem redo {n : Nat} {answer : Status} (hg : Recorded b₀ g)
    (hredo : g.redo n = .ok (answer, h)) : Recorded b₀ h := by
  obtain ⟨count, k, hplies, hsame⟩ := redo_cases hredo
  rw [hsame]
  exact (hg.redoPlies hplies).of_same rfl rfl

/-- Looking for plies gives back the board and the log. -/
theorem of_tries (h₀ : b₀.Sound) (hg : Recorded b₀ g) (hboard : g.board.Sound → h.board = g.board)
    (hframe : g.SameFrame h) : Recorded b₀ h :=
  hg.of_same (hboard (hg.played.sound h₀)) hframe.log

end Recorded

/-- The elementary operations keep the board and the log in step. -/
theorem preserved_recorded (h₀ : b₀.Sound) : Preserved (Recorded b₀) where
  update hg hupdate := hg.update h₀ hupdate
  undo hg hundo := hg.undo hundo
  redo hg hredo := hg.redo hredo
  legalActions hg h' :=
    hg.of_tries h₀ (tries_board.legalActions h') (SameFrame.tries.legalActions h')
  moveMap hg h' := hg.of_tries h₀ (tries_board.moveMap h') (SameFrame.tries.moveMap h')

variable {set : PieceSet} {layout : List Char} {config : GameConfig} {ops : List Operation}
  {g₀ : Game}

/-- A game starts on the board that is read from its layout, with the kings found there and nothing
in its log. Its first status is one that a ply can lead to, or that the game has not begun. -/
theorem frame_of_start (hstart : start set layout config = .ok g₀) :
    ∃ board turn threats status, Board.read set config.bounds layout = .ok (board, turn) ∧
      status ≠ .unchanged ∧ g₀ =
        { board, pieceSet := set, log := .empty, threats,
          kings := ⟨findKing board .white, findKing board .black⟩, turn, status,
          initial := status, config } := by
  rw [start] at hstart
  split at hstart
  · cases hstart
  · next board turn hread =>
    split at hstart
    · cases hstart
    · next verdict g hverdict =>
      obtain rfl := Except.ok.inj hstart
      obtain ⟨threats, hframe⟩ := setUp_eq set config board turn
      rw [hframe] at hverdict
      have hboard : g.board = board := tries_board.verdict hverdict (Board.of_read hread).1
      have hstatus : (if verdict = .ongoing then .pending else verdict) ≠ Status.unchanged := by
        split
        · decide
        · exact (settled_of_verdict hverdict).2
      refine ⟨board, turn, g.threats, _, hread, hstatus, ?_⟩
      rw [SameFrame.tries.verdict hverdict, hboard]

/-- A game starts on the board that is read from its layout, with nothing in its log. -/
theorem recorded_of_start (hstart : start set layout config = .ok g₀) : ∃ board turn,
    Board.read set config.bounds layout = .ok (board, turn) ∧ Recorded board g₀ := by
  obtain ⟨board, turn, threats, status, hread, -, rfl⟩ := frame_of_start hstart
  exact ⟨board, turn, hread, .start, board, .start⟩

/-- In every game of a run, from any layout and with any piece set, whoever stands on a point is
recorded there, inside the bounds, and stands on no other point. The roster holds the pieces of the
layout in the order of their tokens, with their colours. Each of them is off the board exactly if a
committed ply took it, on its target or by its side effect, and then one ply did so only; and it is
marked as moved exactly if it was in the layout or a committed ply moved it, as its mover or by its
side effect. -/
theorem ledger_of_run (hstart : start set layout config = .ok g₀) (hrun : g₀.run ops = .ok g) :
    (∀ p id, g.board.on? p = some id → config.bounds.contains p ∧
      (∃ q, g.board.piece? id = some q ∧ q.point = p) ∧ ∀ r, g.board.on? r = some id → r = p) ∧
    ∃ turn tokens pieces, Board.readTurn (Text.words layout) = .ok (turn, tokens) ∧
      tokens.mapM set.readPiece = .ok pieces ∧
      g.board.roster.toList.map (·.colour) = pieces.map (·.colour) ∧
      ∀ id parsed, pieces[id.index]? = some parsed →
        g.log.committed.countP (·.ply.takes id) = (if g.board.has id then 0 else 1) ∧
        ∃ q, g.board.piece? id = some q ∧
          (q.moved ↔ parsed.moved ∨ ∃ e ∈ g.log.committed, e.ply.displaces id) := by
  obtain ⟨board, turn, hread, hrecorded⟩ := recorded_of_start hstart
  obtain ⟨hsound, hfull, -⟩ := Board.of_read hread
  have hg := ((preserved_recorded hsound).run hrecorded hrun).played
  have hgsound := hg.sound hsound
  obtain ⟨tokens, hturn, hpieces⟩ := Board.roster_of_read hread
  refine ⟨fun p id hon => ⟨?_, hgsound p id hon, fun r hr => hgsound.on?_inj hr hon⟩, turn, tokens,
    board.roster.toList, hturn, hpieces, Board.roster_map_eq hg.colour_eq, fun id parsed hid => ?_⟩
  · rw [← Board.bounds_of_read hread, ← hg.bounds_eq]
    exact Board.contains_of_on? hon
  · have hparsed : board.piece? id = some parsed := by
      rw [Board.piece?, ← Array.getElem?_toList]
      exact hid
    have hcount := hg.countP_takes hsound hfull hparsed
    rw [List.countP_map] at hcount
    refine ⟨hcount, ?_⟩
    have hmoved := hg.moved_eq id
    rw [hparsed, Option.map_some, Option.map_eq_some_iff] at hmoved
    obtain ⟨q, hq, hmark⟩ := hmoved
    refine ⟨q, hq, ?_⟩
    rw [hmark, Bool.or_eq_true, List.any_map, List.any_eq_true]
    rfl

/-- A rook gives check and is taken. Three pieces are on record; one committed ply took the rook,
which is off the board, and no other piece was taken. -/
theorem ledger_of_run_small : ∃ g₀ g,
    start .orthodox "w wKa1 wRb1* bKc3*".toList smallConfig = .ok g₀ ∧
      g₀.run [.update ⟨.white, .ofCoords 1 0, .ofCoords 1 2⟩,
        .update ⟨.black, .ofCoords 2 2, .ofCoords 1 2⟩] = .ok g ∧
      g.board.roster.size = 3 ∧ g.board.has ⟨1⟩ = false ∧
      (∀ id, id.index < 3 →
        g.log.committed.countP (·.ply.takes id) = if g.board.has id then 0 else 1) ∧
      g.log.committed.countP (·.ply.takes ⟨1⟩) = 1 := by
  obtain ⟨g₀, g, hstart, hrun, htest⟩ :=
    exists_run_passing .orthodox "w wKa1 wRb1* bKc3*".toList smallConfig
      [.update ⟨.white, .ofCoords 1 0, .ofCoords 1 2⟩,
        .update ⟨.black, .ofCoords 2 2, .ofCoords 1 2⟩]
      (fun _ g => g.board.roster.size = 3 && !g.board.has ⟨1⟩) (by decide +kernel)
  simp only [Bool.and_eq_true, decide_eq_true_eq, Bool.not_eq_true'] at htest
  obtain ⟨hsize, hgone⟩ := htest
  obtain ⟨-, turn, tokens, pieces, -, -, hcolours, hledger⟩ := ledger_of_run hstart hrun
  have hlength : pieces.length = 3 := by
    rw [← List.length_map (·.colour), ← hcolours, List.length_map, Array.length_toList, hsize]
  have hcount : ∀ id : PieceId, id.index < 3 →
      g.log.committed.countP (·.ply.takes id) = if g.board.has id then 0 else 1 := fun id hid =>
    (hledger id _ (List.getElem?_eq_getElem (hlength ▸ hid))).1
  have hrook := hcount ⟨1⟩ (by decide)
  rw [hgone] at hrook
  exact ⟨g₀, g, hstart, hrun, hsize, hgone, hcount, hrook⟩

end Game

end VariantChess
