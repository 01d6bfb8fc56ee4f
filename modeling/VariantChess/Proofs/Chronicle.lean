import Mathlib.Logic.Function.Iterate
import VariantChess.Proofs.Ledger

/-!
# The log as a record of the game

What the log tells of a game besides its board: whose turn it is, what the status is, and that the
sides have played in turn with nobody playing on after the end. Turn, status and the two stacks of
the log are kept by separate operations, so the sequence is followed through both stacks: redoing
can then neither play out of turn nor go on after the end. All of it holds for any pieces and
whether or not the threat maps are up to date, and so does taking back an accepted action.
-/

namespace VariantChess

namespace Board

variable {b b' : Board} {first : Colour} {log : List LogEntry} {e : LogEntry}

/-- The entries, latest first, of planned plies that `first` and the other side have made in turn.
No status among them is one that no ply leads to, and all but the latest let the game go on. -/
inductive Turns (b : Board) (first : Colour) : List LogEntry → Prop
  | start : Turns b first []
  | next {log : List LogEntry} {e : LogEntry} (earlier : Turns b first log)
      (planned : ∃ (g : Game) (id : PieceId) (target : Point), g.plan? id target = some e.ply)
      (mover : b.owns (Colour.other^[log.length] first) e.ply.piece)
      (settled : e.status ≠ .pending ∧ e.status ≠ .unchanged)
      (going : ∀ d ∈ log, d.status.isTerminal = false) : Turns b first (e :: log)

namespace Turns

/-- Earlier entries are a sequence of turns of their own. -/
theorem exists_earlier {later : List LogEntry} (h : b.Turns first (later ++ log)) :
    b.Turns first log := by
  induction later with
  | nil => exact h
  | cons e later ih =>
    cases h with
    | next earlier _ _ _ _ => exact ih earlier

/-- Every entry holds a planned ply. -/
theorem planned (h : b.Turns first log) (he : e ∈ log) :
    ∃ (g : Game) (id : PieceId) (target : Point), g.plan? id target = some e.ply := by
  induction h with
  | start => exact absurd he List.not_mem_nil
  | next _ planned _ _ _ ih =>
    rcases List.mem_cons.1 he with rfl | hlog
    · exact planned
    · exact ih hlog

/-- If the latest entry lets the game go on, all entries do. -/
theorem going_all (h : b.Turns first log)
    (hlast : ∀ e ∈ log.head?, e.status.isTerminal = false) :
    ∀ e ∈ log, e.status.isTerminal = false := by
  cases h with
  | start => exact fun e he => absurd he List.not_mem_nil
  | next _ _ _ _ going =>
    rw [List.head?_cons] at hlast
    exact List.forall_mem_cons.2 ⟨hlast _ rfl, going⟩

/-- The entries counted from the oldest one, with their movers on a board of the same colours. -/
theorem getElem? (h : b.Turns first log)
    (hcolour : ∀ id, (b'.piece? id).map (·.colour) = (b.piece? id).map (·.colour)) {i : Nat}
    (he : log.reverse[i]? = some e) :
    b'.owns (Colour.other^[i] first) e.ply.piece ∧ e.status ≠ .pending ∧ e.status ≠ .unchanged ∧
      (i + 1 < log.length → e.status.isTerminal = false) := by
  induction h with
  | start => simp at he
  | @next log d _ _ mover settled going ih =>
    rw [List.reverse_cons, List.getElem?_append, List.length_reverse] at he
    rw [List.length_cons]
    split at he
    · next hi =>
      obtain ⟨howns, hpending, hunchanged, -⟩ := ih he
      exact ⟨howns, hpending, hunchanged,
        fun _ => going e (List.mem_reverse.1 (List.mem_of_getElem? he))⟩
    · next hi =>
      have hlast : i - log.length < [d].length := List.getElem?_eq_some_iff.1 he |>.1
      rw [List.length_singleton] at hlast
      obtain rfl : i = log.length := by omega
      rw [Nat.sub_self, List.getElem?_cons_zero, Option.some.injEq] at he
      subst he
      rw [owns_eq_of_colour (hcolour d.ply.piece)]
      exact ⟨mover, settled.1, settled.2, fun hi => absurd hi (Nat.lt_irrefl _)⟩

end Turns

end Board

namespace Game

variable {g₀ g h : Game} {b₀ : Board} {first : Colour}

/-- The games agree in what no operation changes. -/
structure SameSettings (g h : Game) : Prop where
  pieceSet : h.pieceSet = g.pieceSet
  kings : h.kings = g.kings
  initial : h.initial = g.initial
  config : h.config = g.config

/-- All else may change. -/
theorem SameSettings.of_eq (hg : g₀.SameSettings g) (h' : h = { g with
    board := h.board, log := h.log, threats := h.threats, turn := h.turn, status := h.status }) :
    g₀.SameSettings h := by
  rw [h']
  exact ⟨hg.pieceSet, hg.kings, hg.initial, hg.config⟩

/-- The board is on record, the sides have played in turn on both stacks of the log, and so the log
tells whose turn it is. -/
structure InTurn (b₀ : Board) (first : Colour) (g₀ g : Game) : Prop extends Recorded b₀ g where
  turns : b₀.Turns first (g.log.undone.reverse ++ g.log.committed)
  turn : g.turn = Colour.other^[g.log.length] first
  settings : g₀.SameSettings g

/-- A game whose turn and status are those that its log tells. -/
structure Chronicled (b₀ : Board) (first : Colour) (g₀ g : Game) : Prop
    extends InTurn b₀ first g₀ g where
  status : g.status = g.recordedStatus

namespace InTurn

/-- Neither the threat maps nor the status count. -/
theorem of_threats_status (hg : InTurn b₀ first g₀ g) (threats : Sides ThreatMap)
    (status : Status) : InTurn b₀ first g₀ { g with threats, status } :=
  ⟨hg.toRecorded.of_same rfl rfl, hg.turns, hg.turn, hg.settings.of_eq rfl⟩

/-- Going back by one entry passes the turn back. -/
theorem of_revert (hg : InTurn b₀ first g₀ g) {e : LogEntry} {rest undone : List LogEntry}
    (hlog : g.log.committed = e :: rest) (hundone : undone = e :: g.log.undone ∨ undone = [])
    (hrevert : ({ g with log := ⟨rest, undone⟩ } : Game).revert e.ply = .ok h) :
    InTurn b₀ first g₀ { h with turn := h.turn.other } := by
  have hrecorded := hg.toRecorded.of_revert hlog hundone hrevert
  have hturns := hg.turns
  have hturn := hg.turn
  rw [SameFrame.of_revert hrevert] at hrecorded ⊢
  refine ⟨hrecorded.of_same rfl rfl, ?_, ?_, hg.settings.of_eq rfl⟩
  · show b₀.Turns first (undone.reverse ++ rest)
    rcases hundone with rfl | rfl
    · rw [List.reverse_cons, List.append_assoc, List.singleton_append, ← hlog]
      exact hturns
    · rw [hlog, List.append_cons] at hturns
      exact hturns.exists_earlier
  · rw [Log.length, hlog, List.length_cons, Function.iterate_succ_apply'] at hturn
    show g.turn.other = Colour.other^[rest.length] first
    rw [hturn, Colour.other_other]

/-- Going forth by one entry passes the turn. -/
theorem of_apply (hg : InTurn b₀ first g₀ g) {e : LogEntry} {rest : List LogEntry}
    (hlog : g.log.undone = e :: rest)
    (happly : ({ g with log := ⟨e :: g.log.committed, rest⟩ } : Game).apply e.ply = .ok h) :
    InTurn b₀ first g₀ { h with turn := h.turn.other, status := e.status } := by
  have hrecorded := hg.toRecorded.of_apply hlog happly
  have hturns := hg.turns
  rw [SameFrame.of_apply happly] at hrecorded ⊢
  refine ⟨hrecorded.of_same rfl rfl, ?_, ?_, hg.settings.of_eq rfl⟩
  · rw [hlog, List.reverse_cons, List.append_assoc, List.singleton_append] at hturns
    exact hturns
  · show g.turn.other = Colour.other^[(e :: g.log.committed).length] first
    rw [List.length_cons, Function.iterate_succ_apply', hg.turn]
    rfl

/-- There is nothing to redo once the redo stack has been forgotten. -/
theorem of_forget (hg : InTurn b₀ first g₀ g) (hlog : g.log.committed = []) :
    InTurn b₀ first g₀ { g with log := .empty } := by
  have hplayed := hg.played
  have hturn := hg.turn
  rw [hlog] at hplayed
  rw [Log.length, hlog] at hturn
  exact ⟨⟨hplayed, g.board, hplayed⟩, .start, hturn, hg.settings.of_eq rfl⟩

theorem undoPlies {save : Bool} {n count : Nat} (hg : InTurn b₀ first g₀ g)
    (h' : Game.undoPlies save n g = .ok (count, h)) : InTurn b₀ first g₀ h :=
  undoPlies_induction (P := fun _ => InTurn b₀ first g₀) (k := 0)
    (fun hg hlog hundone hrevert => hg.of_revert hlog hundone hrevert)
    (fun hg hlog => hg.of_forget hlog) hg h'

end InTurn

namespace Chronicled

/-- Changes of the threat maps do not count. -/
theorem of_threats (hg : Chronicled b₀ first g₀ g) (threats : Sides ThreatMap) :
    Chronicled b₀ first g₀ { g with threats } :=
  ⟨hg.toInTurn.of_threats_status threats g.status, hg.status⟩

/-- An accepted action is the next turn: it is played by the side whose turn it is, in a game that
is not over. -/
theorem update (h₀ : b₀.Sound) (hg : Chronicled b₀ first g₀ g) {a : Action}
    {r : Except Rejection Status} (hupdate : g.update a = .ok (r, h)) :
    Chronicled b₀ first g₀ h := by
  have hrecorded := hg.toRecorded.update h₀ hupdate
  obtain ⟨_, -, hsame⟩ | ⟨ply, status, -, hc⟩ := update_cases_of_sound (hg.played.sound h₀) hupdate
  · rw [hsame]
    exact hg.of_threats _
  · have hgoing : ∀ e ∈ g.log.committed, e.status.isTerminal = false := by
      refine hg.turns.exists_earlier.going_all fun e he => ?_
      have hstatus : g.status = e.status := by
        rw [hg.status, recordedStatus, Log.last?, he]
        rfl
      exact hstatus ▸ hc.going
    have howns : b₀.owns (Colour.other^[g.log.length] first) ply.piece := by
      rw [← hg.turn, ← Board.owns_eq_of_colour (hg.played.colour_eq ply.piece)]
      exact hc.owns
    have hframe := hc.frame
    generalize h.board = b, h.threats = threats at hframe
    subst hframe
    refine ⟨⟨hrecorded, ?_, ?_, hg.settings.of_eq rfl⟩, rfl⟩
    · exact .next hg.turns.exists_earlier ⟨g, hc.planned⟩ howns hc.settled hgoing
    · show g.turn.other = Colour.other^[(_ :: g.log.committed).length] first
      rw [List.length_cons, Function.iterate_succ_apply', hg.turn]
      rfl

/-- Undoing gives the game the status that its log then has, unless nothing was undone. -/
theorem undo {n : Nat} {save : Bool} {answer : Status} (hg : Chronicled b₀ first g₀ g)
    (hundo : g.undo n save = .ok (answer, h)) : Chronicled b₀ first g₀ h := by
  obtain ⟨count, k, hplies, ⟨hcount, rfl⟩ | hsame⟩ := undo_cases hundo
  · obtain ⟨hcommitted, hstatus, hinitial⟩ := committed_of_undoPlies hplies
    rw [hcount, List.drop_zero] at hcommitted
    exact ⟨hg.toInTurn.undoPlies hplies,
      (hstatus.trans hg.status).trans (recordedStatus_eq hcommitted hinitial).symm⟩
  · rw [hsame]
    exact ⟨(hg.toInTurn.undoPlies hplies).of_threats_status _ _, rfl⟩

/-- Redoing gives the game the status of each entry that it plays again. -/
theorem redo {n : Nat} {answer : Status} (hg : Chronicled b₀ first g₀ g)
    (hredo : g.redo n = .ok (answer, h)) : Chronicled b₀ first g₀ h := by
  obtain ⟨count, k, hplies, hsame⟩ := redo_cases hredo
  have hforth : Chronicled b₀ first g₀ k := by
    refine redoPlies_induction (P := fun _ => Chronicled b₀ first g₀) (k := 0) ?again hg hplies
    intro _ g h e rest hg hlog happly
    refine ⟨hg.toInTurn.of_apply hlog happly, ?_⟩
    rw [recordedStatus, SameFrame.of_apply happly]
    rfl
  rw [hsame]
  exact hforth.of_threats _

/-- The status at the start stands as long as the log is empty; after that it is one that a ply can
lead to. -/
theorem status_cases (hg : Chronicled b₀ first g₀ g) :
    (g.log.length = 0 ∧ g.status = g₀.initial) ∨
      g.log.length ≠ 0 ∧ g.status ≠ .pending ∧ g.status ≠ .unchanged := by
  have hstatus := hg.status
  have hturns := hg.turns.exists_earlier
  rw [recordedStatus, Log.last?] at hstatus
  rw [Log.length]
  cases hlog : g.log.committed with
  | nil =>
    rw [hlog] at hstatus
    exact .inl ⟨rfl, hstatus.trans hg.settings.initial⟩
  | cons e rest =>
    rw [hlog] at hstatus hturns
    cases hturns with
    | next _ _ _ settled _ => exact .inr ⟨Nat.succ_ne_zero _, hstatus ▸ settled⟩

/-- Looking for plies gives back all but the threat maps. -/
theorem of_tries (h₀ : b₀.Sound) (hg : Chronicled b₀ first g₀ g)
    (hboard : g.board.Sound → h.board = g.board) (hframe : g.SameFrame h) :
    Chronicled b₀ first g₀ h := by
  rw [hframe, hboard (hg.played.sound h₀)]
  exact hg.of_threats _

end Chronicled

/-- The elementary operations keep turn, status and log in step. -/
theorem preserved_chronicled (h₀ : b₀.Sound) : Preserved (Chronicled b₀ first g₀) where
  update hg hupdate := hg.update h₀ hupdate
  undo hg hundo := hg.undo hundo
  redo hg hredo := hg.redo hredo
  legalActions hg h' :=
    hg.of_tries h₀ (tries_board.legalActions h') (SameFrame.tries.legalActions h')
  moveMap hg h' := hg.of_tries h₀ (tries_board.moveMap h') (SameFrame.tries.moveMap h')

/-- Undoing that drops an entry for good forgets what could be redone. -/
theorem undone_of_undo_drop {n : Nat} {answer : Status} (hundo : g.undo n false = .ok (answer, h))
    (hlength : h.log.length < g.log.length) : h.log.undone = [] := by
  obtain ⟨count, k, hplies, hsame⟩ := undo_cases hundo
  have hlog : h.log = k.log := by
    obtain ⟨-, rfl⟩ | hsame := hsame
    · rfl
    · rw [hsame]
  have hdrop := log_of_undoPlies_drop hplies
  rw [hlog] at hlength ⊢
  split at hdrop
  · exact absurd hlength (hdrop ▸ Nat.lt_irrefl _)
  · rw [hdrop]

/-- A ply that has just been committed can be undone, which gives the game back apart from its
threat maps and its redo stack. -/
theorem Commits.undo_eq_ok {ply : Ply} {status : Status} (hc : g.Commits ply status h)
    (hstatus : g.status = g.recordedStatus) (save : Bool) :
    ∃ threats, h.undo 1 save = .ok (g.status, { g with
      threats, log := ⟨g.log.committed, if save then [⟨ply, status⟩] else []⟩ }) := by
  have hback := hc.step.takeBack
  have hframe := hc.frame
  generalize h.board = b, h.threats = threats at hback hframe
  subst hframe
  generalize hlog : (⟨g.log.committed, if save then [⟨ply, status⟩] else []⟩ : Log) = log
  have hundo : (if save then Log.undo ⟨⟨ply, status⟩ :: g.log.committed, []⟩
      else Log.drop ⟨⟨ply, status⟩ :: g.log.committed, []⟩) = (some ⟨ply, status⟩, log) := by
    rw [← hlog]
    cases save <;> rfl
  obtain ⟨threats₁, hrevert⟩ : ∃ threats₁, ({ g with
      board := b, log, threats, turn := g.turn.other, status } : Game).revert ply =
        .ok { g with log, threats := threats₁, turn := g.turn.other, status } := by
    rw [revert_eq_map, hback, Except.map, after_eq]
    exact ⟨_, rfl⟩
  have hplies : undoPlies save 1 { g with
      board := b, log := ⟨⟨ply, status⟩ :: g.log.committed, []⟩, threats, turn := g.turn.other,
      status } = .ok (1, { g with log, threats := threats₁, status }) := by
    rw [undoPlies, hundo]
    refine bind_eq_ok_iff.2 ⟨_, hrevert, ?_⟩
    rw [Colour.other_other]
    rfl
  have hrecord :
      ({ g with log, threats := threats₁, status } : Game).recordedStatus = g.status := by
    rw [hstatus, recordedStatus, ← hlog]
    rfl
  rw [undo_eq hplies, if_neg Nat.one_ne_zero, hrecord, refreshVolatile, refresh_eq]
  exact ⟨_, rfl⟩

variable {set : PieceSet} {layout : List Char} {config : GameConfig} {ops : List Operation}
  {a : Action} {status : Status}

/-- A game of a run is chronicled from the board and the side to move of its layout. -/
theorem chronicled_of_run (hstart : start set layout config = .ok g₀) (hrun : g₀.run ops = .ok g) :
    ∃ board first, Board.read set config.bounds layout = .ok (board, first) ∧
      g₀.status ≠ .unchanged ∧ g₀.initial = g₀.status ∧
      g₀.kings = ⟨findKing board .white, findKing board .black⟩ ∧ Chronicled board first g₀ g := by
  obtain ⟨board, first, threats, status, hread, hstatus, rfl⟩ := frame_of_start hstart
  refine ⟨board, first, hread, hstatus, rfl, rfl, ?_⟩
  exact (preserved_chronicled (Board.of_read hread).1).run
    ⟨⟨⟨.start, board, .start⟩, .start, rfl, ⟨rfl, rfl, rfl, rfl⟩⟩, rfl⟩ hrun

/-- In every game of a run, from any layout and with any piece set, the plies of the log were made
by the side to move of the layout and the other side in turn, the undone ones after the committed
ones, and it is the turn of the side that comes after the committed ones. The game went on after every
entry but the last. No status is that nothing has changed, and none is that the game has not begun
unless the log is empty; the status is that of the last committed entry, or the one at the start.
There is nothing to redo after an accepted action, nor after undoing that dropped an entry for
good. -/
theorem chronicle_of_run (hstart : start set layout config = .ok g₀) (hrun : g₀.run ops = .ok g) :
    ∃ first tokens, Board.readTurn (Text.words layout) = .ok (first, tokens) ∧
      g.turn = Colour.other^[g.log.length] first ∧
      (∀ i e, (g.log.entries ++ g.log.undone)[i]? = some e →
        g.board.owns (Colour.other^[i] first) e.ply.piece ∧ e.status ≠ .pending ∧
          e.status ≠ .unchanged ∧
          (i + 1 < g.log.length + g.log.undone.length → e.status.isTerminal = false)) ∧
      g.status ≠ .unchanged ∧ (g.status = .pending → g.log.length = 0) ∧
      g.status = (g.log.last?.map (·.status)).getD g₀.status ∧
      (∀ a status h, g.update a = .ok (.ok status, h) → h.log.undone = []) ∧
      ∀ n status h, g.undo n false = .ok (status, h) → h.log.length < g.log.length →
        h.log.undone = [] := by
  obtain ⟨board, first, hread, hfirst, hinitial, -, hg⟩ := chronicled_of_run hstart hrun
  obtain ⟨tokens, hturn, -⟩ := Board.roster_of_read hread
  have hentries : ∀ i e, (g.log.entries ++ g.log.undone)[i]? = some e →
      g.board.owns (Colour.other^[i] first) e.ply.piece ∧ e.status ≠ .pending ∧
        e.status ≠ .unchanged ∧
        (i + 1 < g.log.length + g.log.undone.length → e.status.isTerminal = false) := by
    intro i e he
    have hline := hg.turns.getElem? hg.played.colour_eq (i := i) (e := e)
    rw [List.reverse_append, List.reverse_reverse, List.length_append, List.length_reverse,
      Nat.add_comm g.log.undone.length] at hline
    exact hline he
  have hstatus : g.status = (g.log.last?.map (·.status)).getD g₀.status := by
    rw [hg.status, recordedStatus, hg.settings.initial, hinitial]
  refine ⟨first, tokens, hturn, hg.turn, hentries, ?_, ?_, hstatus, ?_, ?_⟩
  · rcases hg.status_cases with ⟨-, h⟩ | ⟨-, -, h⟩
    · rw [h, hinitial]
      exact hfirst
    · exact h
  · intro hpending
    rcases hg.status_cases with ⟨h, -⟩ | ⟨-, h, -⟩
    · exact h
    · exact absurd hpending h
  · intro a status h hupdate
    obtain ⟨_, hr, -⟩ | ⟨_, _, -, -, hlog⟩ := log_of_update hupdate
    · cases hr
    · rw [hlog]
  · intro n status h hundo hlength
    exact undone_of_undo_drop hundo hlength

/-- A rook gives check and the king steps aside. Both plies are undone and the first one is redone,
so it is black's turn after a ply of white's. -/
theorem chronicle_of_run_small : ∃ g₀ g,
    start .orthodox "w wKa1 wRb1 bKc3".toList smallConfig = .ok g₀ ∧
      g₀.run [.update ⟨.white, .ofCoords 1 0, .ofCoords 1 2⟩,
        .update ⟨.black, .ofCoords 2 2, .ofCoords 2 1⟩, .undo 2 true, .redo 1] = .ok g ∧
      g.log.length = 1 ∧ g.log.undone.length = 1 ∧ g.turn = .black ∧
      (∀ i e, (g.log.entries ++ g.log.undone)[i]? = some e →
        g.board.owns (Colour.other^[i] .white) e.ply.piece ∧ e.status ≠ .pending ∧
          e.status ≠ .unchanged ∧
          (i + 1 < g.log.length + g.log.undone.length → e.status.isTerminal = false)) ∧
      ∀ a status h, g.update a = .ok (.ok status, h) → h.log.undone = [] := by
  obtain ⟨g₀, g, hstart, hrun, htest⟩ :=
    exists_run_passing .orthodox "w wKa1 wRb1 bKc3".toList smallConfig
      [.update ⟨.white, .ofCoords 1 0, .ofCoords 1 2⟩,
        .update ⟨.black, .ofCoords 2 2, .ofCoords 2 1⟩, .undo 2 true, .redo 1]
      (fun _ g => g.log.length = 1 && g.log.undone.length = 1) (by decide +kernel)
  rw [Bool.and_eq_true, decide_eq_true_eq, decide_eq_true_eq] at htest
  obtain ⟨hlength, hundone⟩ := htest
  obtain ⟨first, tokens, hturn, hside, hentries, -, -, -, hnew, -⟩ := chronicle_of_run hstart hrun
  have hfirst : (Board.readTurn (Text.words "w wKa1 wRb1 bKc3".toList)).toOption.map (·.1) =
      some .white := by decide +kernel
  rw [hturn] at hfirst
  obtain rfl := Option.some.inj hfirst
  rw [hlength] at hside
  exact ⟨g₀, g, hstart, hrun, hlength, hundone, hside, hentries, hnew⟩

/-- In every game of a run, from any layout and with any piece set, undoing an action that has just
been accepted succeeds and gives back the game, threat maps and redo stack apart: the board with all
its records, the points of the kings, the turn, the status and the committed entries. -/
theorem restored_of_run (hstart : start set layout config = .ok g₀) (hrun : g₀.run ops = .ok g)
    (hupdate : g.update a = .ok (.ok status, h)) (save : Bool) : ∃ e k,
    h.log.committed = e :: g.log.committed ∧ h.undo 1 save = .ok (g.status, k) ∧
      (∀ c, k.king? c = g.king? c) ∧
      k = { g with
        threats := k.threats, log := ⟨g.log.committed, if save then [e] else []⟩ } := by
  obtain ⟨board, first, hread, -, -, -, hg⟩ := chronicled_of_run hstart hrun
  have hsound := hg.played.sound (Board.of_read hread).1
  obtain ⟨_, hr, -⟩ | ⟨ply, status', -, hc⟩ := update_cases_of_sound hsound hupdate
  · cases hr
  · obtain ⟨threats, hundo⟩ := hc.undo_eq_ok hg.status save
    exact ⟨_, _, congrArg Log.committed hc.log, hundo, fun _ => rfl, rfl⟩

/-- A piece that steps like a king and pulls its right neighbour onto the point that it leaves. -/
def drover : CustomPiece where
  value := 3
  movements := [Orthodox.kingStep.followedBy (.relocate (Location.origin.offset 1 0) .origin)]

/-- The chessmen and the drover. -/
def droverSet : PieceSet := ⟨.insert .empty "drover" drover⟩

/-- A drover takes a pawn and pulls a rook onto the point that it leaves; undoing puts all three of
them back. -/
theorem restored_of_run_drover : ∃ g₀ status h,
    PieceSet.orthodox.register "drover" drover = .ok droverSet ∧
      start droverSet "w w~drover~a1 wRb1 wKc1 bPa2 bKc3".toList smallConfig = .ok g₀ ∧
      g₀.update ⟨.white, .ofCoords 0 0, .ofCoords 0 1⟩ = .ok (.ok status, h) ∧
      h.board.on? (.ofCoords 0 0) = some ⟨1⟩ ∧ h.board.has ⟨3⟩ = false ∧
      ∀ save, ∃ k, h.undo 1 save = .ok (g₀.status, k) ∧ k.board = g₀.board ∧
        (∀ c, k.king? c = g₀.king? c) ∧ k.turn = g₀.turn ∧ k.status = g₀.status ∧
          k.log.committed = g₀.log.committed := by
  have hregister : PieceSet.orthodox.register "drover" drover = .ok droverSet := by decide +kernel
  obtain ⟨g₀, g, status, h, hstart, hrun, hupdate, htest⟩ :=
    exists_accepted droverSet "w w~drover~a1 wRb1 wKc1 bPa2 bKc3".toList smallConfig []
      ⟨.white, .ofCoords 0 0, .ofCoords 0 1⟩
      (fun _ _ _ h => h.board.on? (.ofCoords 0 0) = some ⟨1⟩ && !h.board.has ⟨3⟩)
      (by decide +kernel)
  obtain rfl := Except.ok.inj hrun
  rw [Bool.and_eq_true, decide_eq_true_eq, Bool.not_eq_true'] at htest
  refine ⟨g₀, status, h, hregister, hstart, hupdate, htest.1, htest.2, fun save => ?_⟩
  obtain ⟨e, k, -, hundo, hking, hk⟩ := restored_of_run hstart hrun hupdate save
  exact ⟨k, hundo, by rw [hk], hking, by rw [hk], by rw [hk], by rw [hk]⟩

end Game

end VariantChess
