import VariantChess.Proofs.Mate
import VariantChess.Proofs.Run
import VariantChess.Proofs.StandardGame

/-!
# The status of a game of chessmen

The textbook gives a position its status by check and by the legal plies of the side to move: mate
is a check without a legal ply, and stalemate a missing legal ply without a check. The game finds
mate from the attackers and the answers to them, and it stores statuses in its log and restores them
from there. In every game of a run the stored status is nevertheless the textbook's.
-/

namespace VariantChess

namespace Game

variable {g₀ g h : Game} {set : PieceSet} {layout : List Char} {config : GameConfig}
  {board : Board} {turn : Colour} {ops : List Operation}

/-- Whether some piece of the other side that stands on the board threatens the king of a colour.
This is read off the pieces and not off the threat maps. -/
def kingAttacked (g : Game) (c : Colour) : Bool :=
  (g.king? c).any fun p => (g.board.idsOf c.other).any fun id => (g.reach id).contains p

/-- The threat maps of a kept game tell whether a king is attacked. -/
theorem Kept.inCheck_eq (hk : g.Kept) (c : Colour) : g.inCheck c = g.kingAttacked c := by
  cases hking : g.king? c with
  | none => rw [inCheck, kingAttacked, hking, Option.any_none, Option.any_none]
  | some p =>
    rw [Bool.eq_iff_iff, hk.fresh.inCheck_iff hking, kingAttacked, hking, Option.any_some,
      List.any_eq_true]
    refine exists_congr fun id => ?_
    rw [Board.idsOf, List.mem_filter, hk.sound.mem_ids, List.contains_iff_mem]
    constructor
    · intro h
      exact ⟨⟨h.2.1, h.1⟩, h.2.2⟩
    · intro h
      exact ⟨h.1.2, h.1.1, h.2⟩

/-- The textbook status of a position in which the side to move has the given legal plies. -/
def textbookStatus (g : Game) (plies : List Ply) : Status :=
  if g.config.bareKingsDraw && g.bareKings then .stalemate
  else if g.kingAttacked g.turn then
    if plies.isEmpty then .won g.turn.other else .check g.turn
  else if plies.isEmpty then .stalemate
  else if g.log.length = 0 then .pending else .ongoing

/-- The textbook status of a standard game is the verdict on it, except that play which can go on is
pending before anything is committed. -/
theorem textbookStatus_legal (hg : g.Standard) (hk : g.Kept) :
    g.textbookStatus (g.legal g.turn) =
      if g.judged g.turn.other = .ongoing ∧ g.log.length = 0 then .pending
      else g.judged g.turn.other := by
  rw [textbookStatus, judged, Colour.other_other, ← hk.inCheck_eq]
  by_cases hbare : (g.config.bareKingsDraw && g.bareKings) = true
  · rw [if_pos hbare, if_pos hbare, if_neg]
    exact fun h => absurd h.1 Status.noConfusion
  · rw [if_neg hbare, if_neg hbare]
    by_cases hcheck : g.inCheck g.turn
    · rw [if_pos hcheck, if_pos hcheck,
        hg.crowned.mated_eq hk hcheck fun king => hg.king_mem_ids hk]
      cases (g.legal g.turn).isEmpty <;> simp
    · rw [if_neg hcheck, if_neg hcheck]
      cases (g.legal g.turn).isEmpty <;> simp

/-- The status at the start is the verdict on the first position, or pending when play can go on. -/
theorem initial_of_start (hstart : start set layout config = .ok g₀)
    (hread : Board.read set config.bounds layout = .ok (board, turn))
    (hreg : (setUp set config board turn).Regular) :
    g₀.initial = if g₀.judged g₀.turn.other = .ongoing then .pending
      else g₀.judged g₀.turn.other := by
  have hsame := samePosition_of_start hstart hread hreg
  obtain ⟨board', turn', hread', hrest⟩ := start_eq_ok hstart
  obtain ⟨rfl, rfl⟩ := Prod.mk.inj (Except.ok.inj (hread.symm.trans hread'))
  obtain ⟨status, hg₀, hstatus⟩ := hrest hreg
  obtain ⟨threats, hframe⟩ := setUp_eq set config board turn
  have hturn : g₀.turn = turn := by rw [hg₀, hframe]
  have hinitial : g₀.initial = status := by rw [hg₀]
  rw [hinitial, hsame.judged_eq, hturn]
  exact hstatus

/-- In every game of a run the legal plies of the side to move can be found, and the stored status
is the textbook status of the position with them. The game starts from any layout of chessmen on any
board, with the side that is not to move out of check. -/
theorem status_of_run (hstart : start set layout config = .ok g₀)
    (hread : Board.read set config.bounds layout = .ok (board, turn)) (hkinds : board.Standard)
    (hcalm : g₀.kingAttacked g₀.turn.other = false) (hrun : g₀.run ops = .ok g) :
    ∃ plies, g.legalPlies g.turn = .ok (plies, g) ∧ g.status = g.textbookStatus plies := by
  have hreg := regular_setUp set config turn hkinds
  have h₀ := opening_of_start hstart hread hreg
  have hg₀ := standard_of_start hstart hread hkinds ((h₀.kept.inCheck_eq _).trans hcalm)
  have hreached := h₀.reached_of_run hrun
  have hk := hreached.kept h₀
  have hline := hreached.line
  have hsame := (samePosition_onRecord g).symm
  have hg : g.Standard := (Standard.of_line h₀ hg₀ hline).of_samePosition hsame
  refine ⟨g.legal g.turn, hk.legalPlies_of_standard hg.kinds g.turn, ?_⟩
  rw [hreached.status, recordedStatus, Log.last?, textbookStatus_legal hg hk, Log.length]
  cases hlog : g.log.committed with
  | nil =>
    rw [hlog] at hline
    rw [hline.eq_start] at hsame
    have hinitial : g.initial = g₀.initial := by
      rw [← hline.eq_start]
      rfl
    rw [List.head?_nil, Option.map_none, Option.getD_none, hinitial,
      initial_of_start hstart hread hreg, hsame.judged_eq, hsame.turn, List.length_nil]
    simp only [and_true]
  | cons e rest =>
    rw [hlog] at hline
    obtain ⟨g', -, -, -, -, hf, hstatus⟩ := hline.cases_next h₀
    have hturn : g.turn.other = g'.turn := by
      rw [← Colour.other_other g'.turn, ← hf.turn]
      rfl
    rw [List.head?_cons, Option.map_some, Option.getD_some, hstatus, hturn, ← hsame.judged_eq,
      if_neg fun h => Nat.succ_ne_zero _ h.2]

/-- A rook gives check to a king that can move out of it; taken back and played again, the check is
still the stored status. -/
theorem status_of_run_small : ∃ g₀ g board turn plies,
    start .orthodox "w wKa1 wRb1 bKc3".toList smallConfig = .ok g₀ ∧
      Board.read .orthodox smallConfig.bounds "w wKa1 wRb1 bKc3".toList = .ok (board, turn) ∧
      board.Standard ∧ g₀.kingAttacked g₀.turn.other = false ∧
      g₀.run [.update ⟨.white, .ofCoords 1 0, .ofCoords 2 0⟩, .undo 1 true, .redo 1] = .ok g ∧
      g.legalPlies g.turn = .ok (plies, g) ∧ g.status = g.textbookStatus plies ∧
      g.status = .check .black := by
  have hcheck : ((start .orthodox "w wKa1 wRb1 bKc3".toList smallConfig).toOption.bind fun g₀ =>
      (Board.read .orthodox smallConfig.bounds "w wKa1 wRb1 bKc3".toList).toOption.bind fun r =>
        (g₀.run [.update ⟨.white, .ofCoords 1 0, .ofCoords 2 0⟩, .undo 1 true,
          .redo 1]).toOption.bind fun g =>
            if g₀.kingAttacked g₀.turn.other = false ∧ g.status = .check .black then some (g₀, r, g)
            else none).isSome := by
    decide +kernel
  obtain ⟨x, hx⟩ := Option.isSome_iff_exists.1 hcheck
  obtain ⟨g₀, hstart, hx⟩ := Option.bind_eq_some_iff.1 hx
  obtain ⟨⟨board, turn⟩, hread, hx⟩ := Option.bind_eq_some_iff.1 hx
  obtain ⟨g, hrun, hx⟩ := Option.bind_eq_some_iff.1 hx
  rw [toOption_eq_some_iff] at hstart hread hrun
  split at hx
  · next hboth =>
    obtain ⟨hcalm, hstatus⟩ := hboth
    have hkinds := standard_of_read hread
    obtain ⟨plies, hplies, htextbook⟩ := status_of_run hstart hread hkinds hcalm hrun
    exact ⟨g₀, g, board, turn, plies, hstart, hread, hkinds, hcalm, hrun, hplies, htextbook,
      hstatus⟩
  · cases hx

/-- A game of chessmen that is computed to be reached from a layout, with the side that is not to move
out of check, and to pass a test. -/
theorem exists_calm_run (layout : List Char) (config : GameConfig) (ops : List Operation)
    (test : Game → Bool)
    (h : (start .orthodox layout config).toOption.any fun g₀ =>
      (Board.read .orthodox config.bounds layout).toOption.isSome &&
        !g₀.kingAttacked g₀.turn.other && (g₀.run ops).toOption.any test) :
    ∃ g₀ g board turn, start .orthodox layout config = .ok g₀ ∧
      Board.read .orthodox config.bounds layout = .ok (board, turn) ∧ board.Standard ∧
      g₀.kingAttacked g₀.turn.other = false ∧ g₀.run ops = .ok g ∧ test g := by
  obtain ⟨g₀, hstart, h⟩ := (Option.any_eq_true _ _).1 h
  rw [Bool.and_eq_true, Bool.and_eq_true, Bool.not_eq_true'] at h
  obtain ⟨⟨hread, hcalm⟩, hrun⟩ := h
  obtain ⟨⟨board, turn⟩, hread⟩ := Option.isSome_iff_exists.1 hread
  obtain ⟨g, hrun, htest⟩ := (Option.any_eq_true _ _).1 hrun
  rw [toOption_eq_some_iff] at hstart hread hrun
  exact ⟨g₀, g, board, turn, hstart, hread, standard_of_read hread, hcalm, hrun, htest⟩

end Game

end VariantChess
