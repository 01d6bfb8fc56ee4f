import VariantChess.Proofs.Run
import VariantChess.Proofs.PlainGame

/-!
# The king of the side that has played

Whether a ply is safe is judged before it enters the log; what it commits is a position with the ply
in its log. A movement that does not read the log attacks alike in both, so the king of the mover
can be in check after an accepted action only from a movement that reads the log. With any regular
piece set this is also what happens: such a movement is not held off by the test.
-/

namespace VariantChess

namespace Reference

/-- Whether a reference depends on the latest ply. -/
def readsLog : Reference → Bool
  | .lastMoved => true
  | _ => false

/-- A reference that does not read the log names the same pieces whatever the latest ply is. -/
theorem resolve_eq_of_readsLog {r : Reference} (h : r.readsLog = false) (s : Situation)
    (ply : Option Ply) : r.resolve { s with lastPly := ply } = r.resolve s := by
  cases r with
  | lastMoved => cases h
  | standing | mover | path => rfl

end Reference

namespace Condition

variable {c : Condition}

/-- Whether a condition depends on the latest ply. -/
def readsLog : Condition → Bool
  | .property ref .. => ref.readsLog
  | .pieces left right _ => left.readsLog || right.readsLog
  | .log .. => true
  | .threat .. => false
  | .onBoard .. => false

/-- A condition that does not read the log is judged alike whatever the latest ply is. -/
theorem holds_eq_of_readsLog (h : c.readsLog = false) (s : Situation) (ply : Option Ply) :
    c.holds { s with lastPly := ply } = c.holds s := by
  cases c with
  | property ref prop test expected =>
    simp only [holds, Reference.resolve_eq_of_readsLog (r := ref) h]
  | pieces left right test =>
    rw [readsLog, Bool.or_eq_false_iff] at h
    simp only [holds, Reference.resolve_eq_of_readsLog h.1, Reference.resolve_eq_of_readsLog h.2]
  | log => cases h
  | threat | onBoard => rfl

end Condition

namespace Movement

variable {m : Movement} {p : Point}

/-- Whether some condition of a movement depends on the latest ply. -/
def readsLog (m : Movement) : Bool := m.conditions.any Condition.readsLog

/-- A movement that does not read the log reaches the same points whatever the latest ply is. -/
theorem mem_candidates_iff_of_readsLog (h : m.readsLog = false) (s : Situation)
    (ply : Option Ply) (mode : Mode) :
    p ∈ m.candidates { s with lastPly := ply } mode ↔ p ∈ m.candidates s mode := by
  rw [readsLog, List.any_eq_false] at h
  have hwalk : p ∈ m.walk { s with lastPly := ply } mode ↔ p ∈ m.walk s mode := by
    rw [mem_walk, mem_walk]
    apply exists_congr
    intro q
    rw [mem_arm, mem_arm]
    exact Iff.rfl
  have hholds : ∀ c ∈ m.conditions,
      c.holds (Situation.heading { s with lastPly := ply } p) = c.holds (s.heading p) := by
    intro c hc
    exact Condition.holds_eq_of_readsLog (Bool.eq_false_iff.2 (h c hc)) (s.heading p) ply
  rw [mem_candidates, mem_candidates, hwalk]
  apply and_congr_right
  intro _
  apply and_congr_right
  intro _
  apply forall₂_congr
  intro c hc
  rw [hholds c hc]

end Movement

namespace Game

variable {g₀ g h : Game} {set : PieceSet} {layout : List Char} {config : GameConfig}
  {ops : List Operation} {a : Action} {status : Status} {ply : Ply} {p : Point}

/-- A piece of the other side that stands on the board threatens a point by a movement that reads
the log. -/
def ThreatensByLog (g : Game) (c : Colour) (p : Point) : Prop :=
  ∃ id q, g.board.piece? id = some q ∧ g.board.on? q.point = some id ∧ q.colour = c.other ∧
    ∃ m ∈ g.pieceSet.movements q.kind, m.readsLog ∧
      p ∈ m.candidates ⟨g.board, g.lastPly, none, id, q.colour, q.point, none⟩ .threats

/-- After a safe ply has been committed, every check on the mover's king reads the log. -/
theorem Follows.threatensByLog (hf : g.Follows ply status h) (hk : g.Kept)
    (hply : g.Planned g.turn ply) (hsafe : g.isSafe ply) (hking : h.king? g.turn = some p)
    (hcheck : h.inCheck g.turn) : h.ThreatensByLog g.turn p := by
  obtain ⟨id, howns, hhas, hreach⟩ := (hf.kept.fresh.inCheck_iff hking).1 hcheck
  obtain ⟨q, hq, hon⟩ := Board.has_iff.1 hhas
  obtain ⟨m, hm, hmem⟩ := (mem_reach_iff hq).1 hreach
  have hset : h.movementsOf id = h.pieceSet.movements q.kind := movementsOf_eq_of_piece? hq
  refine ⟨id, q, hq, hon, (Board.owns_iff_of_piece? hq).1 howns, m, hset ▸ hm, ?_, hmem⟩
  by_contra hlog
  -- the attack was there before the ply entered the log, so the ply was not safe
  have hafter := hk.after hf.step
  have hq' : (g.after ply h.board).board.piece? id = some q := by rw [board_after, hq]
  have hmovements : (g.after ply h.board).movementsOf id = h.movementsOf id :=
    movementsOf_eq_of_same (board_after g ply h.board)
      ((pieceSet_after g ply h.board).trans hf.pieceSet.symm) id
  have hreach' : p ∈ (g.after ply h.board).reach id := by
    rw [mem_reach_iff hq', hmovements, threatening, board_after]
    refine ⟨m, hm, ?_⟩
    exact (Movement.mem_candidates_iff_of_readsLog (Bool.eq_false_iff.2 hlog)
      (h.threatening id q) _ .threats).2 hmem
  have hking' : (g.after ply h.board).king? g.turn = some p := by
    rw [king?, kings_after, board_after, ← hf.kings]
    exact hking
  have hcheck' : (g.after ply h.board).inCheck g.turn := by
    rw [hafter.fresh.inCheck_iff hking', board_after]
    exact ⟨id, howns, hhas, hreach'⟩
  rw [hply.isSafe_eq hf.step, hcheck'] at hsafe
  cases hsafe

/-- After an accepted action the mover's king is in check exactly when a piece of the other side
threatens it by a movement that reads the log. -/
theorem Kept.inCheck_iff_threatensByLog (hk : g.Kept)
    (hupdate : g.update a = .ok (.ok status, h)) :
    h.inCheck g.turn ↔ ∃ p, h.king? g.turn = some p ∧ h.ThreatensByLog g.turn p := by
  obtain ⟨_, hr, -⟩ | ⟨ply, status, -, hvet, hsafe, hf, -⟩ := hk.update_cases hupdate
  · cases hr
  constructor
  · intro hcheck
    obtain ⟨p, hking, -⟩ := (Option.any_eq_true _ _).1 hcheck
    exact ⟨p, hking, hf.threatensByLog hk (hk.planned_of_vet hvet) hsafe hking hcheck⟩
  · rintro ⟨p, hking, id, q, hq, hon, hcolour, m, hm, -, hmem⟩
    rw [hf.kept.fresh.inCheck_iff hking]
    refine ⟨id, (Board.owns_iff_of_piece? hq).2 hcolour, Board.has_iff.2 ⟨q, hq, hon⟩, ?_⟩
    rw [mem_reach_iff hq, movementsOf_eq_of_piece? hq]
    exact ⟨m, hm, hmem⟩

/-- In every game of a run, from any layout and with any regular piece set, an accepted action
leaves the mover's king in check exactly when a piece of the other side threatens it by a movement
that reads the log. -/
theorem inCheck_mover_iff (hset : set.Regular) (hstart : start set layout config = .ok g₀)
    (hrun : g₀.run ops = .ok g) (hupdate : g.update a = .ok (.ok status, h)) :
    h.inCheck g.turn ↔ ∃ p, h.king? g.turn = some p ∧ h.ThreatensByLog g.turn p := by
  have h₀ := opening_of_regular hset hstart
  have hk := (h₀.reached_of_run hrun).kept h₀
  exact hk.inCheck_iff_threatensByLog hupdate

/-- A rook leaves its king to give check, and no movement of a chessman reads the log to attack. -/
theorem inCheck_mover_iff_small : ∃ g₀ g status h,
    start .orthodox "w wKa1 wRb1 bKc3".toList smallConfig = .ok g₀ ∧
      g₀.run [.legalActions] = .ok g ∧
      g.update ⟨.white, .ofCoords 1 0, .ofCoords 2 0⟩ = .ok (.ok status, h) ∧
      status = .check .black ∧
      ∀ p, h.king? g.turn = some p → ¬h.ThreatensByLog g.turn p := by
  obtain ⟨g₀, g, status, h, hstart, hrun, hupdate, htest⟩ :=
    exists_accepted .orthodox "w wKa1 wRb1 bKc3".toList smallConfig [.legalActions]
      ⟨.white, .ofCoords 1 0, .ofCoords 2 0⟩
      (fun _ g status h => status = .check .black && !h.inCheck g.turn) (by decide +kernel)
  obtain ⟨hstatus, hsafe⟩ := Bool.and_eq_true_iff.1 htest
  refine ⟨g₀, g, status, h, hstart, hrun, hupdate, of_decide_eq_true hstatus, ?_⟩
  intro p hking hthreat
  rw [(inCheck_mover_iff regular_orthodox hstart hrun hupdate).2 ⟨p, hking, hthreat⟩] at hsafe
  cases hsafe

/-- With a regular piece set whose attacks do not read the log, an accepted action never leaves the
mover's king in check. -/
theorem inCheck_mover_eq_false (hset : set.Regular)
    (hblind : ∀ kind, ∀ m ∈ set.movements kind, m.isAttack → m.readsLog = false)
    (hstart : start set layout config = .ok g₀) (hrun : g₀.run ops = .ok g)
    (hupdate : g.update a = .ok (.ok status, h)) : h.inCheck g.turn = false := by
  have h₀ := opening_of_regular hset hstart
  have hreached := h₀.reached_of_run hrun
  have hpieces : h.pieceSet = set :=
    ((hreached.update h₀ hupdate).line.fixed h₀).1.trans (of_start hset hstart).1
  rw [Bool.eq_false_iff]
  intro hcheck
  obtain ⟨p, -, id, q, -, -, -, m, hm, hlog, hmem⟩ :=
    ((hreached.kept h₀).inCheck_iff_threatensByLog hupdate).1 hcheck
  rw [hpieces] at hm
  rw [hblind q.kind m hm ((Movement.mem_candidates.1 hmem).1 rfl)] at hlog
  cases hlog

/-- The first move of a rook is accepted, and with it in the log the king of the rook is in check
from a wary piece that did not threaten it before. -/
theorem inCheck_mover_wary : ∃ g₀ g status h,
    PieceSet.orthodox.register "wary" wary = .ok warySet ∧
      start warySet "w wKa1 wRa2* b~wary~b1 bKc3".toList smallConfig = .ok g₀ ∧
      g₀.run [] = .ok g ∧ g.turn = .white ∧ g.inCheck .white = false ∧
      g.update ⟨.white, .ofCoords 0 1, .ofCoords 1 1⟩ = .ok (.ok status, h) ∧
      h.inCheck .white := by
  have hregister : PieceSet.orthodox.register "wary" wary = .ok warySet := by decide +kernel
  obtain ⟨g₀, g, status, h, hstart, hrun, hupdate, htest⟩ :=
    exists_accepted warySet "w wKa1 wRa2* b~wary~b1 bKc3".toList smallConfig []
      ⟨.white, .ofCoords 0 1, .ofCoords 1 1⟩
      (fun _ g _ h => g.turn = .white && !g.inCheck .white && h.inCheck .white) (by decide +kernel)
  rw [Bool.and_eq_true, Bool.and_eq_true, decide_eq_true_eq, Bool.not_eq_true'] at htest
  obtain ⟨⟨hturn, hcalm⟩, hcheck⟩ := htest
  exact ⟨g₀, g, status, h, hregister, hstart, hrun, hturn, hcalm, hupdate, hcheck⟩

end Game

end VariantChess
