import VariantChess.Game.Update
import VariantChess.Proofs.Trial

/-!
# What a position decides

Two games are in the same position when they agree on everything but the log, the status and the
status at the start, and have the same latest ply. Plans, legal plies, checks and verdicts are the
same in both; so of the log only the latest ply matters, and the redo stack does not matter at all.
-/

namespace VariantChess

namespace Game

attribute [ext] Game

/-- Two games that differ at most in the statuses and in the log below the latest ply. -/
structure SamePosition (g h : Game) : Prop where
  board : h.board = g.board
  pieceSet : h.pieceSet = g.pieceSet
  threats : h.threats = g.threats
  kings : h.kings = g.kings
  turn : h.turn = g.turn
  config : h.config = g.config
  lastPly : h.lastPly = g.lastPly

namespace SamePosition

variable {g h : Game} {ply : Ply} {b : Board} {id : PieceId} {target : Point}

theorem refl (g : Game) : g.SamePosition g := ⟨rfl, rfl, rfl, rfl, rfl, rfl, rfl⟩

theorem symm (hp : g.SamePosition h) : h.SamePosition g :=
  ⟨hp.board.symm, hp.pieceSet.symm, hp.threats.symm, hp.kings.symm, hp.turn.symm, hp.config.symm,
    hp.lastPly.symm⟩

/-- Pieces move by the same movements. -/
theorem movementsOf_eq (hp : g.SamePosition h) (id : PieceId) :
    h.movementsOf id = g.movementsOf id :=
  movementsOf_eq_of_same hp.board hp.pieceSet id

/-- Pieces are in the same situations. -/
theorem situation?_eq (hp : g.SamePosition h) (id : PieceId) :
    h.situation? id = g.situation? id := by
  rw [situation?, situation?, hp.board, hp.lastPly, hp.threats]

/-- Pieces have the same destinations. -/
theorem destinations_eq (hp : g.SamePosition h) (id : PieceId) :
    h.destinations id = g.destinations id := by
  rw [destinations, destinations, hp.situation?_eq, hp.movementsOf_eq]

/-- Follow-ups come to the same side effects. -/
theorem sideEffect?_eq (hp : g.SamePosition h) (s : Situation) (target : Point) (f : FollowUp) :
    h.sideEffect? s target f = g.sideEffect? s target f := by
  unfold sideEffect?
  rw [hp.board]

/-- Plans are the same. -/
theorem plan?_eq (hp : g.SamePosition h) (id : PieceId) (target : Point) :
    h.plan? id target = g.plan? id target := by
  have hmake : ∀ s owner, h.planBy? s owner target = g.planBy? s owner target := by
    intro s owner
    funext m
    rw [planBy?, planBy?, hp.board]
    simp only [hp.sideEffect?_eq]
  rw [plan?, plan?, hp.board, hp.situation?_eq, hp.movementsOf_eq]
  simp only [hmake]

/-- A kept game stays kept in the same position. -/
theorem kept (hp : g.SamePosition h) (hk : g.Kept) : h.Kept :=
  hk.of_same hp.board hp.pieceSet hp.threats hp.lastPly

/-- The same kings are in check. -/
theorem inCheck_eq (hp : g.SamePosition h) (c : Colour) : h.inCheck c = g.inCheck c := by
  rw [inCheck, inCheck, king?, king?, hp.board, hp.kings, hp.threats]

/-- Refreshing keeps two games in the same position. -/
theorem refresh (hp : g.SamePosition h) (ids : List PieceId) :
    (g.refresh ids).SamePosition (h.refresh ids) := by
  induction ids generalizing g h with
  | nil => exact hp
  | cons id rest ih =>
    refine ih ?_
    rw [refreshPiece_eq g, refreshPiece_eq h]
    refine ⟨hp.board, hp.pieceSet, ?_, hp.kings, hp.turn, hp.config, hp.lastPly⟩
    change (h.refreshPiece id).threats = (g.refreshPiece id).threats
    rw [refreshPiece, refreshPiece, hp.board, reach_eq_of_same hp.board hp.pieceSet hp.lastPly]
    split
    · exact hp.threats
    · simp only [hp.threats]

/-- Playing a ply keeps two games in the same position. -/
theorem after (hp : g.SamePosition h) (ply : Ply) (b : Board) :
    (g.after ply b).SamePosition (h.after ply b) := by
  have haffected : h.affected ply = g.affected ply := by
    rw [affected, affected, hp.threats, volatilePieces_eq_of_same hp.board hp.pieceSet]
  rw [Game.after, Game.after, haffected]
  refine SamePosition.refresh ?_ _
  exact ⟨rfl, hp.pieceSet, hp.threats, hp.kings, hp.turn, hp.config, hp.lastPly⟩

/-- The same plies are safe. -/
theorem isSafe_eq (hp : g.SamePosition h) (ply : Ply) : h.isSafe ply = g.isSafe ply := by
  rw [isSafe, isSafe, apply_eq_map, apply_eq_map, hp.board, hp.turn]
  cases ply.play g.board with
  | error fault => rfl
  | ok b => exact congrArg not ((hp.after ply b).inCheck_eq _)

/-- Pieces have the same legal plies. -/
theorem legalOf_eq (hp : g.SamePosition h) (id : PieceId) : h.legalOf id = g.legalOf id := by
  have hsafe : h.isSafe = g.isSafe := funext hp.isSafe_eq
  rw [legalOf, legalOf, legalTo, legalTo, hp.destinations_eq, hsafe]
  simp only [hp.plan?_eq]

/-- Both colours have the same legal plies. -/
theorem legal_eq (hp : g.SamePosition h) (c : Colour) : h.legal c = g.legal c := by
  rw [legal, legal, hp.board, funext hp.legalOf_eq]

/-- The same kings are mated. -/
theorem mated_eq (hp : g.SamePosition h) (c : Colour) : h.mated c = g.mated c := by
  have hking : h.king? c = g.king? c := by rw [king?, king?, hp.kings, hp.board]
  rw [mated, mated, hking, hp.kings, hp.threats, hp.board, funext hp.legalOf_eq]

/-- The verdict is the same. -/
theorem judged_eq (hp : g.SamePosition h) (mover : Colour) : h.judged mover = g.judged mover := by
  rw [judged, judged, bareKings, bareKings, hp.config, hp.board, hp.inCheck_eq, hp.mated_eq,
    hp.legal_eq]

/-- The same actions are vetted, if the games have the same status. -/
theorem vet_eq (hp : g.SamePosition h) (hstatus : h.status = g.status) (a : Action) :
    h.vet a = g.vet a := by
  rw [vet, vet, hstatus, hp.turn, hp.board]
  simp only [hp.plan?_eq]

end SamePosition

end Game

end VariantChess
