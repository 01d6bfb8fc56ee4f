import VariantChess.Proofs.PlainGame

/-!
# Games of chessmen

A game of chessmen is standard when the table of its kings names every king of the roster, the named
kings stand on the board, and the side that is not to move is not in check. No king of a standard
game is ever taken, so accepted actions keep it standard, and with them all lines of play from an
opening do.
-/

namespace VariantChess

namespace Game

variable {g h g₀ : Game} {c : Colour} {ply : Ply} {b : Board} {status : Status}
  {id king : PieceId}

/-- All chessmen move by regular movements. -/
theorem regular_of_standard (hstd : g.board.Standard) : g.Regular := by
  intro id m hm
  cases hq : g.board.piece? id with
  | none =>
    rw [movementsOf, hq] at hm
    cases hm
  | some q =>
    obtain ⟨chessman, hkind⟩ := hstd id q hq
    rw [movementsOf_eq_of_piece? hq, hkind] at hm
    exact Chessman.regular_of_mem_movements hm

/-- A step leaves a board with chessmen only, since it promotes to a chessman if at all. -/
theorem standard_of_step {b' : Board} (hstd : b.Standard) (hstep : ply.Step b b') :
    b'.Standard := by
  intro id q' hq'
  obtain ⟨q, hq, hkind | ⟨source, hpromote, -⟩⟩ := hstep.kind_eq hq'
  · rw [hkind]
    exact hstd id q hq
  · exact hstep.records.promotion _ _ hpromote

/-- A line from a board of chessmen leads to boards of chessmen. -/
theorem kinds_of_line (h₀ : g₀.Opening) (hkinds : g₀.board.Standard) {log : List LogEntry}
    (hl : Line g₀ log g) : g.board.Standard := by
  induction log generalizing g with
  | nil => exact hl.eq_start ▸ hkinds
  | cons e rest ih =>
    obtain ⟨g', hl', -, -, -, hf, -⟩ := hl.cases_next h₀
    exact standard_of_step (ih hl') hf.step

/-- A game of chessmen whose kings are named by its table and stand on the board, in which the side
that is not to move is not in check. -/
structure Standard (g : Game) : Prop where
  kinds : g.board.Standard
  king_of : ∀ id q, g.board.piece? id = some q → q.isKing → g.kings.get q.colour = some id
  king_stands : ∀ c id, g.kings.get c = some id → ∃ q, g.board.piece? id = some q ∧ q.isKing ∧
    q.colour = c ∧ g.board.on? q.point = some id
  unchecked : g.inCheck g.turn.other = false

namespace Standard

/-- A standard game is crowned. -/
theorem crowned (hg : g.Standard) : g.Crowned where
  plain := plain_of_standard hg.kinds
  king_of := hg.king_of
  king_is := by
    intro c id hking
    obtain ⟨q, hq, hkind, hcolour, -⟩ := hg.king_stands c id hking
    exact ⟨q, hq, hkind, hcolour⟩

/-- Being standard depends on the position only. -/
theorem of_samePosition (hg : g.Standard) (hp : g.SamePosition h) : h.Standard where
  kinds := hp.board ▸ hg.kinds
  king_of := (hg.crowned.of_samePosition hp).king_of
  king_stands := by
    rw [hp.board, hp.kings]
    exact hg.king_stands
  unchecked := by
    rw [hp.turn, hp.inCheck_eq]
    exact hg.unchecked

/-- No ply takes or relocates a king. -/
theorem eq_piece_of_king (hg : g.Standard) (hk : g.Kept) (hply : g.Planned g.turn ply)
    (hking : g.kings.get c = some king) (hmem : king ∈ ply.pieces) : king = ply.piece := by
  rcases hg.crowned.piece_or_captured hk.sound hply hking hmem with hmover | ⟨hother, hcaptured⟩
  · exact hmover
  · -- a king that could be taken would be in check
    obtain ⟨k, hpiece, -, -, -⟩ := hg.king_stands c king hking
    obtain ⟨q, hq, -⟩ := Board.owns_iff.1 hply.owns
    obtain ⟨r, hr, -, hpoint, hreach⟩ :=
      captured_threatened hk.sound hg.crowned.plain hply.plan hq hcaptured
    obtain rfl : k = r := Option.some.inj (hpiece.symm.trans hr)
    have hhas : g.board.has ply.piece := hk.sound.has_iff.2 ⟨_, hply.stands⟩
    have hcheck : g.inCheck c := by
      refine (hk.fresh.inCheck_iff (Crowned.king?_eq hking hpiece)).2 ⟨ply.piece, ?_, hhas, ?_⟩
      · rw [hother, Colour.other_other]
        exact hply.owns
      · exact hpoint.symm ▸ hreach
    rw [hother, hg.unchecked] at hcheck
    cases hcheck

/-- A king that stands on the board does so after every ply of the side to move. -/
theorem king_stands_of_step (hg : g.Standard) (hk : g.Kept) (hply : g.Planned g.turn ply)
    (hstep : ply.Step g.board b) (hking : g.kings.get c = some king) :
    ∃ q, b.piece? king = some q ∧ q.isKing ∧ q.colour = c ∧ b.on? q.point = some king := by
  obtain ⟨q, hq, hkind, hcolour⟩ := hg.crowned.king_is_of_step hk.sound hply hstep hking
  refine ⟨q, hq, hkind, hcolour, ?_⟩
  by_cases hmem : king ∈ ply.pieces
  · obtain rfl := hg.eq_piece_of_king hk hply hking hmem
    rw [(hstep.sound hk.sound).point_eq hstep.on?_target hq]
    exact hstep.on?_target
  · obtain ⟨k, hpiece, -, -, hon⟩ := hg.king_stands c king hking
    rw [hstep.agreeOff.record king hmem, hpiece] at hq
    obtain rfl := Option.some.inj hq
    exact (hstep.agreeOff.stands king hmem _).2 hon

/-- A king of a standard game is on the board. -/
theorem king_mem_ids (hg : g.Standard) (hk : g.Kept)
    (hking : g.kings.get c = some king) : king ∈ g.board.ids := by
  obtain ⟨q, -, -, -, hon⟩ := hg.king_stands c king hking
  exact hk.sound.mem_ids.2 (hk.sound.has_iff.2 ⟨_, hon⟩)

/-- An accepted action keeps a game standard. -/
theorem of_follows (hg : g.Standard) (hk : g.Kept) (hply : g.Planned g.turn ply)
    (hsafe : g.isSafe ply) (hf : g.Follows ply status h) : h.Standard where
  kinds := standard_of_step hg.kinds hf.step
  king_of := (hg.crowned.of_follows hk.sound hply hf).king_of
  king_stands := by
    intro c id hking
    rw [hf.kings] at hking
    exact hg.king_stands_of_step hk hply hf.step hking
  unchecked := by
    have hplain : (g.after ply h.board).Plain :=
      hg.crowned.plain.of_step hf.step (board_after g ply h.board) (pieceSet_after g ply h.board)
    have hthreats : h.threats = (g.after ply h.board).threats := by
      apply (hk.after hf.step).threats_eq_of_plain hf.kept.fresh hplain
      · rw [board_after]
      · rw [pieceSet_after, hf.pieceSet]
    have hcheck : h.inCheck g.turn = (g.after ply h.board).inCheck g.turn := by
      rw [inCheck, inCheck, king?, king?, hthreats, hf.kings, kings_after, board_after]
    rw [hply.isSafe_eq hf.step, Bool.not_eq_true'] at hsafe
    rw [hf.turn, Colour.other_other, hcheck, hsafe]

/-- Every game at the end of a line from a standard opening is standard. -/
theorem of_line (h₀ : g₀.Opening) (hg₀ : g₀.Standard) {log : List LogEntry}
    (hl : Line g₀ log g) : g.Standard := by
  induction log generalizing g with
  | nil =>
    cases hl
    exact hg₀
  | cons e rest ih =>
    obtain ⟨g', hl', hk, hvet, hsafe, hf, -⟩ := hl.cases_next h₀
    exact (ih hl').of_follows hk (hk.planned_of_vet hvet) hsafe hf

end Standard

/-- A board that is read with the orthodox piece set holds chessmen only. -/
theorem standard_of_read {bounds : Bounds} {layout : List Char} {board : Board} {turn : Colour}
    (h : Board.read .orthodox bounds layout = .ok (board, turn)) : board.Standard := by
  intro id q hq
  have hknows := Board.knows_of_read h hq
  cases hkind : q.kind with
  | standard m => exact ⟨m, rfl⟩
  | custom code =>
    rw [hkind] at hknows
    cases hknows

/-- A game that is set up on a board of chessmen has regular pieces. -/
theorem regular_setUp (set : PieceSet) (config : GameConfig) {board : Board} (turn : Colour)
    (hkinds : board.Standard) : (setUp set config board turn).Regular := by
  refine regular_of_standard ?_
  rw [board_setUp]
  exact hkinds

/-- A game of chessmen that is set up with the side that is not to move out of check is standard. -/
theorem standard_setUp {set : PieceSet} {layout : List Char} {config : GameConfig} {board : Board}
    {turn : Colour} (hread : Board.read set config.bounds layout = .ok (board, turn))
    (hkinds : board.Standard) (hcalm : (setUp set config board turn).inCheck turn.other = false) :
    (setUp set config board turn).Standard := by
  obtain ⟨threats, hframe⟩ := setUp_eq set config board turn
  have hboard : (setUp set config board turn).board = board := board_setUp
  have hkings : (setUp set config board turn).kings =
      ⟨findKing board .white, findKing board .black⟩ := by rw [hframe]
  have hturn : (setUp set config board turn).turn = turn := turn_setUp
  have hcrowned : (setUp set config board turn).Crowned := by
    apply crowned_of_read
    · rw [hboard]
      exact hread
    · apply plain_of_standard
      rw [hboard]
      exact hkinds
    · rw [hkings, hboard]
  refine ⟨hboard.symm ▸ hkinds, hcrowned.king_of, fun c id hking => ?_, hturn.symm ▸ hcalm⟩
  obtain ⟨q, hq, hkind, hcolour⟩ := hcrowned.king_is c id hking
  rw [hboard] at hq ⊢
  exact ⟨q, hq, hkind, hcolour, (Board.of_read hread).2.1 id q hq⟩

/-- A game is started in the position that is set up. -/
theorem samePosition_of_start {set : PieceSet} {layout : List Char} {config : GameConfig}
    {board : Board} {turn : Colour} (hstart : start set layout config = .ok g₀)
    (hread : Board.read set config.bounds layout = .ok (board, turn))
    (hreg : (setUp set config board turn).Regular) :
    (setUp set config board turn).SamePosition g₀ := by
  obtain ⟨board', turn', hread', hrest⟩ := start_eq_ok hstart
  obtain ⟨rfl, rfl⟩ := Prod.mk.inj (Except.ok.inj (hread.symm.trans hread'))
  obtain ⟨status, rfl, -⟩ := hrest hreg
  exact ⟨rfl, rfl, rfl, rfl, rfl, rfl, rfl⟩

/-- A game of chessmen that is started with the side that is not to move out of check is
standard. -/
theorem standard_of_start {set : PieceSet} {layout : List Char} {config : GameConfig}
    {board : Board} {turn : Colour} (hstart : start set layout config = .ok g₀)
    (hread : Board.read set config.bounds layout = .ok (board, turn)) (hkinds : board.Standard)
    (hcalm : g₀.inCheck g₀.turn.other = false) : g₀.Standard := by
  have hsame := samePosition_of_start hstart hread (regular_setUp set config turn hkinds)
  have hturn : g₀.turn = turn := hsame.turn.trans turn_setUp
  rw [hsame.inCheck_eq, hturn] at hcalm
  exact (standard_setUp hread hkinds hcalm).of_samePosition hsame

/-- On a board of chessmen the legal plies of both colours are found without a fault. -/
theorem Kept.legalPlies_of_standard (hk : g.Kept) (hstd : g.board.Standard) (c : Colour) :
    g.legalPlies c = .ok (g.legal c, g) :=
  hk.legalPlies_of_playable ((plain_of_standard hstd).playable hk) c

end Game

end VariantChess
