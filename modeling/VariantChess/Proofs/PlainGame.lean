import VariantChess.Proofs.Opening
import VariantChess.Proofs.PlainPlan

/-!
# Games of plain pieces

The threats of plain pieces change only with the board, and a planned ply of a plain game can always
be played. A plain game is crowned when the table of its kings names every king of the roster and
nothing else. A ply then touches a king only by moving it or by taking it, and accepted actions keep
a game crowned, since no piece becomes a king and no king becomes anything else.
-/

namespace VariantChess

namespace Game

variable {g h g₀ : Game} {c d : Colour} {ply : Ply} {b : Board} {status : Status}
  {id king : PieceId} {q : Piece}

/-- A king is in check when a piece of the other side on the board threatens the point on which the
king is recorded. -/
theorem Fresh.inCheck_iff (hg : g.Fresh) {p : Point} (hking : g.king? c = some p) :
    g.inCheck c ↔ ∃ id, g.board.owns c.other id ∧ g.board.has id ∧ p ∈ g.reach id := by
  rw [inCheck, hking, Option.any_some, (hg.coherent _).threatens_iff]
  exact exists_congr fun id => hg.mem_threatsAt_iff

/-- No piece of a plain game is volatile. -/
theorem Plain.volatilePieces_eq_nil (hg : g.Plain) : g.volatilePieces = [] := by
  refine List.filter_eq_nil_iff.2 fun id _ hvolatile => ?_
  rw [hasVolatile, List.any_eq_true] at hvolatile
  obtain ⟨m, hm, hv⟩ := hvolatile
  rw [(hg.direct hm).1] at hv
  cases hv

/-- The threat maps of a plain game are determined by the board, whatever the latest ply is. -/
theorem Kept.threats_eq_of_plain (hg : g.Kept) (hh : h.Fresh) (hplain : g.Plain)
    (hboard : h.board = g.board) (hset : h.pieceSet = g.pieceSet) : h.threats = g.threats := by
  have hsteady : Steady { h with threats := g.threats } :=
    hg.fresh.steady.of_same hg.regular hboard hset rfl
  have hnone : volatilePieces { h with threats := g.threats } = [] :=
    Plain.volatilePieces_eq_nil (g := { h with threats := g.threats }) (hplain.of_same hboard hset)
  have hfresh : Fresh { h with threats := g.threats } := by
    refine ⟨hsteady.coherent, fun c id => hsteady.reach_eq c id fun hid => ?_⟩
    rw [hnone] at hid
    cases hid
  exact hfresh.threats_eq hh rfl rfl rfl

/-- A step leaves a plain game plain, since it promotes to a chessman if at all. -/
theorem Plain.of_step (hg : g.Plain) (hstep : ply.Step g.board b) (hboard : h.board = b)
    (hset : h.pieceSet = g.pieceSet) : h.Plain := by
  intro id q' code hq' hcode
  rw [hboard] at hq'
  rw [hset]
  obtain ⟨q, hq, hkind | ⟨source, hpromote, -⟩⟩ := hstep.kind_eq hq'
  · rw [hkind] at hcode ⊢
    exact hg id q code hq hcode
  · obtain ⟨chessman, hchessman⟩ := hstep.records.promotion _ _ hpromote
    rw [hchessman] at hcode
    cases hcode

/-- The pieces on the board of a plain game plan plies that can be played only. -/
theorem Plain.playable (hg : g.Plain) (hk : g.Kept) : g.Playable := by
  intro id hid target ply hplan
  obtain ⟨q, hq, hsource⟩ := source_of_plan? hplan
  have hon := hk.sound.on?_point hid hq
  exact hg.exists_step hk.sound hplan (hsource ▸ hon)

/-- A ply that is planned for a piece of a colour that stands on the board. -/
structure Planned (g : Game) (c : Colour) (ply : Ply) : Prop where
  plan : g.plan? ply.piece ply.target = some ply
  owns : g.board.owns c ply.piece
  stands : g.board.on? ply.source = some ply.piece

/-- A legal ply is planned for its colour. -/
theorem Kept.planned_of_mem_legal (hk : g.Kept) (hply : ply ∈ g.legal c) : g.Planned c ply := by
  obtain ⟨hon, howns, -, hplan, -⟩ := hk.of_mem_legal hply
  exact ⟨hplan, howns, hon⟩

/-- A vetted ply is planned for the side to move. -/
theorem Kept.planned_of_vet (hk : g.Kept) {a : Action} (hvet : g.vet a = .ok ply) :
    g.Planned g.turn ply := by
  obtain ⟨-, rfl⟩ := hk.of_vet hvet
  obtain ⟨-, -, -, -, id, hon, howns, hplan⟩ := vet_eq_ok_iff.1 hvet
  obtain rfl := piece_of_plan? hplan
  exact ⟨hplan, howns, hon⟩

/-- A planned ply that can be played is safe when it leaves no check on the king of its colour. -/
theorem Planned.isSafe_eq (hply : g.Planned c ply) (hstep : ply.Step g.board b) :
    g.isSafe ply = !(g.after ply b).inCheck c := by
  obtain ⟨q, hq, hcolour⟩ := Board.owns_iff.1 hply.owns
  rw [isSafe_of_step hstep, hq, Option.map_some, Option.getD_some, hcolour]

/-- A plain game whose table of kings names every king of the roster and nothing else. -/
structure Crowned (g : Game) : Prop where
  plain : g.Plain
  king_of : ∀ id q, g.board.piece? id = some q → q.isKing → g.kings.get q.colour = some id
  king_is : ∀ c id, g.kings.get c = some id → ∃ q, g.board.piece? id = some q ∧ q.isKing ∧
    q.colour = c

namespace Crowned

/-- Being crowned depends on the position only. -/
theorem of_samePosition (hg : g.Crowned) (hp : g.SamePosition h) : h.Crowned where
  plain := hg.plain.of_same hp.board hp.pieceSet
  king_of := by
    rw [hp.board, hp.kings]
    exact hg.king_of
  king_is := by
    rw [hp.board, hp.kings]
    exact hg.king_is

/-- The point of a recorded king is known. -/
theorem king?_eq (hking : g.kings.get c = some king) (hq : g.board.piece? king = some q) :
    g.king? c = some q.point := by
  rw [king?, hking, Option.bind_some, hq, Option.map_some]

/-- A king that a ply moves, takes or changes is its mover, or it is the king of the other side and
the ply captures it. -/
theorem piece_or_captured (hg : g.Crowned) (hb : g.board.Sound) (hply : g.Planned c ply)
    (hking : g.kings.get d = some king) (hmem : king ∈ ply.pieces) :
    king = ply.piece ∨ d = c.other ∧ ply.captured = some king := by
  obtain ⟨k, hpiece, hkind, hcolour⟩ := hg.king_is d king hking
  have hking' : k.kind = .standard .king := of_decide_eq_true hkind
  obtain ⟨q, hq, hturn⟩ := Board.owns_iff.1 hply.owns
  rcases Ply.mem_pieces.1 hmem with hmover | hcaptured | heffect
  · exact .inl hmover
  · obtain ⟨r, hr, hhostile, -, -⟩ := captured_threatened hb hg.plain hply.plan hq hcaptured
    obtain rfl : k = r := Option.some.inj (hpiece.symm.trans hr)
    rw [hcolour, hturn] at hhostile
    exact .inr ⟨(c.eq_or_eq_other d).resolve_left hhostile, hcaptured⟩
  · rcases (plainEffect_of_plan? hb hg.plain hply.plan hq).of_mem_effectPieces heffect with
      hmover | ⟨r, hr, ⟨-, hother⟩ | ⟨hpawn, -⟩⟩
    · exact .inl hmover
    · obtain rfl : k = r := Option.some.inj (hpiece.symm.trans hr)
      exact absurd hking' hother
    · obtain rfl : k = r := Option.some.inj (hpiece.symm.trans hr)
      rw [hking'] at hpawn
      cases hpawn

/-- A ply of another piece leaves the king of its colour alone. -/
theorem not_mem_pieces (hg : g.Crowned) (hb : g.board.Sound) (hply : g.Planned c ply)
    (hking : g.kings.get c = some king) (hne : ply.piece ≠ king) : king ∉ ply.pieces := by
  intro hmem
  rcases hg.piece_or_captured hb hply hking hmem with hmover | ⟨hcolour, -⟩
  · exact hne hmover.symm
  · exact c.other_ne hcolour.symm

/-- A ply changes neither the colour of a piece nor whether it is a king. -/
theorem record_eq (hg : g.Crowned) (hb : g.board.Sound) (hply : g.Planned c ply)
    (hstep : ply.Step g.board b) {q' : Piece} (hq' : b.piece? id = some q') :
    ∃ q, g.board.piece? id = some q ∧ q'.isKing = q.isKing ∧ q'.colour = q.colour := by
  obtain ⟨q, hq, hkind⟩ := hstep.kind_eq hq'
  have hcolour : q'.colour = q.colour := by
    have hsame := hstep.agreeOff.colour id
    rw [hq, hq', Option.map_some, Option.map_some] at hsame
    exact Option.some.inj hsame
  refine ⟨q, hq, ?_, hcolour⟩
  rcases hkind with hkind | ⟨source, hpromote, rfl⟩
  · rw [Piece.isKing, Piece.isKing, hkind]
  · obtain ⟨hmover, hgoal⟩ := (plainEffect_of_plan? hb hg.plain hply.plan hq).of_promote hpromote
    rw [Piece.isKing, Piece.isKing, decide_eq_false hmover, decide_eq_false hgoal]

/-- A king is recorded as one after every ply. -/
theorem king_is_of_step (hg : g.Crowned) (hb : g.board.Sound) (hply : g.Planned c ply)
    (hstep : ply.Step g.board b) (hking : g.kings.get d = some king) :
    ∃ q, b.piece? king = some q ∧ q.isKing ∧ q.colour = d := by
  obtain ⟨k, hpiece, hkind, hcolour⟩ := hg.king_is d king hking
  have hsome : (b.piece? king).isSome := by
    have hsame := hstep.agreeOff.colour king
    rw [hpiece, Option.map_some] at hsame
    rw [← Option.isSome_map, hsame]
    rfl
  obtain ⟨q, hq⟩ := Option.isSome_iff_exists.1 hsome
  obtain ⟨k', hpiece', hkind', hcolour'⟩ := hg.record_eq hb hply hstep hq
  obtain rfl : k = k' := Option.some.inj (hpiece.symm.trans hpiece')
  exact ⟨q, hq, hkind'.trans hkind, hcolour'.trans hcolour⟩

/-- An accepted action keeps a game crowned. -/
theorem of_follows (hg : g.Crowned) (hb : g.board.Sound) (hply : g.Planned c ply)
    (hf : g.Follows ply status h) : h.Crowned where
  plain := hg.plain.of_step hf.step rfl hf.pieceSet
  king_of := by
    intro id q' hq' hking
    obtain ⟨q, hq, hkind, hcolour⟩ := hg.record_eq hb hply hf.step hq'
    rw [hf.kings, hcolour]
    exact hg.king_of id q hq (hkind ▸ hking)
  king_is := by
    intro d king hking
    rw [hf.kings] at hking
    exact hg.king_is_of_step hb hply hf.step hking

/-- Every game at the end of a line from a crowned opening is crowned. -/
theorem of_line (h₀ : g₀.Opening) (hg₀ : g₀.Crowned) {log : List LogEntry}
    (hl : Line g₀ log g) : g.Crowned := by
  induction log generalizing g with
  | nil =>
    cases hl
    exact hg₀
  | cons e rest ih =>
    obtain ⟨g', hl', hk, hvet, -, hf, -⟩ := hl.cases_next h₀
    exact (ih hl').of_follows hk.sound (hk.planned_of_vet hvet) hf

end Crowned

/-- Every game on a line from a crowned opening is crowned. -/
theorem Reached.crowned (h₀ : g₀.Opening) (hg₀ : g₀.Crowned) (hg : Reached g₀ g) : g.Crowned :=
  (Crowned.of_line h₀ hg₀ hg.line).of_samePosition (samePosition_onRecord g).symm

/-- The table of kings names the only king of a colour. -/
theorem findKing_eq_some_iff (hb : b.Sound) (hfull : b.Full) (hsingle : b.SingleKings) :
    findKing b c = some id ↔ ∃ q, b.piece? id = some q ∧ q.isKing ∧ q.colour = c := by
  rw [findKing]
  generalize htest : (fun i => (b.piece? i).any fun p => p.isKing && p.colour = c) = test
  have hpasses : ∀ i, test i ↔ ∃ q, b.piece? i = some q ∧ q.isKing ∧ q.colour = c := by
    intro i
    rw [← htest]
    simp [Option.any_eq_true]
  constructor
  · intro h
    exact (hpasses id).1 (List.find?_some h)
  · rintro ⟨q, hq, hking, hcolour⟩
    have hids : id ∈ b.ids := hb.mem_ids.2 (hb.has_iff.2 ⟨_, hfull id q hq⟩)
    obtain ⟨i, hi⟩ := Option.isSome_iff_exists.1
      (List.find?_isSome.2 ⟨id, hids, (hpasses id).2 ⟨q, hq, hking, hcolour⟩⟩)
    obtain ⟨r, hr, hking', hcolour'⟩ := (hpasses i).1 (List.find?_some hi)
    rw [hi, hsingle i id r q hr hq hking' hking (hcolour'.trans hcolour.symm)]

/-- A plain game on the board of a layout is crowned by the kings that are found on it. -/
theorem crowned_of_read {set : PieceSet} {bounds : Bounds} {layout : List Char} {turn : Colour}
    (hread : Board.read set bounds layout = .ok (g.board, turn)) (hplain : g.Plain)
    (hkings : g.kings = ⟨findKing g.board .white, findKing g.board .black⟩) : g.Crowned := by
  obtain ⟨hsound, hfull, hsingle⟩ := Board.of_read hread
  have hnamed : ∀ c id, g.kings.get c = some id ↔
      ∃ q, g.board.piece? id = some q ∧ q.isKing ∧ q.colour = c := by
    intro c id
    rw [hkings, get_findKing, findKing_eq_some_iff hsound hfull hsingle]
  exact ⟨hplain, fun id q hq hking => (hnamed q.colour id).2 ⟨q, hq, hking, rfl⟩,
    fun c id => (hnamed c id).1⟩

end Game

end VariantChess
