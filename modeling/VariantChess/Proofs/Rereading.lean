import VariantChess.Proofs.Reload

/-!
# Reading the text of a board back

A board writes the pieces that stand on it in point order and without a side to move. What a layout
is read to can be written and is read back: the same pieces stand on the same points, and the text
of the second board is that of the first. The pieces get their identities in the order in which a
layout lists them, so the second board is the first one exactly if the pieces of the layout came in
point order.
-/

namespace VariantChess

namespace Piece

/-- The pieces come in point order. -/
def Increasing (pieces : List Piece) : Prop :=
  pieces.Pairwise fun q r => compare q.point r.point = .lt

instance (pieces : List Piece) : Decidable (Increasing pieces) :=
  inferInstanceAs (Decidable (pieces.Pairwise fun q r => compare q.point r.point = .lt))

namespace Increasing

variable {pieces pieces' : List Piece}

/-- Pieces in point order are all different. -/
theorem nodup (h : Increasing pieces) : pieces.Nodup :=
  h.imp fun {q r} hlt (heq : q = r) => OrderedSet.irrefl r.point (heq ▸ hlt)

/-- The same pieces come in point order in one way only. -/
theorem eq_of_perm (h : Increasing pieces) (h' : Increasing pieces') (hperm : pieces.Perm pieces') :
    pieces = pieces' :=
  hperm.eq_of_pairwise (fun q r _ _ (hlt : compare q.point r.point = .lt) hgt =>
    absurd (Std.TransCmp.lt_trans hlt hgt) (OrderedSet.irrefl q.point)) h h'

end Increasing

end Piece

namespace Board

variable {b b' : Board} {set : PieceSet} {bounds : Bounds} {layout : List Char} {turn : Colour}

/-- A sound board lists its pieces in point order. -/
theorem Sound.increasing_pieces (hb : b.Sound) : Piece.Increasing b.pieces := by
  rw [Piece.Increasing, pieces, ids, Plane.values, List.filterMap_filterMap,
    List.pairwise_filterMap]
  refine b.bounds.increasing_points.imp fun {p p'} hlt q hq r hr => ?_
  obtain ⟨id, hid, hpiece⟩ := Option.bind_eq_some_iff.1 hq
  obtain ⟨id', hid', hpiece'⟩ := Option.bind_eq_some_iff.1 hr
  rwa [hb.point_eq hid hpiece, hb.point_eq hid' hpiece']

/-- The pieces on a board that is read from a layout are those of its roster, in point order. -/
theorem perm_pieces_of_read (h : Board.read set bounds layout = .ok (b, turn)) :
    b.roster.toList.Perm b.pieces := by
  obtain ⟨hsound, hfull, -⟩ := of_read h
  obtain ⟨-, -, hcompatible⟩ := exists_read_iff.1 ⟨b, h, rfl⟩
  have hroster : b.roster.toList.Nodup := hcompatible.imp fun {q r} hqr (heq : q = r) =>
    hqr.1 (congrArg Piece.point heq)
  exact (List.perm_ext_iff_of_nodup hroster hsound.increasing_pieces.nodup).2 fun _ =>
    hfull.mem_pieces_iff.symm

/-- The roster of a board that is read from a layout lists the pieces on the board in their order
exactly if its pieces come in point order. -/
theorem roster_eq_pieces_iff (h : Board.read set bounds layout = .ok (b, turn)) :
    b.roster.toList = b.pieces ↔ Piece.Increasing b.roster.toList := by
  have hpieces := (of_read h).1.increasing_pieces
  constructor
  · intro heq
    rwa [heq]
  · exact fun hroster => hroster.eq_of_perm hpieces (perm_pieces_of_read h)

/-- Boards that are read from layouts within the same bounds are equal if their rosters are. -/
theorem eq_of_roster {layout' : List Char} {turn' : Colour}
    (h : Board.read set bounds layout = .ok (b, turn))
    (h' : Board.read set bounds layout' = .ok (b', turn'))
    (hroster : b'.roster.toList = b.roster.toList) : b' = b := by
  obtain ⟨hsound, hfull, -⟩ := of_read h
  obtain ⟨hsound', hfull', -⟩ := of_read h'
  have hpiece (i : PieceId) : b'.piece? i = b.piece? i := by
    rw [piece?, piece?, Array.toList_inj.1 hroster]
  refine ext_view ((bounds_of_read h').trans (bounds_of_read h).symm) (fun p => ?_) hpiece
  refine Option.ext fun i => ?_
  rw [on?_eq_some_iff hsound' hfull', on?_eq_some_iff hsound hfull, hpiece]

/-- The text of a board that is read from a layout is read to a board whose roster lists the pieces
that stand on the first one. -/
theorem exists_reread (h : Board.read set bounds layout = .ok (b, turn)) :
    ∃ b', Board.read set bounds b.text = .ok (b', .white) ∧ b'.roster.toList = b.pieces := by
  obtain ⟨hsound, -, -⟩ := of_read h
  obtain ⟨hlists, -, hcompatible⟩ := exists_read_iff.1 ⟨b, h, rfl⟩
  have hperm := perm_pieces_of_read h
  have hwritable := hsound.writable_pieces fun q hq => hlists.written (hperm.mem_iff.2 hq)
  refine exists_read_iff.2 ⟨lists_intercalate_white hwritable, fun q hq => ?_,
    (hperm.pairwise_iff Piece.Compatible.symm).1 hcompatible⟩
  rw [← bounds_of_read h]
  exact hsound.contains_of_mem_pieces hq

/-- The text of a board that is read from a layout, with any piece set and within any bounds, is
read with the same piece set and bounds to a board with the same pieces and marks on all points,
which writes the same text again. It is the same board, with the same identities, exactly if the
layout lists its pieces in point order. -/
theorem reread_of_read (h : Board.read set bounds layout = .ok (b, turn)) :
    ∃ b' pieces, Board.read set bounds b.text = .ok (b', .white) ∧
      (∀ p, b'.pieceAt? p = b.pieceAt? p) ∧ b'.text = b.text ∧
      Lists set layout turn pieces ∧ (b' = b ↔ Piece.Increasing pieces) := by
  obtain ⟨hsound, -, -⟩ := of_read h
  obtain ⟨hlists, -, -⟩ := exists_read_iff.1 ⟨b, h, rfl⟩
  obtain ⟨b', hread, hroster⟩ := exists_reread h
  obtain ⟨hsound', hfull', -⟩ := of_read hread
  have hpieces : b'.pieces = b.pieces := by
    rw [← hroster, eq_comm, roster_eq_pieces_iff hread, hroster]
    exact hsound.increasing_pieces
  refine ⟨b', b.roster.toList, hread, pieceAt?_eq_of_roster hsound hsound' hfull' hroster,
    by rw [text, text, hpieces], hlists, ?_⟩
  rw [← roster_eq_pieces_iff h, ← hroster, eq_comm (a := b.roster.toList)]
  exact ⟨fun heq => by rw [heq], eq_of_roster h hread⟩

/-- A layout that lists the black king first is read to a board on which that king has the first
identity; the text of the board lists it last. -/
theorem reread_of_read_drover : ∃ b b',
    Board.read Game.droverSet Game.smallConfig.bounds "b bKc3* w~drover~a01 wKb1".toList =
        .ok (b, .black) ∧
      b.text = "w~drover~a1 wKb1 bKc3*".toList ∧
      Board.read Game.droverSet Game.smallConfig.bounds b.text = .ok (b', .white) ∧
      (∀ p, b'.pieceAt? p = b.pieceAt? p) ∧ b'.text = b.text ∧ b' ≠ b := by
  obtain ⟨b, hread, htext, hfirst⟩ : ∃ b,
      Board.read Game.droverSet Game.smallConfig.bounds "b bKc3* w~drover~a01 wKb1".toList =
          .ok (b, .black) ∧
        b.text = "w~drover~a1 wKb1 bKc3*".toList ∧ ¬Piece.Increasing b.roster.toList := by
    have htest : (Board.read Game.droverSet Game.smallConfig.bounds
        "b bKc3* w~drover~a01 wKb1".toList).toOption.any (fun r => r.2 = .black ∧
          r.1.text = "w~drover~a1 wKb1 bKc3*".toList ∧ ¬Piece.Increasing r.1.roster.toList) := by
      decide +kernel
    rw [Option.any_eq_true] at htest
    obtain ⟨⟨b, turn⟩, hread, htest⟩ := htest
    obtain ⟨rfl, htext, hfirst⟩ := of_decide_eq_true htest
    exact ⟨b, Game.toOption_eq_some_iff.1 hread, htext, hfirst⟩
  obtain ⟨b', pieces, hread', hpieces, htext', hlists, hiff⟩ := reread_of_read hread
  obtain ⟨hlists', -, -⟩ := exists_read_iff.1 ⟨b, hread, rfl⟩
  obtain ⟨-, rfl⟩ := hlists.unique hlists'
  exact ⟨b, b', hread, htext, hread', hpieces, htext', fun heq => hfirst (hiff.1 heq)⟩

end Board

end VariantChess
