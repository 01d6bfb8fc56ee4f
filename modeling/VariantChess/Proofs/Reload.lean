import VariantChess.Proofs.KingTable
import VariantChess.Proofs.Progress
import VariantChess.Proofs.TokenOrder

/-!
# Reading the layout of a game back

The layout of a game lists the pieces that stand on its board. The board that is read from it has
the same pieces on the same points, under other identities and without the pieces that were taken.
Chessmen threaten what they do by where they and others stand, whoever they are and whatever came
before, so a game of chessmen that is started from its own layout looks the same as the game itself:
it has the same kings, the same pieces threaten the same points, and the side that has just played
is not in check, which is why the layout is accepted at all.
-/

namespace VariantChess

namespace Board

variable {b b' : Board} {set : PieceSet}

/-- On a sound board a piece stands on a point if it is one of the pieces on the board and is
recorded there. -/
theorem Sound.pieceAt?_eq_some_iff (hb : b.Sound) {p : Point} {q : Piece} :
    b.pieceAt? p = some q ↔ q ∈ b.pieces ∧ q.point = p := by
  rw [pieceAt?, Option.bind_eq_some_iff, pieces, List.mem_filterMap]
  constructor
  · rintro ⟨id, hon, hq⟩
    exact ⟨⟨id, Plane.mem_values.2 ⟨p, hon⟩, hq⟩, hb.point_eq hon hq⟩
  · rintro ⟨⟨id, hid, hq⟩, rfl⟩
    exact ⟨id, hb.on?_point hid hq, hq⟩

/-- A board whose roster lists the pieces that stand on another one has the same pieces on all
points. -/
theorem pieceAt?_eq_of_roster (hb : b.Sound) (hb' : b'.Sound) (hfull : b'.Full)
    (hroster : b'.roster.toList = b.pieces) (p : Point) : b'.pieceAt? p = b.pieceAt? p := by
  refine Option.ext fun q => ?_
  rw [hb'.pieceAt?_eq_some_iff, hfull.mem_pieces_iff, hroster, hb.pieceAt?_eq_some_iff]

/-- Any two pieces on a sound board are compatible if a table names its kings. -/
theorem pairwise_pieces (hb : b.Sound) {kings : Sides (Option PieceId)}
    (hkings : b.Enthrones kings) : b.pieces.Pairwise Piece.Compatible := by
  rw [pieces, List.pairwise_filterMap]
  refine hb.nodup_ids.imp_of_mem fun {i j} hi hj hne q hq r hr => ⟨fun hpoint => ?_, ?_⟩
  · have hon := hb.on?_point hj hr
    rw [← hpoint, hb.on?_point hi hq] at hon
    exact hne (Option.some.inj hon)
  · rintro ⟨hq', hr', hcolour⟩
    have hfirst := (hkings r.colour i).2 ⟨hb.mem_ids.1 hi, q, hq, hq', hcolour⟩
    have hsecond := (hkings r.colour j).2 ⟨hb.mem_ids.1 hj, r, hr, hr', rfl⟩
    exact hne (Option.some.inj (hfirst.symm.trans hsecond))

/-- The pieces on a sound board stand inside its bounds. -/
theorem Sound.contains_of_mem_pieces (hb : b.Sound) {q : Piece} (hq : q ∈ b.pieces) :
    b.bounds.contains q.point := by
  obtain ⟨id, hid, hpiece⟩ := List.mem_filterMap.1 hq
  exact contains_of_on? (hb.on?_point hid hpiece)

/-- The pieces on a sound board can be listed in a layout if they can be written and are known. -/
theorem Sound.writable_pieces (hb : b.Sound)
    (hknown : ∀ q ∈ b.pieces, q.kind.Written ∧ set.knows q.kind) : ∀ q ∈ b.pieces,
    q.kind.Written ∧ set.knows q.kind ∧ q.point.x.val < 26 ∧ q.point.y.val < 26 := by
  intro q hq
  obtain ⟨hwritten, hknows⟩ := hknown q hq
  obtain ⟨⟨-, hx⟩, -, hy⟩ := Bounds.contains_iff.1 (hb.contains_of_mem_pieces hq)
  exact ⟨hwritten, hknows, hx.trans_lt b.bounds.x_lt, hy.trans_lt b.bounds.y_lt⟩

/-- The layout of a sound board is read to a board whose roster lists the pieces that stand on the
first one, if they can be written and are known and if a table names the kings. -/
theorem exists_read_text (hb : b.Sound) {kings : Sides (Option PieceId)}
    (hkings : b.Enthrones kings) (hknown : ∀ q ∈ b.pieces, q.kind.Written ∧ set.knows q.kind)
    (turn : Colour) : ∃ b', Board.read set b.bounds (turn.code :: ' ' :: b.text) = .ok (b', turn) ∧
      b'.roster.toList = b.pieces :=
  exists_read_iff.2 ⟨lists_intercalate (hb.writable_pieces hknown) turn,
    fun _ hq => hb.contains_of_mem_pieces hq, pairwise_pieces hb hkings⟩

end Board

namespace Game

variable {g h g₀ : Game} {c : Colour} {id id' : PieceId} {p q : Point}

/-- The piece of a colour that stands on the first point threatens the second one. -/
def ThreatensFrom (g : Game) (c : Colour) (p q : Point) : Prop :=
  ∃ id owner, g.board.on? p = some id ∧ g.board.piece? id = some owner ∧ owner.colour = c ∧
    q ∈ g.reach id

/-- What a kept game shows of its threats is what the pieces on the board threaten. -/
theorem Kept.view_threatens_iff (hk : g.Kept) :
    g.view.threatens c p q ↔ g.ThreatensFrom c p q := by
  have hview : g.view.threatens c p q ↔ ∃ id ∈ (g.threats.get c).threatsAt q,
      (g.board.piece? id).any fun owner => owner.point = p := List.any_eq_true
  rw [hview]
  refine exists_congr fun id => ?_
  rw [hk.fresh.mem_threatsAt_iff, Option.any_eq_true]
  constructor
  · rintro ⟨⟨howns, hhas, hreach⟩, owner, howner, hpoint⟩
    have hon := hk.sound.on?_point (hk.sound.mem_ids.2 hhas) howner
    rw [of_decide_eq_true hpoint] at hon
    exact ⟨owner, hon, howner, (Board.owns_iff_of_piece? howner).1 howns, hreach⟩
  · rintro ⟨owner, hon, howner, hcolour, hreach⟩
    refine ⟨⟨(Board.owns_iff_of_piece? howner).2 hcolour, hk.sound.has_iff.2 ⟨p, hon⟩, hreach⟩,
      owner, howner, decide_eq_true (hk.sound.point_eq hon howner)⟩

/-- A king is in check if a piece of the other side threatens the point on which it is recorded. -/
theorem Kept.inCheck_iff_threatensFrom (hk : g.Kept) (hking : g.king? c = some p) :
    g.inCheck c ↔ ∃ r, g.ThreatensFrom c.other r p := by
  rw [hk.fresh.inCheck_iff hking]
  constructor
  · rintro ⟨id, howns, hhas, hreach⟩
    obtain ⟨owner, howner, hcolour⟩ := Board.owns_iff.1 howns
    obtain ⟨r, hon⟩ := hk.sound.has_iff.1 hhas
    exact ⟨r, id, owner, hon, howner, hcolour, hreach⟩
  · rintro ⟨r, id, owner, hon, howner, hcolour, hreach⟩
    exact ⟨id, Board.owns_iff.2 ⟨owner, howner, hcolour⟩, hk.sound.has_iff.2 ⟨r, hon⟩, hreach⟩

/-- The games have the same movements, and the same piece or none stands on every point. -/
structure LooksLike (g h : Game) : Prop where
  pieceSet : h.pieceSet = g.pieceSet
  bounds : h.board.bounds = g.board.bounds
  pieceAt? : ∀ p, h.board.pieceAt? p = g.board.pieceAt? p

namespace LooksLike

/-- In games that look alike plain pieces on the same point threaten the same points. -/
theorem mem_reach_iff (hl : g.LooksLike h) (hplain : g.Plain) (hreg : g.Regular)
    (hon : g.board.on? p = some id) (hon' : h.board.on? p = some id') :
    q ∈ h.reach id' ↔ q ∈ g.reach id := by
  have hrecord : h.board.piece? id' = g.board.piece? id := by
    have hsame := hl.pieceAt? p
    rwa [Board.pieceAt?, Board.pieceAt?, hon, hon', Option.bind_some, Option.bind_some] at hsame
  exact mem_reach_iff_of_calm hreg (fun m hm => (hplain.direct hm).1) hl.pieceSet hl.bounds hrecord
    (fun r _ => hl.pieceAt? r) q

/-- Games of plain pieces that look alike have the same threats. -/
theorem threatensFrom_iff (hl : g.LooksLike h) (hplain : g.Plain) (hreg : g.Regular) :
    h.ThreatensFrom c p q ↔ g.ThreatensFrom c p q := by
  have hsame := hl.pieceAt? p
  constructor
  · rintro ⟨id', owner, hon', howner', hcolour, hreach⟩
    rw [Board.pieceAt?, hon', Option.bind_some, howner', eq_comm, Board.pieceAt?,
      Option.bind_eq_some_iff] at hsame
    obtain ⟨id, hon, howner⟩ := hsame
    exact ⟨id, owner, hon, howner, hcolour, (hl.mem_reach_iff hplain hreg hon hon').1 hreach⟩
  · rintro ⟨id, owner, hon, howner, hcolour, hreach⟩
    rw [eq_comm, Board.pieceAt?, hon, Option.bind_some, howner, eq_comm, Board.pieceAt?,
      Option.bind_eq_some_iff] at hsame
    obtain ⟨id', hon', howner'⟩ := hsame
    exact ⟨id', owner, hon', howner', hcolour, (hl.mem_reach_iff hplain hreg hon hon').2 hreach⟩

/-- Looking alike depends on the position only. -/
theorem of_samePosition (hl : g.LooksLike h) {h' : Game} (hp : h.SamePosition h') :
    g.LooksLike h' := by
  refine ⟨hp.pieceSet.trans hl.pieceSet, ?_, ?_⟩
  · rw [hp.board]
    exact hl.bounds
  · rw [hp.board]
    exact hl.pieceAt?

/-- Games that look alike record the same kings if their tables are right. -/
theorem king?_eq (hl : g.LooksLike h) (hg : g.Kept) (hh : h.Kept)
    (hkings : g.board.Enthrones g.kings) (hkings' : h.board.Enthrones h.kings) :
    h.king? c = g.king? c := by
  refine Option.ext fun p => ?_
  rw [king?_eq_some_iff_of_enthrones hh.sound hkings',
    king?_eq_some_iff_of_enthrones hg.sound hkings, hl.pieceAt? p]

/-- Games of plain pieces that look alike give check alike if their tables of kings are right. -/
theorem inCheck_eq (hl : g.LooksLike h) (hplain : g.Plain) (hg : g.Kept) (hh : h.Kept)
    (hkings : g.board.Enthrones g.kings) (hkings' : h.board.Enthrones h.kings) :
    h.inCheck c = g.inCheck c := by
  have hking := hl.king?_eq hg hh hkings hkings' (c := c)
  cases hp : g.king? c with
  | none => rw [inCheck, inCheck, hking, hp, Option.any_none, Option.any_none]
  | some p =>
    rw [Bool.eq_iff_iff, hh.inCheck_iff_threatensFrom (hking.trans hp),
      hg.inCheck_iff_threatensFrom hp]
    exact exists_congr fun r => hl.threatensFrom_iff hplain hg.regular

end LooksLike

/-- The table of a standard game names the kings that stand on the board. -/
theorem Standard.enthrones (hg : g.Standard) : g.board.Enthrones g.kings := by
  intro c id
  constructor
  · intro hking
    obtain ⟨q, hq, hisKing, hcolour, hon⟩ := hg.king_stands c id hking
    exact ⟨Board.has_iff.2 ⟨q, hq, hon⟩, q, hq, hisKing, hcolour⟩
  · rintro ⟨-, q, hq, hisKing, rfl⟩
    exact hg.king_of id q hq hisKing

variable {set : PieceSet} {layout : List Char} {config : GameConfig} {board : Board} {turn : Colour}

/-- The table of a game that is set up names the kings of its layout. -/
theorem enthrones_setUp (hread : Board.read set config.bounds layout = .ok (board, turn)) :
    (setUp set config board turn).board.Enthrones (setUp set config board turn).kings := by
  obtain ⟨hsound, hfull, hsingle⟩ := Board.of_read hread
  obtain ⟨threats, hframe⟩ := setUp_eq set config board turn
  rw [hframe]
  intro c id
  rw [get_findKing, findKing_eq_some_iff hsound hfull hsingle]
  refine (and_iff_right_of_imp ?_).symm
  rintro ⟨q, hq, -, -⟩
  exact Board.has_iff.2 ⟨q, hq, hfull id q hq⟩

/-- The layout of a kept standard game starts a standard game that looks like it. -/
theorem Standard.exists_start_text (hg : g.Standard) (hk : g.Kept)
    (hbounds : g.board.bounds = g.config.bounds) :
    ∃ h, start g.pieceSet g.text g.config = .ok h ∧ h.turn = g.turn ∧ g.LooksLike h ∧
      h.Standard ∧ h.Kept := by
  have hknown : ∀ q ∈ g.board.pieces, q.kind.Written ∧ g.pieceSet.knows q.kind := by
    intro q hq
    obtain ⟨id, -, hpiece⟩ := List.mem_filterMap.1 hq
    obtain ⟨m, hkind⟩ := hg.kinds id q hpiece
    rw [hkind]
    exact ⟨trivial, rfl⟩
  obtain ⟨b, hread, hroster⟩ := Board.exists_read_text hk.sound hg.enthrones hknown g.turn
  rw [hbounds] at hread
  obtain ⟨hsound, hfull, -⟩ := Board.of_read hread
  have hkinds : b.Standard := by
    intro id q hq
    have hmem := Board.mem_roster_iff.2 ⟨id, hq⟩
    rw [hroster] at hmem
    obtain ⟨i, -, hpiece⟩ := List.mem_filterMap.1 hmem
    exact hg.kinds i q hpiece
  have hreg := regular_setUp g.pieceSet g.config g.turn hkinds
  have hkept := kept_setUp hsound hreg
  have hlooks : g.LooksLike (setUp g.pieceSet g.config b g.turn) := by
    obtain ⟨threats, hframe⟩ := setUp_eq g.pieceSet g.config b g.turn
    rw [hframe]
    exact ⟨rfl, (Board.bounds_of_read hread).trans hbounds.symm,
      Board.pieceAt?_eq_of_roster hk.sound hsound hfull hroster⟩
  have hcalm : (setUp g.pieceSet g.config b g.turn).inCheck g.turn.other = false := by
    rw [hlooks.inCheck_eq hg.crowned.plain hk hkept hg.enthrones (enthrones_setUp hread)]
    exact hg.unchecked
  obtain ⟨h, hstart⟩ := exists_start hread hkinds hcalm
  have hsame := samePosition_of_start hstart hread hreg
  refine ⟨h, hstart, hsame.turn.trans turn_setUp, hlooks.of_samePosition hsame,
    (standard_setUp hread hkinds hcalm).of_samePosition hsame, hsame.kept hkept⟩

variable {g₀ : Game} {ops : List Operation}

/-- A game of chessmen of a run, on any board and with any piece set, from a layout in which the
side that is not to move is not in check, can be started again from its own layout. The new game has
the same side to move, the same pieces with their marks on all points and the same kings, and in
both games the same pieces threaten the same points. -/
theorem start_text_of_run (hstart : start set layout config = .ok g₀)
    (hread : Board.read set config.bounds layout = .ok (board, turn)) (hkinds : board.Standard)
    (hcalm : g₀.kingAttacked g₀.turn.other = false) (hrun : g₀.run ops = .ok g) :
    ∃ h, start set g.text config = .ok h ∧ h.turn = g.turn ∧
      (∀ p, h.board.pieceAt? p = g.board.pieceAt? p) ∧ (∀ c, h.king? c = g.king? c) ∧
      ∀ c p q, h.view.threatens c p q = g.view.threatens c p q := by
  have hreg := regular_setUp set config turn hkinds
  have h₀ := opening_of_start hstart hread hreg
  have hg₀ := standard_of_start hstart hread hkinds ((h₀.kept.inCheck_eq _).trans hcalm)
  have hreached := h₀.reached_of_run hrun
  have hk := hreached.kept h₀
  have hg := hreached.standard h₀ hg₀
  have hsame := samePosition_of_start hstart hread hreg
  obtain ⟨threats, hframe⟩ := setUp_eq set config board turn
  rw [hframe] at hsame
  obtain ⟨hset, -, -, hconfig, -⟩ := hreached.line.fixed h₀
  have hpieceSet : g.pieceSet = set := hset.trans hsame.pieceSet
  have hsettings : g.config = config := hconfig.trans hsame.config
  have hbounds : g.board.bounds = g.config.bounds := by
    rw [hsettings, ← Board.bounds_of_read hread]
    exact (hreached.line.bounds_eq h₀).trans (congrArg Board.bounds hsame.board)
  obtain ⟨h, hstart', hturn, hlooks, hh, hkept⟩ := hg.exists_start_text hk hbounds
  rw [hpieceSet, hsettings] at hstart'
  refine ⟨h, hstart', hturn, hlooks.pieceAt?,
    fun c => hlooks.king?_eq hk hkept hg.enthrones hh.enthrones, fun c p q => ?_⟩
  rw [Bool.eq_iff_iff, hkept.view_threatens_iff, hk.view_threatens_iff]
  exact hlooks.threatensFrom_iff hg.crowned.plain hk.regular

/-- A rook takes a pawn and gives check, and is marked as moved from then on; the game is started
again from its layout. -/
theorem start_text_of_run_small : ∃ g₀ g h,
    start .orthodox "w wKa1 wRb1* bPb3 bKc3".toList smallConfig = .ok g₀ ∧
      g₀.run [.update ⟨.white, .ofCoords 1 0, .ofCoords 1 2⟩] = .ok g ∧
      g.text = "b wKa1 wRb3 bKc3".toList ∧ g.board.roster.size = 4 ∧
      start .orthodox g.text smallConfig = .ok h ∧ h.turn = .black ∧
      (∀ p, h.board.pieceAt? p = g.board.pieceAt? p) ∧ (∀ c, h.king? c = g.king? c) ∧
      ∀ c p q, h.view.threatens c p q = g.view.threatens c p q := by
  obtain ⟨g₀, g, board, turn, hstart, hread, hkinds, hcalm, hrun, htest⟩ :=
    exists_calm_run "w wKa1 wRb1* bPb3 bKc3".toList smallConfig
      [.update ⟨.white, .ofCoords 1 0, .ofCoords 1 2⟩]
      (fun g => g.text = "b wKa1 wRb3 bKc3".toList && g.board.roster.size = 4 && g.turn = .black)
      (by decide +kernel)
  rw [Bool.and_eq_true, Bool.and_eq_true, decide_eq_true_eq, decide_eq_true_eq,
    decide_eq_true_eq] at htest
  obtain ⟨⟨htext, hsize⟩, hturn⟩ := htest
  obtain ⟨h, hstart', hturn', hpieces, hkings, hthreats⟩ :=
    start_text_of_run hstart hread hkinds hcalm hrun
  exact ⟨g₀, g, h, hstart, hrun, htext, hsize, hstart', hturn'.trans hturn, hpieces, hkings,
    hthreats⟩

end Game

end VariantChess
