import VariantChess.Proofs.Castling
import VariantChess.Proofs.Mate

/-!
# Steps of the king

Whether a king may step to a neighbouring point is found out by trying: the king leaves its point,
takes what stands on the target, and the threats are recomputed. The threat map of the other side
tells beforehand. Its slides look through the king, as they do on the board after the step, on which
the king has left its point; they threaten the points of their own side, so a piece that the king
takes is defended or not before it is taken; and no piece threatens the point on which it stands.
So the map lists an attacker of the target exactly if the king would be attacked there.
-/

namespace VariantChess

/-- From the same place on two boards a direct movement threatens a point alike, if what stands on all
other points is passed alike. -/
theorem Movement.Direct.mem_candidates_iff {m : Movement} (hm : m.Direct) {s s' : Situation}
    (hplace : s.SamePlace s') {t : Point}
    (hpass : ∀ r, r ≠ t → Movement.passes s' .threats (s'.board.pieceAt? r) =
      Movement.passes s .threats (s.board.pieceAt? r)) :
    t ∈ m.candidates s .threats ↔ t ∈ m.candidates s' .threats := by
  have hone : ∀ {s s' : Situation}, s.SamePlace s' →
      (∀ r, r ≠ t → Movement.passes s' .threats (s'.board.pieceAt? r) =
        Movement.passes s .threats (s.board.pieceAt? r)) →
      t ∈ m.candidates s .threats → t ∈ m.candidates s' .threats := by
    intro s s' hplace hpass hmem
    by_contra hnot
    obtain ⟨d, n, i, r, hsees, hpos, hlt, hr, hstops⟩ := hm.exists_block hplace hmem hnot
    obtain ⟨r', hr', hclear⟩ := hsees.clear i hpos hlt
    obtain rfl := hr.unique hr'
    have hne : r ≠ t := by
      rintro rfl
      exact Nat.ne_of_lt hlt (hr.count_unique hsees.step hsees.along)
    rw [hpass r hne, hclear] at hstops
    cases hstops
  refine ⟨hone hplace hpass, hone ?_ fun r hr => (hpass r hr).symm⟩
  exact ⟨hplace.bounds.symm, hplace.colour.symm, hplace.origin.symm, hplace.destination.symm⟩

/-- No chessman threatens the point on which it stands. -/
theorem Chessman.ne_origin_of_threatens {c : Chessman} {m : Movement} (hm : m ∈ c.movements)
    {s : Situation} {p : Point} (hp : p ∈ m.candidates s .threats) : p ≠ s.origin := by
  have hall : ∀ c : Chessman, ∀ m ∈ c.movements, ∀ step ∈ m.template.points,
      step.x.val ≠ 0 ∨ step.y.val ≠ 0 := by
    intro c
    cases c <;> decide +kernel
  obtain ⟨-, hwalk, -⟩ := Movement.mem_candidates.1 hp
  obtain ⟨q, hq, harm⟩ := Movement.mem_walk.1 hwalk
  obtain ⟨i, step, hstep, hland, -, -⟩ := Movement.mem_arm.1 harm
  obtain ⟨hdelta, -⟩ := Movement.landing?_eq_some_iff.1 hland
  obtain ⟨hx, hy⟩ := Movement.sign_of_mem_quadrants hq
  rintro rfl
  rw [Point.delta, Int.sub_self, Int.sub_self, Prod.mk.injEq] at hdelta
  have hstep' := hall c m hm step (List.mem_of_getElem? hstep)
  rcases hx with hx | hx <;> rcases hy with hy | hy <;> rw [hx, hy] at hdelta <;> omega

/-- A king steps to the points at a distance of one. -/
theorem Orthodox.leaps_kingStep {c : Colour} {d : Int × Int} :
    kingStep.Leaps c d ↔ max d.1.natAbs d.2.natAbs = 1 := by
  constructor
  · rintro ⟨q, hq, step, hstep, rfl⟩
    obtain ⟨hx, hy⟩ := Movement.sign_of_mem_quadrants hq
    have hall : ∀ step ∈ kingStep.template.points, max step.x.val step.y.val = 1 := by
      decide +kernel
    have hone := hall step hstep
    rcases hx with hx | hx <;> rcases hy with hy | hy <;> rw [hx, hy] <;> dsimp only <;> omega
  · intro hone
    obtain ⟨x, y⟩ := d
    dsimp only at hone
    have hx : x = -1 ∨ x = 0 ∨ x = 1 := by omega
    have hy : y = -1 ∨ y = 0 ∨ y = 1 := by omega
    have hall : ∀ c : Colour, ∀ x ∈ ([-1, 0, 1] : List Int), ∀ y ∈ ([-1, 0, 1] : List Int),
        max x.natAbs y.natAbs = 1 → ∃ q ∈ kingStep.quadrants c,
          ∃ step ∈ kingStep.template.points, (x, y) = (q.1 * step.x.val, q.2 * step.y.val) := by
      intro c
      cases c <;> decide +kernel
    exact hall c x (by simpa using hx) y (by simpa using hy) hone

namespace Game

variable {g g₀ : Game} {c : Colour} {ply : Ply} {b : Board} {id : PieceId} {q king : Piece}
  {k p t : Point}

/-- The threat map of the other side threatens a point if a piece attacks it. -/
theorem Kept.threatens_iff_attacks (hk : g.Kept) :
    (g.threats.get c.other).threatens p ↔ ∃ id q, g.Attacks c p id q := by
  rw [(hk.fresh.coherent _).threatens_iff]
  refine exists_congr fun id => ⟨hk.attacks_of_mem, ?_⟩
  rintro ⟨q, ha⟩
  exact hk.fresh.mem_threatsAt_iff.2 ⟨(Board.owns_iff_of_piece? ha.record).2 ha.colour,
    Board.has_iff.2 ⟨q, ha.record, ha.stands⟩, ha.threatens⟩

/-- A king is attacked if a piece attacks the point on which it is recorded. -/
theorem kingAttacked_iff_attacks (hb : g.board.Sound) (hking : g.king? c = some p) :
    g.kingAttacked c ↔ ∃ id q, g.Attacks c p id q := by
  rw [kingAttacked, hking, Option.any_some, List.any_eq_true]
  refine exists_congr fun id => ?_
  rw [Board.idsOf, List.mem_filter, hb.mem_ids, Board.has_iff, List.contains_iff_mem]
  constructor
  · rintro ⟨⟨⟨q, hq, hon⟩, howns⟩, hreach⟩
    exact ⟨q, hq, hon, (Board.owns_iff_of_piece? hq).1 howns, hreach⟩
  · rintro ⟨q, ha⟩
    exact ⟨⟨⟨q, ha.record, ha.stands⟩, (Board.owns_iff_of_piece? ha.record).2 ha.colour⟩,
      ha.threatens⟩

/-- A ply takes a king to another point, with what stands there, and does nothing else. -/
structure StepsKing (g : Game) (c : Colour) (king : Piece) (ply : Ply) : Prop where
  record : g.board.piece? ply.piece = some king
  isKing : king.isKing
  colour : king.colour = c
  stands : g.board.on? ply.source = some ply.piece
  away : ply.source ≠ ply.target
  effect : ply.effect = none

namespace StepsKing

variable (h : g.StepsKing c king ply) (hb : g.board.Sound) (hstep : ply.Step g.board b)
include h

/-- The ply touches the point that the king leaves and the one on which it arrives. -/
theorem touched_eq : ply.touched = [ply.source, ply.target] := by
  rw [Ply.touched_eq, Ply.effectPoints, h.effect, List.append_nil]

/-- The ply changes the king and the piece that it takes. -/
theorem mem_pieces_iff : id ∈ ply.pieces ↔ id = ply.piece ∨ ply.captured = some id := by
  rw [Ply.mem_pieces, Ply.effectPieces, h.effect]
  simp

include hb hstep

/-- The king leaves its point vacant. -/
theorem vacates : b.on? ply.source = none := by
  rw [Option.eq_none_iff_forall_ne_some]
  intro i hi
  rcases hstep.on?_cases hb hi with ⟨-, htarget⟩ | ⟨source, goal, first, he⟩ | ⟨hmem, hbefore⟩
  · exact h.away htarget
  · rw [h.effect] at he
    cases he
  · obtain rfl := Option.some.inj (h.stands.symm.trans hbefore)
    exact hmem (h.mem_pieces_iff.2 (.inl rfl))

/-- The other side's threats pass the same points after the step as before it, except for the target:
the point that the king has left as they passed the king. -/
theorem passes_eq {s s' : Situation} (hboard : s.board = g.board) (hboard' : s'.board = b)
    (hcolour : s.colour = c.other) (hcolour' : s'.colour = c.other) {r : Point}
    (hr : r ≠ ply.target) : Movement.passes s' .threats (s'.board.pieceAt? r) =
      Movement.passes s .threats (s.board.pieceAt? r) := by
  rw [hboard, hboard']
  by_cases hsource : r = ply.source
  · have hbefore : g.board.pieceAt? r = some king := by
      rw [hsource, Board.pieceAt?, h.stands, Option.bind_some, h.record]
    have hafter : b.pieceAt? r = none := by
      rw [hsource, Board.pieceAt?, h.vacates hb hstep, Option.bind_none]
    have hhostile : king.colour ≠ s.colour := by
      rw [hcolour, h.colour]
      exact c.other_ne.symm
    rw [hbefore, hafter, Movement.passes, Movement.passes, h.isKing, decide_eq_true hhostile]
    rfl
  · have hout : r ∉ ply.touched := by
      rw [h.touched_eq]
      simp [hsource, hr]
    rw [hstep.pieceAt?_eq hb hout]
    cases g.board.pieceAt? r with
    | none => rfl
    | some q => rw [Movement.passes, Movement.passes, hcolour, hcolour']

/-- A piece that the ply leaves alone attacks the target after it as before it. -/
theorem attacks_iff (hg : g.Plain) (hid : id ∉ ply.pieces) :
    g.Attacks c ply.target id q ↔ ({ g with board := b } : Game).Attacks c ply.target id q := by
  have hagree := hstep.agreeOff
  have hrecord : b.piece? id = g.board.piece? id := hagree.record id hid
  have hstands : ∀ r, b.on? r = some id ↔ g.board.on? r = some id := hagree.stands id hid
  have hreach : ∀ q, g.board.piece? id = some q → q.colour = c.other →
      (ply.target ∈ g.reach id ↔ ply.target ∈ ({ g with board := b } : Game).reach id) := by
    intro q hq hcolour
    have hq' : ({ g with board := b } : Game).board.piece? id = some q := hrecord.trans hq
    rw [mem_reach_iff hq, mem_reach_iff hq', movementsOf_eq_of_piece? hq,
      movementsOf_eq_of_piece? hq']
    have hplace : (g.threatening id q).SamePlace (({ g with board := b } : Game).threatening id q) :=
      ⟨hagree.bounds, rfl, rfl, rfl⟩
    refine exists_congr fun m => and_congr_right fun hm => ?_
    rw [← movementsOf_eq_of_piece? hq] at hm
    exact (hg.direct hm).mem_candidates_iff hplace fun r hr =>
      h.passes_eq hb hstep rfl rfl hcolour hcolour hr
  constructor
  · rintro ⟨hq, hon, hcolour, hthreat⟩
    exact ⟨hrecord.trans hq, (hstands _).2 hon, hcolour, (hreach q hq hcolour).1 hthreat⟩
  · rintro ⟨hq, hon, hcolour, hthreat⟩
    have hq := hrecord.symm.trans hq
    exact ⟨hq, (hstands _).1 hon, hcolour, (hreach q hq hcolour).2 hthreat⟩

/-- Some piece attacks the king on the target exactly if some piece attacked the target before. -/
theorem exists_attacks_iff (hstd : g.board.Standard) : (∃ id q, g.Attacks c ply.target id q) ↔
    ∃ id q, ({ g with board := b } : Game).Attacks c ply.target id q := by
  have hg := plain_of_standard hstd
  constructor
  · rintro ⟨id, q, ha⟩
    refine ⟨id, q, (h.attacks_iff hb hstep hg fun hid => ?_).1 ha⟩
    rcases h.mem_pieces_iff.1 hid with rfl | hcaptured
    · obtain rfl := Option.some.inj (h.record.symm.trans ha.record)
      exact c.other_ne (ha.colour.symm.trans h.colour)
    · -- what the king takes does not threaten the point on which it stands
      obtain ⟨q', hq', hpoint⟩ := hstep.records.captured id hcaptured
      obtain rfl := Option.some.inj (ha.record.symm.trans hq')
      obtain ⟨chessman, hkind⟩ := hstd id q ha.record
      obtain ⟨m, hm, hthreat⟩ := (mem_reach_iff ha.record).1 ha.threatens
      rw [movementsOf_eq_of_piece? ha.record, hkind] at hm
      exact Chessman.ne_origin_of_threatens hm hthreat hpoint.symm
  · rintro ⟨id, q, ha⟩
    refine ⟨id, q, (h.attacks_iff hb hstep hg fun hid => ?_).2 ha⟩
    rcases h.mem_pieces_iff.1 hid with rfl | hcaptured
    · have howns : b.owns c.other ply.piece := Board.owns_iff.2 ⟨q, ha.record, ha.colour⟩
      rw [hstep.agreeOff.owns_eq, Board.owns_iff_of_piece? h.record, h.colour] at howns
      exact c.other_ne howns.symm
    · exact hstep.not_on?_captured hb hcaptured _ ha.stands

end StepsKing

section Plan

variable (hq : g.board.piece? id = some king) (hking : king.isKing)
  (hon : g.board.on? king.point = some id) (hnear : Point.distance king.point t = 1)
include hq hking hnear

/-- A plan for a neighbouring point takes the king there and does nothing else. -/
theorem stepsKing_of_plan? (hon : g.board.on? king.point = some id)
    (hplan : g.plan? id t = some ply) : g.StepsKing king.colour king ply := by
  obtain ⟨m, hm, hmem, hply, -⟩ := exists_movement_of_plan? hq hplan
  have hkind : king.kind = .standard .king := of_decide_eq_true hking
  rw [hkind] at hm
  have hstill : king.point ≠ t := by
    rintro rfl
    rw [Point.distance, Point.delta, Int.sub_self, Int.sub_self] at hnear
    cases hnear
  rcases Wing.mem_movements_king.1 hm with rfl | ⟨w, rfl⟩
  · rw [hply]
    exact ⟨hq, hking, rfl, hon, hstill, rfl⟩
  · -- castling goes further
    obtain ⟨-, hleap, -⟩ := (Movement.mem_candidates_of_jump rfl).1 hmem
    have hdelta : Point.delta king.point t = (w.side * 2, 0) := (Wing.leaps_castling w).1 hleap
    rw [Point.distance, hdelta] at hnear
    cases w <;> exact absurd hnear (by decide)

/-- A king has a plan for every neighbouring point of the board on which no piece of its side
stands. -/
theorem exists_plan?_of_near (hin : g.board.bounds.contains t)
    (hfree : ∀ q, g.board.pieceAt? t = some q → q.colour ≠ king.colour) :
    ∃ ply, g.plan? id t = some ply := by
  have hm : Orthodox.kingStep ∈ g.pieceSet.movements king.kind := by
    rw [of_decide_eq_true hking]
    exact Wing.mem_movements_king.2 (.inl rfl)
  refine exists_plan?_of_mem_candidates hq hm ((Movement.mem_candidates_of_jump rfl).2
    ⟨Mode.noConfusion, Orthodox.leaps_kingStep.2 hnear, hin, ?_, fun _ hc => ?_⟩) fun _ hf => ?_
  · change Orthodox.kingStep.reaches (g.looking id king) .moves (g.board.pieceAt? t)
    cases hpiece : g.board.pieceAt? t with
    | none => rfl
    | some q => exact decide_eq_true (hfree q hpiece)
  · cases hc
  · cases hf

end Plan

/-- After the step the king is recorded on the target. -/
theorem Standard.king?_after_of_stepsKing (hg : g.Standard) (hk : g.Kept)
    (h : g.StepsKing c king ply) (hstep : ply.Step g.board b) :
    ({ g with board := b } : Game).king? c = some ply.target := by
  obtain ⟨q, hq, hpoint⟩ := hstep.sound hk.sound ply.target ply.piece hstep.on?_target
  have hking : g.kings.get c = some ply.piece := h.colour ▸ hg.king_of _ king h.record h.isKing
  rw [← hpoint]
  exact Crowned.king?_eq hking hq

variable {set : PieceSet} {layout : List Char} {config : GameConfig} {board : Board}
  {turn : Colour} {ops : List Operation}

/-- In every game of a run that is not over, the king on `k` may step to a neighbouring point of the
board on which no piece of its side stands exactly if the threat map of the other side does not
threaten that point. -/
theorem kingStep_of_run (hstart : start set layout config = .ok g₀)
    (hread : Board.read set config.bounds layout = .ok (board, turn)) (hkinds : board.Standard)
    (hcalm : g₀.kingAttacked g₀.turn.other = false) (hrun : g₀.run ops = .ok g)
    (hover : g.status.isTerminal = false) (hking : g.king? g.turn = some k)
    (hnear : Point.distance k t = 1) (hin : g.board.bounds.contains t)
    (hfree : ∀ q, g.board.pieceAt? t = some q → q.colour ≠ g.turn) :
    (∃ status h, g.update ⟨g.turn, k, t⟩ = .ok (.ok status, h)) ↔
      (g.threats.get g.turn.other).threatens t = false := by
  obtain ⟨h₀, hg₀⟩ := opening_of_calm_start hstart hread hkinds hcalm
  have hreached := h₀.reached_of_run hrun
  have hk := hreached.kept h₀
  have hg := hreached.standard h₀ hg₀
  obtain ⟨id, king, hon, hq, hisKing, hcolour⟩ := (hg.king?_eq_some_iff hk).1 hking
  obtain rfl := hk.sound.point_eq hon hq
  have howns : g.board.owns g.turn id := Board.owns_iff.2 ⟨king, hq, hcolour⟩
  rw [← hcolour] at hfree
  obtain ⟨ply, hplan⟩ := exists_plan?_of_near hq hisKing hnear hin hfree
  have hsteps := stepsKing_of_plan? hq hisKing hnear hon hplan
  rw [hcolour] at hsteps
  obtain rfl := piece_of_plan? hplan
  obtain rfl := target_of_plan? hplan
  obtain ⟨b, hstep⟩ := hg.crowned.plain.exists_step hk.sound hplan hsteps.stands
  have hattacked : ({ g with board := b } : Game).kingAttacked g.turn ↔
      (g.threats.get g.turn.other).threatens ply.target := by
    rw [kingAttacked_iff_attacks (hstep.sound hk.sound) (hg.king?_after_of_stepsKing hk hsteps hstep),
      hk.threatens_iff_attacks, hsteps.exists_attacks_iff hk.sound hstep hg.kinds]
  rw [hg.exists_accepted_iff hk hover hon howns, ← Bool.not_eq_true, ← hattacked, Bool.not_eq_true]
  constructor
  · rintro ⟨ply', b', hplan', hstep', hsafe⟩
    obtain rfl := Option.some.inj (hplan.symm.trans hplan')
    obtain rfl := Except.ok.inj (hstep.play.symm.trans hstep'.play)
    exact hsafe
  · intro hsafe
    exact ⟨ply, b, hplan, hstep, hsafe⟩

/-- A king in check from a rook beside it may step out of the rook's rank, and it may not step back
along the rank, which the rook sees through the king. -/
theorem kingStep_of_run_small : ∃ g₀ g,
    start .orthodox "w wKa1 wRa3 bKc2".toList oblongConfig = .ok g₀ ∧
      g₀.run [.update ⟨.white, .ofCoords 0 2, .ofCoords 0 1⟩] = .ok g ∧ g.turn = .black ∧
      (∃ status h, g.update ⟨g.turn, .ofCoords 2 1, .ofCoords 2 2⟩ = .ok (.ok status, h)) ∧
      ¬∃ status h, g.update ⟨g.turn, .ofCoords 2 1, .ofCoords 3 1⟩ = .ok (.ok status, h) := by
  obtain ⟨g₀, g, board, turn, hstart, hread, hkinds, hcalm, hrun, htest⟩ :=
    exists_calm_run "w wKa1 wRa3 bKc2".toList oblongConfig
      [.update ⟨.white, .ofCoords 0 2, .ofCoords 0 1⟩]
      (fun g => !g.status.isTerminal && g.turn = .black && g.king? g.turn = some (.ofCoords 2 1) &&
        g.board.bounds.contains (.ofCoords 2 2) && g.board.bounds.contains (.ofCoords 3 1) &&
        (g.board.pieceAt? (.ofCoords 2 2)).isNone && (g.board.pieceAt? (.ofCoords 3 1)).isNone &&
        !(g.threats.get g.turn.other).threatens (.ofCoords 2 2) &&
        (g.threats.get g.turn.other).threatens (.ofCoords 3 1)) (by decide +kernel)
  simp only [Bool.and_eq_true, Bool.not_eq_true', decide_eq_true_eq, Option.isNone_iff_eq_none]
    at htest
  obtain ⟨⟨⟨⟨⟨⟨⟨⟨hover, hturn⟩, hking⟩, hin⟩, hin'⟩, hempty⟩, hempty'⟩, hsafe⟩, hthreat⟩ := htest
  refine ⟨g₀, g, hstart, hrun, hturn, ?_, ?_⟩
  · refine (kingStep_of_run hstart hread hkinds hcalm hrun hover hking rfl hin ?_).2 hsafe
    simp [hempty]
  · rw [kingStep_of_run hstart hread hkinds hcalm hrun hover hking rfl hin' (by simp [hempty']),
      hthreat]
    decide

end Game

end VariantChess
