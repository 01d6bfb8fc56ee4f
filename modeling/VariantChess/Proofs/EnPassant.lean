import VariantChess.Proofs.Conditions
import VariantChess.Proofs.Rearrangement

/-!
# En passant

A pawn goes diagonally to an empty point by one movement only, which looks at the latest ply: the
pawn that it removes is the one that moved last, for the first time and over a distance of two. That
this was a pawn's step of two ranks over the empty point is not said by the conditions. It follows
from how the latest ply came about: a standard game keeps its log as a line of play, so that ply was
planned in an earlier game by a piece that is a pawn still, and a pawn goes further than to a
neighbouring point by its double step alone.
-/

namespace VariantChess

namespace Orthodox

variable {m : Movement}

/-- A pawn jumps, and its movements keep to its front. -/
theorem pawn_ahead (hm : m ∈ Chessman.pawn.movements) : m.stride = .jump ∧ m.back = false := by
  revert m
  decide +kernel

/-- A pawn goes to empty points on its own file, and in passing. -/
theorem pawn_quiet (hm : m ∈ Chessman.pawn.movements) (hmove : m.isMove) :
    m = enPassant ∨ ∀ step ∈ m.template.points, step.x.val = 0 := by
  revert m
  decide +kernel

/-- A pawn goes further than to the next rank by its double step alone. -/
theorem pawn_near (hm : m ∈ Chessman.pawn.movements) : m = pawnDoubleStep ∨
    ∀ step ∈ m.template.points, step.x.val ≤ 1 ∧ step.y.val = 1 := by
  revert m
  decide +kernel

/-- What keeps to the front has the ranks of its template. -/
theorem exists_of_leaps {c : Colour} {d : Int × Int} (hback : m.back = false) (h : m.Leaps c d) :
    ∃ step ∈ m.template.points, d.1.natAbs = step.x.val ∧ d.2 = c.forward * step.y.val := by
  obtain ⟨q, hq, step, hstep, rfl⟩ := h
  have hahead : q.2 = c.forward := by
    rw [Movement.quadrants, hback] at hq
    split at hq
    · rw [List.mem_singleton.1 hq]
      rfl
    · obtain ⟨y, hy, hq⟩ := List.mem_flatMap.1 hq
      obtain ⟨x, -, rfl⟩ := List.mem_map.1 hq
      obtain rfl : y = 1 := List.mem_singleton.1 hy
      exact Int.one_mul _
  refine ⟨step, hstep, ?_, by rw [hahead]⟩
  rcases (Movement.sign_of_mem_quadrants hq).1 with hx | hx <;> simp [hx]

/-- A pawn takes in passing. -/
theorem enPassant_mem : enPassant ∈ Chessman.pawn.movements := by decide +kernel

/-- Taking in passing goes one step diagonally ahead. -/
theorem leaps_enPassant {c : Colour} {d : Int × Int} :
    enPassant.Leaps c d ↔ d = (1, c.forward) ∨ d = (-1, c.forward) := by
  simp [Movement.Leaps, enPassant, Movement.quadrants, Movement.when, Movement.followedBy,
    Movement.moveOnly, Movement.reflected, Movement.jump, Point.ofCoords]

/-- The five conditions of taking in passing. -/
theorem conditions_enPassant : enPassant.conditions =
    [.kind (.standing behind) "P", .flag (.standing behind) .friendly false,
      .same (.standing behind) .lastMoved, .log .firstMove .isTrue none,
      .log .distance .equal (some (.int (2 : Nat)))] :=
  rfl

end Orthodox

namespace Game

variable {g g₀ : Game} {id : PieceId} {q : Piece} {t : Point} {ply : Ply}

/-- A promotion of a chessman is to a queen. -/
theorem eq_queen_of_promotes (hstd : g.board.Standard) (h : g.plan? id t = some ply)
    {source goal : Kind} (he : ply.effect = some (.promote source goal)) :
    goal = .standard .queen := by
  obtain ⟨q, hq, -⟩ := source_of_plan? h
  obtain ⟨m, f, hm, hf, -, hside⟩ := exists_followUp_of_plan? hq h he
  obtain ⟨n, _, rfl, rfl, -⟩ := followUp_of_sideEffect? hside
  obtain ⟨c, hc⟩ := hstd id q hq
  rw [hc] at hm
  rcases Chessman.followUp_cases hm with hnone | ⟨-, rfl | rfl⟩ | ⟨-, rfl | hqueen⟩
  · rw [hnone] at hf
    cases hf
  · cases hf
  · cases hf
  · cases hf
  · rw [hqueen] at hf
    cases hf
    rfl

/-- A planned ply of a pawn is its first one and goes two ranks ahead, or it goes to a neighbouring
point. -/
theorem pawn_plan_cases (hq : g.board.piece? id = some q) (hkind : q.kind = .standard .pawn)
    (h : g.plan? id t = some ply) :
    (ply.first = true ∧ Point.delta ply.source ply.target = (0, q.colour.forward * 2)) ∨
      ((Point.delta ply.source ply.target).1.natAbs ≤ 1 ∧
        (Point.delta ply.source ply.target).2 = q.colour.forward) := by
  obtain ⟨m, hm, hmem, hply, -⟩ := exists_movement_of_plan? hq h
  rw [hkind] at hm
  obtain ⟨hjump, hback⟩ := Orthodox.pawn_ahead hm
  obtain ⟨-, hleap, -, -, hholds⟩ := (Movement.mem_candidates_of_jump hjump).1 hmem
  obtain ⟨step, hstep, hfile, hrank⟩ := Orthodox.exists_of_leaps hback hleap
  rw [hply, plyTo]
  rcases Orthodox.pawn_near hm with rfl | hnear
  · left
    have hmoved : Condition.flag .mover .moved false ∈ Orthodox.pawnDoubleStep.conditions := by
      decide +kernel
    have hmoved := (Condition.holds_mover_moved_iff hq).1 (hholds _ hmoved)
    obtain rfl : step = .ofCoords 0 2 := List.mem_singleton.1 hstep
    refine ⟨?_, Prod.ext (Int.natAbs_eq_zero.1 hfile) hrank⟩
    rw [hmoved, Bool.not_false]
  · right
    obtain ⟨hx, hy⟩ := hnear step hstep
    refine ⟨Nat.le_trans (Nat.le_of_eq hfile) hx, hrank.trans ?_⟩
    rw [hy, Int.natCast_one, Int.mul_one]
    rfl

/-- The mover of the latest ply stands on its target. -/
theorem Reached.on?_target (h₀ : g₀.Opening) (hg : Reached g₀ g) (hlast : g.lastPly = some ply) :
    g.board.on? ply.target = some ply.piece := by
  obtain ⟨_, _, -, -, -, hstep⟩ := hg.exists_before h₀ hlast
  exact hstep.on?_target

/-- The latest ply, if its mover is a pawn, was a first one over a distance of two exactly if it was
a step of two ranks ahead. -/
theorem Reached.doubleStep_iff (h₀ : g₀.Opening) (hkinds : g₀.board.Standard) (hg : Reached g₀ g)
    (hlast : g.lastPly = some ply) {r : Piece} (hr : g.board.piece? ply.piece = some r)
    (hkind : r.kind = .standard .pawn) :
    ply.first = true ∧ Point.distance ply.source ply.target = 2 ↔
      Point.delta ply.source ply.target = (0, g.turn.other.forward * 2) := by
  -- the ply was planned in the game before it, where its mover was a pawn, for pawns turn to queens
  obtain ⟨g', log, hl', hk', hply, hstep⟩ := hg.exists_before h₀ hlast
  have hstd := kinds_of_line h₀ hkinds hl'
  obtain ⟨q, hq, hbefore⟩ := hstep.kind_eq hr
  have hpawn : q.kind = .standard .pawn := by
    rcases hbefore with hsame | ⟨source, hpromote, -⟩
    · exact hsame.symm.trans hkind
    · have hqueen := eq_queen_of_promotes hstd hply.plan hpromote
      rw [hkind] at hqueen
      cases hqueen
  obtain ⟨q', hq', hcolour⟩ := Board.owns_iff.1 hply.owns
  obtain rfl := Option.some.inj (hq.symm.trans hq')
  have hforward := g.turn.other.forward_eq
  rw [← hcolour] at hforward ⊢
  rw [Point.distance]
  rcases pawn_plan_cases hq hpawn hply.plan with ⟨hfirst, hdelta⟩ | ⟨hfile, hrank⟩
  · simp only [hfirst, hdelta, true_and, iff_true]
    omega
  · rw [Prod.ext_iff]
    omega

/-- The latest ply took a pawn of the side that is not to move over the point: from the one ahead of
it to the one behind it, as the side to move sees them. -/
structure Passes (g : Game) (t : Point) (ply : Ply) : Prop where
  latest : g.lastPly = some ply
  pawn : ∃ r, g.board.piece? ply.piece = some r ∧ r.kind = .standard .pawn ∧
    r.colour = g.turn.other
  source : Point.delta t ply.source = (0, g.turn.forward)
  target : Point.delta t ply.target = (0, -g.turn.forward)

/-- The point behind the target of the side to move. -/
theorem resolve_behind_eq_some_iff (hcolour : q.colour = g.turn) {p : Point} :
    Orthodox.behind.resolve ((g.looking id q).heading t) = some p ↔
      Point.delta t p = (0, -g.turn.forward) := by
  rw [Orthodox.behind, Location.resolve_destination_eq_some_iff, Int.neg_one_mul, ← hcolour]
  rfl

/-- The conditions of taking in passing hold exactly if the latest ply took a pawn over the target. -/
theorem holds_enPassant_iff {pawn : PieceId} (h₀ : g₀.Opening) (hkinds : g₀.board.Standard)
    (hg : Reached g₀ g) (hcolour : q.colour = g.turn) :
    (∀ c ∈ Orthodox.enPassant.conditions, c.holds ((g.looking pawn q).heading t)) ↔
      ∃ ply, g.Passes t ply := by
  have hk := hg.kept h₀
  have hstd : g.board.Standard := (kinds_of_line h₀ hkinds hg.line :)
  generalize hs : (g.looking pawn q).heading t = s
  obtain ⟨hboard, hlog, hside⟩ : s.board = g.board ∧ s.lastPly = g.lastPly ∧ s.colour = g.turn := by
    rw [← hs, ← hcolour]
    exact ⟨rfl, rfl, rfl⟩
  have hbehind : ∀ p, Orthodox.behind.resolve s = some p ↔
      Point.delta t p = (0, -g.turn.forward) := fun p => hs ▸ resolve_behind_eq_some_iff hcolour
  simp only [Orthodox.conditions_enPassant, List.forall_mem_cons, List.not_mem_nil, false_implies,
    implies_true, and_true, Condition.holds_kind_iff, Condition.holds_friendly_iff,
    Condition.holds_same_lastMoved_iff (hboard ▸ hk.sound), Condition.holds_firstMove_iff,
    Condition.holds_distance_iff, decide_eq_false_iff_not, hlog, hside]
  constructor
  · rintro ⟨⟨p, _, r, hshows, hcode⟩, ⟨_, _, _, hshows₁, hhostile⟩, ⟨_, ply, _, hshows₂, hlast⟩,
      ⟨ply₁, hlast₁, hfirst⟩, ply₂, hlast₂, hdistance⟩
    obtain ⟨rfl, rfl, rfl⟩ := hshows.unique hshows₁
    obtain ⟨rfl, rfl, rfl⟩ := hshows.unique hshows₂
    obtain rfl := Option.some.inj (hlast.symm.trans hlast₁)
    obtain rfl := Option.some.inj (hlast.symm.trans hlast₂)
    obtain ⟨hp, hon, hr⟩ := hshows
    rw [hboard] at hon hr
    rw [hbehind] at hp
    obtain ⟨chessman, hkind⟩ := hstd _ r hr
    obtain rfl : chessman = .pawn := Kind.eq_of_code (by rw [← hkind, hcode]; rfl)
    -- the piece behind the target moved last, so it stands where the latest ply ended
    obtain rfl : ply.target = p := hk.sound.on?_inj (hg.on?_target h₀ hlast) hon
    have hstep := (hg.doubleStep_iff h₀ hkinds hlast hr hkind).1 ⟨hfirst, hdistance⟩
    refine ⟨ply, hlast, ⟨r, hr, hkind, (Colour.eq_or_eq_other _ _).resolve_left hhostile⟩, ?_, hp⟩
    rw [Colour.forward_other] at hstep
    simp only [Point.delta, Prod.mk.injEq] at hp hstep ⊢
    omega
  · rintro ⟨ply, hlast, ⟨r, hr, hkind, hcolour'⟩, hsource, htarget⟩
    have hshows : s.Shows Orthodox.behind ply.target ply.piece r :=
      ⟨(hbehind _).2 htarget, hboard ▸ hg.on?_target h₀ hlast, hboard ▸ hr⟩
    obtain ⟨hfirst, hdistance⟩ := (hg.doubleStep_iff h₀ hkinds hlast hr hkind).2 (by
      rw [Colour.forward_other]
      simp only [Point.delta, Prod.mk.injEq] at hsource htarget ⊢
      omega)
    refine ⟨⟨_, _, r, hshows, by rw [hkind]; rfl⟩, ⟨_, _, r, hshows, ?_⟩, ⟨_, ply, r, hshows, hlast⟩,
      ⟨ply, hlast, hfirst⟩, ply, hlast, hdistance⟩
    rw [hcolour']
    exact g.turn.other_ne

section Plan

variable {pawn : PieceId} (h₀ : g₀.Opening) (hg₀ : g₀.Standard) (hg : Reached g₀ g)
  (hcolour : q.colour = g.turn) (hq : g.board.piece? pawn = some q)
  (hkind : q.kind = .standard .pawn)
  (hside : Point.delta q.point t = (1, g.turn.forward) ∨
    Point.delta q.point t = (-1, g.turn.forward)) (hempty : g.board.on? t = none)
include h₀ hg₀ hg hcolour hq hkind hside hempty

/-- A ply that takes a pawn diagonally to an empty point removes the pawn that passed. -/
theorem passes_of_plan? (hplan : g.plan? pawn t = some ply) : ∃ passed, g.Passes t passed ∧
    ply.captured = none ∧ ply.effect = some (.remove passed.piece passed.target) := by
  obtain ⟨m, hm, hmem, hply, heffect⟩ := exists_movement_of_plan? hq hplan
  rw [hkind] at hm
  obtain ⟨hjump, hback⟩ := Orthodox.pawn_ahead hm
  obtain ⟨-, hleap, -, hreach, hholds⟩ := (Movement.mem_candidates_of_jump hjump).1 hmem
  have hmove : m.isMove := by
    change m.reaches _ _ (g.board.pieceAt? t) at hreach
    rw [Board.pieceAt?, hempty, Option.bind_none] at hreach
    exact hreach
  -- the other movements to empty points stay on the file
  obtain rfl : m = Orthodox.enPassant := by
    refine (Orthodox.pawn_quiet hm hmove).resolve_right fun hfile => ?_
    obtain ⟨step, hstep, hx, -⟩ := Orthodox.exists_of_leaps hback hleap
    change (Point.delta q.point t).1.natAbs = step.x.val at hx
    rw [hfile step hstep] at hx
    rcases hside with hd | hd <;> rw [hd] at hx <;> cases hx
  obtain ⟨passed, hpasses⟩ := (holds_enPassant_iff h₀ hg₀.kinds hg hcolour).1 hholds
  obtain ⟨e, hremove, he⟩ := heffect _ rfl
  obtain ⟨r, i, hr, -, hi, -, rfl⟩ := exists_of_sideEffect?_remove hremove
  obtain rfl := Option.some.inj
    (hr.symm.trans ((resolve_behind_eq_some_iff hcolour).2 hpasses.target))
  obtain rfl := Option.some.inj (hi.symm.trans (hg.on?_target h₀ hpasses.latest))
  refine ⟨passed, hpasses, ?_, he⟩
  rw [hply, plyTo]
  exact hempty

/-- A pawn may go diagonally to an empty point that a pawn has passed. -/
theorem exists_plan?_of_passes (hin : g.board.bounds.contains t) {passed : Ply}
    (hpasses : g.Passes t passed) : ∃ ply, g.plan? pawn t = some ply := by
  have hm : Orthodox.enPassant ∈ g.pieceSet.movements q.kind := by
    rw [hkind]
    exact Orthodox.enPassant_mem
  rw [← hcolour] at hside
  refine exists_plan?_of_jump hq hm rfl rfl rfl (Orthodox.leaps_enPassant.2 hside) hin hempty
    ((holds_enPassant_iff h₀ hg₀.kinds hg hcolour).2 ⟨passed, hpasses⟩) ?_
  intro f hf
  obtain rfl : .remove Orthodox.behind = f := Option.some.inj hf
  refine ⟨_, sideEffect?_remove_eq_some ((resolve_behind_eq_some_iff hcolour).2 hpasses.target) ?_
    (hg.on?_target h₀ hpasses.latest) ?_⟩
  · intro htarget
    have hrank := hpasses.target
    rw [htarget, Point.delta, Prod.mk.injEq] at hrank
    have hforward := g.turn.forward_eq
    omega
  · rintro rfl
    -- the pawns are on different sides
    obtain ⟨r, hr, -, hother⟩ := hpasses.pawn
    obtain rfl := Option.some.inj (hq.symm.trans hr)
    exact g.turn.other_ne (hother.symm.trans hcolour)

end Plan

variable {set : PieceSet} {layout : List Char} {config : GameConfig} {board : Board}
  {turn : Colour} {ops : List Operation} {p : Point} {pawn : PieceId}

/-- In every game of a run that is not over, a pawn of the side to move may go to an empty point `t`
diagonally in front of it exactly if the latest ply took a pawn of the other side from the point
ahead of `t` to the one behind it, and the own king is not attacked on the board that results: the
one on which the pawn stands on `t`, the other pawn is gone, and nothing else is changed. That board
is the board of the game after the action, whose latest ply captures nothing on `t` and takes the
other pawn. -/
theorem enPassant_of_run (hstart : start set layout config = .ok g₀)
    (hread : Board.read set config.bounds layout = .ok (board, turn)) (hkinds : board.Standard)
    (hcalm : g₀.kingAttacked g₀.turn.other = false) (hrun : g₀.run ops = .ok g)
    (hover : g.status.isTerminal = false) (hon : g.board.on? p = some pawn)
    (hq : g.board.piece? pawn = some q) (hkind : q.kind = .standard .pawn)
    (hcolour : q.colour = g.turn) (hside : Point.delta p t = (1, g.turn.forward) ∨
      Point.delta p t = (-1, g.turn.forward)) (hin : g.board.bounds.contains t)
    (hempty : g.board.on? t = none) :
    ((∃ status h, g.update ⟨g.turn, p, t⟩ = .ok (.ok status, h)) ↔ ∃ passed b,
      g.Passes t passed ∧ g.board.Rearranged b [(pawn, t)] [passed.piece] ∧
        ({ g with board := b } : Game).kingAttacked g.turn = false) ∧
      ∀ status h, g.update ⟨g.turn, p, t⟩ = .ok (.ok status, h) → ∃ passed ply,
        g.Passes t passed ∧ g.board.Rearranged h.board [(pawn, t)] [passed.piece] ∧
          h.lastPly = some ply ∧ ply.captured = none ∧ ply.taken = some passed.piece := by
  obtain ⟨h₀, hg₀⟩ := opening_of_calm_start hstart hread hkinds hcalm
  have hreached := h₀.reached_of_run hrun
  have hk := hreached.kept h₀
  have hg := hreached.standard h₀ hg₀
  obtain rfl := hk.sound.point_eq hon hq
  have howns : g.board.owns g.turn pawn := Board.owns_iff.2 ⟨q, hq, hcolour⟩
  have hplans : ∀ ply, g.plan? pawn t = some ply → ∃ passed, g.Passes t passed ∧
      ply.Rearranges [(pawn, t)] [passed.piece] := by
    intro ply hplan
    obtain ⟨passed, hpasses, hcaptured, he⟩ :=
      passes_of_plan? h₀ hg₀ hreached hcolour hq hkind hside hempty hplan
    refine ⟨passed, hpasses, ?_, ?_, fun source target hpromote => ?_⟩
    · rw [Ply.arrivals, he, piece_of_plan? hplan, target_of_plan? hplan]
    · rw [Ply.leavers, he, hcaptured]
      rfl
    · rw [he] at hpromote
      cases hpromote
  have hunique : ∀ passed passed', g.Passes t passed → g.Passes t passed' → passed = passed' :=
    fun _ _ h h' => Option.some.inj (h.latest.symm.trans h'.latest)
  refine ⟨?_, fun status h hupdate => ?_⟩
  · exact hg.exists_accepted_iff_described hk hover hon howns hplans
      (fun _ => exists_plan?_of_passes h₀ hg₀ hreached hcolour hq hkind hside hempty hin) hunique
  · obtain ⟨passed, ply, hpasses, hplan, hlast, hb⟩ :=
      Standard.accepted_of_described hk hon hplans hupdate
    obtain ⟨passed', hpasses', hcaptured, he⟩ :=
      passes_of_plan? h₀ hg₀ hreached hcolour hq hkind hside hempty hplan
    obtain rfl := hunique _ _ hpasses hpasses'
    exact ⟨passed, ply, hpasses, hb, hlast, hcaptured, by rw [Ply.taken, he]⟩

/-- A pawn that has gone two ranks ahead, back and ahead again is taken in passing on a board of three
files and four ranks. -/
theorem enPassant_of_run_small : ∃ g₀ g status h passed ply,
    start .orthodox "b wKc1 wPb2 bPa4* bKc4".toList
        { bounds := ⟨.origin, .ofCoords 2 3, by decide, by decide, by decide, by decide⟩ } =
        .ok g₀ ∧
      g₀.run [.update ⟨.black, .ofCoords 0 3, .ofCoords 0 1⟩, .undo 1 true, .redo 1] = .ok g ∧
      g.update ⟨g.turn, .ofCoords 1 1, .ofCoords 0 2⟩ = .ok (.ok status, h) ∧
      g.Passes (.ofCoords 0 2) passed ∧
      g.board.Rearranged h.board [(⟨1⟩, .ofCoords 0 2)] [passed.piece] ∧
      h.lastPly = some ply ∧ ply.captured = none ∧ ply.taken = some passed.piece := by
  obtain ⟨g₀, g, board, turn, status, h, hstart, hread, hkinds, hcalm, hrun, htest, hupdate⟩ :=
    exists_calm_accepted "b wKc1 wPb2 bPa4* bKc4".toList
      { bounds := ⟨.origin, .ofCoords 2 3, by decide, by decide, by decide, by decide⟩ }
      [.update ⟨.black, .ofCoords 0 3, .ofCoords 0 1⟩, .undo 1 true, .redo 1]
      (fun g => !g.status.isTerminal && g.turn = .white &&
        g.board.piece? ⟨1⟩ = some ⟨.white, .standard .pawn, .ofCoords 1 1, true⟩ &&
        g.board.on? (.ofCoords 1 1) = some ⟨1⟩ && g.board.on? (.ofCoords 0 2) = none &&
        g.board.bounds.contains (.ofCoords 0 2)) (.ofCoords 1 1) (.ofCoords 0 2)
      (by decide +kernel)
  simp only [Bool.and_eq_true, Bool.not_eq_true', decide_eq_true_eq] at htest
  obtain ⟨⟨⟨⟨⟨hover, hturn⟩, hq⟩, hon⟩, hempty⟩, hin⟩ := htest
  have hside : Point.delta (.ofCoords 1 1) (.ofCoords 0 2) = (-1, g.turn.forward) := by
    rw [hturn]
    rfl
  obtain ⟨passed, ply, htaken⟩ := (enPassant_of_run hstart hread hkinds hcalm hrun hover hon hq rfl
    hturn.symm (.inr hside) hin hempty).2 status h hupdate
  exact ⟨g₀, g, status, h, passed, ply, hstart, hrun, hupdate, htaken⟩

end Game

end VariantChess
