import VariantChess.Proofs.Conditions
import VariantChess.Proofs.Rearrangement

/-!
# Castling

A king castles by a jump of two files that is gated by seven conditions and followed by a
relocation. In a standard game an action of this shape can be made by no other movement, so it is
planned exactly if the conditions hold; the relocation can then always be carried out. They are the
textbook's, apart from the last: that the king is not attacked where it lands is left to the trial
that every action is put to.
-/

namespace VariantChess

/-- The wings on which a king castles. -/
inductive Wing where
  | king
  | queen
  deriving DecidableEq, Repr

namespace Wing

/-- The file direction in which the king goes. -/
def side : Wing → Int
  | .king => 1
  | .queen => -1

/-- The number of files from the king to the rook. -/
def rookSteps : Wing → Nat
  | .king => 3
  | .queen => 4

/-- The movement that castles on a wing. -/
def castling (w : Wing) : Movement := Orthodox.castle w.side (w.side * w.rookSteps)

/-- The location of the rook. -/
def corner (w : Wing) : Location := Location.origin.offset (w.side * w.rookSteps) 0

/-- The location that the king crosses. -/
def crossing (w : Wing) : Location := Location.origin.offset w.side 0

variable {s : Situation} {p : Point}

/-- The rook's location lies its number of files away from the mover. -/
theorem resolve_corner_eq_some_iff (w : Wing) :
    w.corner.resolve s = some p ↔ s.origin.Along (w.side, 0) w.rookSteps p := by
  rw [corner, Location.resolve_origin_eq_some_iff, Point.Along, Int.zero_mul, Int.zero_mul]

/-- The location that the king crosses is next to the mover. -/
theorem resolve_crossing_eq_some_iff (w : Wing) :
    w.crossing.resolve s = some p ↔ s.origin.Along (w.side, 0) 1 p := by
  rw [crossing, Location.resolve_origin_eq_some_iff, Point.Along, Int.zero_mul, Int.zero_mul,
    Int.natCast_one, Int.mul_one]

theorem isStep (w : Wing) : Point.IsStep (w.side, 0) := by
  cases w <;> exact ⟨by decide, by decide, by decide⟩

theorem two_lt_rookSteps (w : Wing) : 2 < w.rookSteps := by cases w <;> decide

/-- A king steps or castles. -/
theorem mem_movements_king {m : Movement} :
    m ∈ Chessman.king.movements ↔ m = Orthodox.kingStep ∨ ∃ w : Wing, m = w.castling := by
  have hking : Wing.king.castling = Orthodox.castle 1 3 := rfl
  have hqueen : Wing.queen.castling = Orthodox.castle (-1) (-4) := rfl
  constructor
  · intro hm
    rcases List.mem_cons.1 hm with rfl | hm
    · exact .inl rfl
    · rcases List.mem_cons.1 hm with rfl | hm
      · exact .inr ⟨.king, rfl⟩
      · exact .inr ⟨.queen, List.mem_singleton.1 hm⟩
  · rintro (rfl | ⟨w, rfl⟩)
    · exact List.mem_cons_self
    · cases w with
      | king => exact List.mem_cons_of_mem _ List.mem_cons_self
      | queen => exact List.mem_cons_of_mem _ (List.mem_cons_of_mem _ List.mem_cons_self)

/-- Castling goes two files. -/
theorem leaps_castling (w : Wing) {c : Colour} {d : Int × Int} :
    w.castling.Leaps c d ↔ d = (w.side * 2, 0) := by
  cases w <;>
    simp [Movement.Leaps, castling, side, Orthodox.castle, Movement.quadrants, Movement.when,
      Movement.followedBy, Movement.moveOnly, Movement.inOneQuadrant, Movement.reflected,
      Movement.jump, Point.ofCoords]

/-- A step of the king goes one file at most. -/
theorem natAbs_le_of_leaps_kingStep {c : Colour} {d : Int × Int}
    (h : Orthodox.kingStep.Leaps c d) : d.1.natAbs ≤ 1 := by
  obtain ⟨q, hq, step, hstep, rfl⟩ := h
  rcases (Movement.sign_of_mem_quadrants hq).1 with hx | hx <;>
  · simp [Orthodox.kingStep, Movement.reflected, Movement.jump] at hstep
    rcases hstep with rfl | rfl | rfl <;> simp [hx, Point.ofCoords]

/-- The seven conditions of castling. -/
theorem conditions_castling (w : Wing) : w.castling.conditions =
    [.flag .mover .moved false, .kind (.standing w.corner) "R",
      .flag (.standing w.corner) .friendly true, .flag (.standing w.corner) .moved false,
      .vacant (.path .origin w.corner), .threat .origin false, .threat w.crossing false] :=
  rfl

end Wing

namespace Game

variable {g : Game} {w : Wing} {k t crossed : Point} {king rook : PieceId} {q : Piece} {ply : Ply}

/-- What castling on a wing asks of the position, for the king on `k`: it has not moved, a rook of its
side that has not moved stands at its distance on the same rank, nothing stands between them, and
the other side threatens neither the king nor the point that it crosses. -/
structure MayCastle (g : Game) (w : Wing) (k : Point) (king rook : PieceId) (crossed : Point) :
    Prop where
  king : g.board.on? k = some king ∧ ∃ q, g.board.piece? king = some q ∧ q.moved = false
  rook : ∃ r q, k.Along (w.side, 0) w.rookSteps r ∧ g.board.on? r = some rook ∧
    g.board.piece? rook = some q ∧ q.kind = .standard .rook ∧ q.colour = g.turn ∧ q.moved = false
  clear : ∀ i p, 0 < i → i < w.rookSteps → k.Along (w.side, 0) i p → g.board.on? p = none
  crosses : k.Along (w.side, 0) 1 crossed
  calm : (g.threats.get g.turn.other).threatens k = false
  safe : (g.threats.get g.turn.other).threatens crossed = false

/-- The rook and the point that the king crosses are determined. -/
theorem MayCastle.unique {rook' : PieceId} {crossed' : Point}
    (h : g.MayCastle w k king rook crossed) (h' : g.MayCastle w k king rook' crossed') :
    rook = rook' ∧ crossed = crossed' := by
  obtain ⟨r, _, hr, hrook, -⟩ := h.rook
  obtain ⟨r', _, hr', hrook', -⟩ := h'.rook
  obtain rfl := hr.unique hr'
  exact ⟨Option.some.inj (hrook.symm.trans hrook'), h.crosses.unique h'.crosses⟩

/-- The conditions of castling hold exactly if the position allows it. -/
theorem holds_castling_iff (hstd : g.board.Standard) (hq : g.board.piece? king = some q)
    (hon : g.board.on? q.point = some king) (hcolour : q.colour = g.turn) :
    (∀ c ∈ w.castling.conditions, c.holds ((g.looking king q).heading t)) ↔
      ∃ rook crossed, g.MayCastle w q.point king rook crossed := by
  generalize hs : (g.looking king q).heading t = s
  obtain ⟨hboard, hmover, horigin, hside, hthreats⟩ : s.board = g.board ∧
      s.board.piece? s.piece = some q ∧ s.origin = q.point ∧ s.colour = g.turn ∧
        s.opposing = some (g.threats.get g.turn.other) := by
    rw [← hs, ← hcolour]
    exact ⟨rfl, hq, rfl, rfl, rfl⟩
  have hcorner : ∀ r, w.corner.resolve s = some r ↔ q.point.Along (w.side, 0) w.rookSteps r :=
    fun r => horigin ▸ w.resolve_corner_eq_some_iff
  have hcrossing : ∀ p, w.crossing.resolve s = some p ↔ q.point.Along (w.side, 0) 1 p :=
    fun p => horigin ▸ w.resolve_crossing_eq_some_iff
  have hpath : ∀ r, w.corner.resolve s = some r →
      ((Condition.vacant (.path .origin w.corner)).holds s ↔
        ∀ i p, 0 < i → i < w.rookSteps → q.point.Along (w.side, 0) i p → g.board.on? p = none) := by
    intro r hr
    rw [Condition.holds_vacant_iff, Reference.resolve, Location.resolve_origin, hr, horigin, hboard]
    exact ((hcorner r).1 hr).filterMap_interior_eq_nil_iff w.isStep
      (Nat.zero_lt_of_lt w.two_lt_rookSteps)
  simp only [Wing.conditions_castling, List.forall_mem_cons, List.not_mem_nil, false_implies,
    implies_true, and_true, Condition.holds_mover_moved_iff hmover, Condition.holds_kind_iff,
    Condition.holds_friendly_iff, Condition.holds_moved_iff, decide_eq_true_eq, hside,
    Condition.holds_threat_iff hthreats (Location.resolve_origin s), horigin]
  constructor
  · rintro ⟨hmoved, ⟨r, rook, q', hshows, hcode⟩, ⟨_, _, _, hshows₁, hfriend⟩,
      ⟨_, _, _, hshows₂, hmoved'⟩, hclear, hcalm, hsafe⟩
    obtain ⟨rfl, rfl, rfl⟩ := hshows.unique hshows₁
    obtain ⟨rfl, rfl, rfl⟩ := hshows.unique hshows₂
    obtain ⟨hr, hrook, hq'⟩ := hshows
    rw [hboard] at hrook hq'
    obtain ⟨crossed, hcrossed⟩ := Condition.exists_of_holds_threat hsafe
    obtain ⟨chessman, hkind⟩ := hstd rook q' hq'
    obtain rfl : chessman = .rook := Kind.eq_of_code (by rw [← hkind, hcode]; rfl)
    exact ⟨rook, crossed, ⟨hon, q, hq, hmoved⟩,
      ⟨r, q', (hcorner r).1 hr, hrook, hq', hkind, hfriend, hmoved'⟩, (hpath r hr).1 hclear,
      (hcrossing crossed).1 hcrossed, hcalm, (Condition.holds_threat_iff hthreats hcrossed).1 hsafe⟩
  · rintro ⟨rook, crossed, hmay⟩
    obtain ⟨-, q₀, hq₀, hmoved⟩ := hmay.king
    obtain rfl := Option.some.inj (hq.symm.trans hq₀)
    obtain ⟨r, q', hr, hrook, hq', hkind, hfriend, hmoved'⟩ := hmay.rook
    have hr' := (hcorner r).2 hr
    have hshows : s.Shows w.corner r rook q' := ⟨hr', hboard ▸ hrook, hboard ▸ hq'⟩
    exact ⟨hmoved, ⟨r, rook, q', hshows, by rw [hkind]; rfl⟩, ⟨r, rook, q', hshows, hfriend⟩,
      ⟨r, rook, q', hshows, hmoved'⟩, (hpath r hr').2 hmay.clear, hmay.calm,
      (Condition.holds_threat_iff hthreats ((hcrossing crossed).2 hmay.crosses)).2 hmay.safe⟩

section Plan

variable (hstd : g.board.Standard) (hq : g.board.piece? king = some q)
  (hon : g.board.on? q.point = some king) (hcolour : q.colour = g.turn)
  (hkind : q.kind = .standard .king) (ht : q.point.Along (w.side, 0) 2 t)
include hstd hq hon hcolour hkind ht

/-- A ply that takes the king two files castles: the conditions hold, and it relocates the rook to the
point that the king crosses. -/
theorem mayCastle_of_plan? (hplan : g.plan? king t = some ply) : ∃ rook crossed,
    g.MayCastle w q.point king rook crossed ∧
      ply.Rearranges [(rook, crossed), (king, t)] [] := by
  obtain ⟨m, hm, hmem, hply, heffect⟩ := exists_movement_of_plan? hq hplan
  rw [hkind] at hm
  rcases Wing.mem_movements_king.1 hm with rfl | ⟨w', rfl⟩
  · obtain ⟨-, hleap, -⟩ := (Movement.mem_candidates_of_jump rfl).1 hmem
    have hfile := Wing.natAbs_le_of_leaps_kingStep hleap
    have hdelta : Point.delta q.point t = (w.side * 2, 0 * 2) := ht
    change (Point.delta q.point t).1.natAbs ≤ 1 at hfile
    rw [hdelta] at hfile
    cases w <;> exact absurd hfile (by decide)
  · obtain ⟨-, hleap, -, -, hholds⟩ := (Movement.mem_candidates_of_jump rfl).1 hmem
    have hdelta : Point.delta q.point t = (w.side * 2, 0 * 2) := ht
    have hleap : Point.delta q.point t = (w'.side * 2, 0) := (Wing.leaps_castling w').1 hleap
    obtain rfl : w' = w := by
      rw [hdelta] at hleap
      revert hleap
      cases w <;> cases w' <;> decide
    obtain ⟨rook, crossed, hmay⟩ := (holds_castling_iff hstd hq hon hcolour).1 hholds
    obtain ⟨e, hrelocate, he⟩ := heffect _ rfl
    obtain ⟨r, p, i, _, hr, hp, hi, -, -, -, -, -, rfl⟩ := exists_of_sideEffect?_relocate hrelocate
    obtain ⟨r', -, hr', hrook, -⟩ := hmay.rook
    obtain rfl := (w'.resolve_corner_eq_some_iff.1 hr).unique hr'
    obtain rfl := Option.some.inj (hi.symm.trans hrook)
    obtain rfl := (w'.resolve_crossing_eq_some_iff.1 hp).unique hmay.crosses
    have hcaptured : ply.captured = none := by
      rw [hply, plyTo]
      exact hmay.clear 2 t Nat.two_pos w'.two_lt_rookSteps ht
    refine ⟨i, p, hmay, ?_, ?_, fun source target hpromote => ?_⟩
    · rw [Ply.arrivals, he, hply, plyTo]
    · rw [Ply.leavers, he, hcaptured, Option.toList_none]
    · rw [he] at hpromote
      cases hpromote

/-- Castling is planned if the conditions hold. -/
theorem exists_plan?_of_mayCastle (hb : g.board.Sound) {crossed : Point}
    (hmay : g.MayCastle w q.point king rook crossed) : ∃ ply, g.plan? king t = some ply := by
  obtain ⟨r, q', hr, hrook, hq', -⟩ := hmay.rook
  have hm : w.castling ∈ g.pieceSet.movements q.kind := by
    rw [hkind]
    exact Wing.mem_movements_king.2 (.inr ⟨w, rfl⟩)
  -- all points from the king to the rook lie on the board
  have hin : ∀ i p, i ≤ w.rookSteps → q.point.Along (w.side, 0) i p →
      g.board.bounds.contains p := by
    intro i p hi hp
    have hfrom := Bounds.contains_iff.1 (Board.contains_of_on? hon)
    have hto := Bounds.contains_iff.1 (Board.contains_of_on? hrook)
    rw [Point.along_iff] at hp hr
    rw [Bounds.contains_iff]
    cases w <;> simp only [Wing.side, Wing.rookSteps] at hp hr hi <;> omega
  have hsteps := w.two_lt_rookSteps
  refine exists_plan?_of_jump hq hm rfl rfl rfl ((Wing.leaps_castling w).2 ht)
    (hin 2 t (Nat.le_of_lt hsteps) ht) (hmay.clear 2 t Nat.two_pos hsteps ht)
    ((holds_castling_iff hstd hq hon hcolour).2 ⟨rook, crossed, hmay⟩) ?_
  intro f hf
  obtain rfl : .relocate w.corner w.crossing = f := Option.some.inj hf
  refine ⟨_, sideEffect?_relocate_eq_some (w.resolve_corner_eq_some_iff.2 hr)
    (w.resolve_crossing_eq_some_iff.2 hmay.crosses) hrook ?_ hq' ?_ ?_ ?_⟩
  · rintro rfl
    -- the king does not stand where the rook does
    obtain rfl := hb.on?_inj hon hrook
    have hzero := hr.count_unique w.isStep (Point.along_zero _ _)
    omega
  · exact hin 1 crossed (by omega) hmay.crosses
  · rintro rfl
    have hsame := hmay.crosses.count_unique w.isStep ht
    omega
  · exact hmay.clear 1 crossed Nat.one_pos (by omega) hmay.crosses

end Plan

variable {g₀ : Game} {set : PieceSet} {layout : List Char} {config : GameConfig} {board : Board}
  {turn : Colour} {ops : List Operation}

/-- In every game of a run that is not over, the king on `k` may go two files to `t` exactly if it has
not moved, a rook of its side that has not moved stands three files away on the king's wing or four
on the queen's, nothing stands between them, the map of the other side threatens neither `k` nor the
point that the king crosses, and the king is not attacked on the board that results: the one on
which the king stands on `t` and that rook on the crossed point, both marked as moved, and nothing
else is changed. That board is the board of the game after the action. -/
theorem castling_of_run (hstart : start set layout config = .ok g₀)
    (hread : Board.read set config.bounds layout = .ok (board, turn)) (hkinds : board.Standard)
    (hcalm : g₀.kingAttacked g₀.turn.other = false) (hrun : g₀.run ops = .ok g)
    (hover : g.status.isTerminal = false) (hking : g.king? g.turn = some k) (w : Wing)
    (ht : k.Along (w.side, 0) 2 t) :
    ((∃ status h, g.update ⟨g.turn, k, t⟩ = .ok (.ok status, h)) ↔
      ∃ king rook crossed b, g.MayCastle w k king rook crossed ∧
        g.board.Rearranged b [(rook, crossed), (king, t)] [] ∧
        ({ g with board := b } : Game).kingAttacked g.turn = false) ∧
      ∀ status h, g.update ⟨g.turn, k, t⟩ = .ok (.ok status, h) → ∃ king rook crossed,
        g.MayCastle w k king rook crossed ∧
          g.board.Rearranged h.board [(rook, crossed), (king, t)] [] := by
  obtain ⟨h₀, hg₀⟩ := opening_of_calm_start hstart hread hkinds hcalm
  have hreached := h₀.reached_of_run hrun
  have hk := hreached.kept h₀
  have hg := hreached.standard h₀ hg₀
  obtain ⟨king, q, hon, hq, hisKing, hcolour⟩ := (hg.king?_eq_some_iff hk).1 hking
  have hkind : q.kind = .standard .king := of_decide_eq_true hisKing
  obtain rfl := hk.sound.point_eq hon hq
  have howns : g.board.owns g.turn king := Board.owns_iff.2 ⟨q, hq, hcolour⟩
  have hplans : ∀ ply, g.plan? king t = some ply → ∃ x : PieceId × Point,
      g.MayCastle w q.point king x.1 x.2 ∧ ply.Rearranges [(x.1, x.2), (king, t)] [] := by
    intro ply hplan
    obtain ⟨rook, crossed, hmay, hply⟩ :=
      mayCastle_of_plan? hg.kinds hq hon hcolour hkind ht hplan
    exact ⟨(rook, crossed), hmay, hply⟩
  refine ⟨?_, fun status h hupdate => ?_⟩
  · rw [hg.exists_accepted_iff_described hk hover hon howns hplans
      (fun _ => exists_plan?_of_mayCastle hg.kinds hq hon hcolour hkind ht hk.sound)
      fun _ _ h h' => Prod.ext (h.unique h').1 (h.unique h').2]
    constructor
    · rintro ⟨⟨rook, crossed⟩, b, hmay, hb, hsafe⟩
      exact ⟨king, rook, crossed, b, hmay, hb, hsafe⟩
    · rintro ⟨king', rook, crossed, b, hmay, hb, hsafe⟩
      obtain rfl := Option.some.inj (hon.symm.trans hmay.king.1)
      exact ⟨(rook, crossed), b, hmay, hb, hsafe⟩
  · obtain ⟨x, _, hmay, -, -, hb⟩ := Standard.accepted_of_described hk hon hplans hupdate
    exact ⟨king, x.1, x.2, hmay, hb⟩

/-- After a move of the rook has been taken back, a king castles with it on a board of four files and
three ranks. -/
theorem castling_of_run_small : ∃ g₀ g status h king rook,
    start .orthodox "w wKa1* wRd1* bKb3".toList
        { bounds := ⟨.origin, .ofCoords 3 2, by decide, by decide, by decide, by decide⟩ } =
        .ok g₀ ∧
      g₀.run [.update ⟨.white, .ofCoords 3 0, .ofCoords 3 1⟩, .undo 1 true] = .ok g ∧
      g.update ⟨g.turn, .ofCoords 0 0, .ofCoords 2 0⟩ = .ok (.ok status, h) ∧
      g.MayCastle .king (.ofCoords 0 0) king rook (.ofCoords 1 0) ∧
      g.board.Rearranged h.board [(rook, .ofCoords 1 0), (king, .ofCoords 2 0)] [] := by
  obtain ⟨g₀, g, board, turn, status, h, hstart, hread, hkinds, hcalm, hrun, htest, hupdate⟩ :=
    exists_calm_accepted "w wKa1* wRd1* bKb3".toList
      { bounds := ⟨.origin, .ofCoords 3 2, by decide, by decide, by decide, by decide⟩ }
      [.update ⟨.white, .ofCoords 3 0, .ofCoords 3 1⟩, .undo 1 true]
      (fun g => !g.status.isTerminal && g.king? g.turn = some (.ofCoords 0 0)) (.ofCoords 0 0)
      (.ofCoords 2 0) (by decide +kernel)
  rw [Bool.and_eq_true, Bool.not_eq_true', decide_eq_true_eq] at htest
  obtain ⟨hover, hking⟩ := htest
  have ht : (Point.ofCoords 0 0).Along (Wing.king.side, 0) 2 (.ofCoords 2 0) := rfl
  obtain ⟨king, rook, crossed, hmay, hb⟩ :=
    (castling_of_run hstart hread hkinds hcalm hrun hover hking .king ht).2 status h hupdate
  obtain rfl : crossed = .ofCoords 1 0 := hmay.crosses.unique rfl
  exact ⟨g₀, g, status, h, king, rook, hstart, hrun, hupdate, hmay, hb⟩

end Game

end VariantChess
