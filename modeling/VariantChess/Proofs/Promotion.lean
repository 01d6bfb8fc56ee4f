import VariantChess.Proofs.KindCodes

/-!
# Promotion

A pawn's step and its capture come twice, once for targets with a point of the board ahead of them
and once for the last rank. The double step comes once, and it does not ask what lies ahead. So a
pawn that arrives on its last rank becomes a queen, unless it comes there by its double step. Taking
in passing never leads there, for the pawn that is taken has come from the point ahead of the target.

From a layout that lets no double step end on the last rank, and that has no pawn there, no game is
reached that has one there.
-/

namespace VariantChess

/-- Whether a point lies on the last rank of a colour, with nothing of the board ahead of it. -/
def Bounds.lastRank (b : Bounds) (c : Colour) (p : Point) : Bool :=
  !(p.offset? 0 c.forward).any b.contains

/-- The displacement of a colour's double step. -/
def Colour.doubleStep (c : Colour) : Int × Int := (0, c.forward * 2)

/-- The condition on the point ahead tells whether the target lies on the last rank. -/
theorem Condition.holds_ahead_iff {s : Situation} {t : Point} {expected : Bool} :
    (Condition.onBoard Orthodox.ahead expected).holds (s.heading t) ↔
      s.board.bounds.lastRank s.colour t = !expected := by
  have hahead : Orthodox.ahead.resolve (s.heading t) = t.offset? 0 s.colour.forward := by
    refine Option.ext fun p => ?_
    rw [Orthodox.ahead, Location.resolve_destination_eq_some_iff, Point.offset?_eq_some_iff,
      Int.one_mul]
  rw [holds, hahead, Bounds.lastRank, decide_eq_true_eq, Bool.not_eq_eq_eq_not, Bool.not_not]
  rfl

namespace Orthodox

variable {m : Movement}

/-- A pawn makes its double step, takes in passing, or goes to the next rank by a movement that asks
whether there is a point ahead and promotes if there is none. -/
theorem pawn_cases (hm : m ∈ Chessman.pawn.movements) :
    m = pawnDoubleStep ∨ m = enPassant ∨ ∃ expected, .onBoard ahead expected ∈ m.conditions ∧
      m.followUp = (if expected then none else some (.promote .queen)) ∧
      ∀ step ∈ m.template.points, step.y.val = 1 := by
  revert m
  decide +kernel

end Orthodox

namespace Ply

variable {p : Ply} {b b' : Board} {q : Piece}

/-- The mover of a ply that relocates nothing is recorded on the target after it, marked as moved, and
of the kind of a promotion. -/
theorem Step.piece?_mover (h : p.Step b b') (hq : b.piece? p.piece = some q)
    (hstay : ∀ i source goal first, p.effect ≠ some (.relocate i source goal first)) :
    b'.piece? p.piece = some { q with
      point := p.target, moved := true
      kind := match p.effect with
        | some (.promote _ target) => target
        | _ => q.kind } := by
  obtain ⟨q₀, b₁, b₂, hq₀, -, -, -, -, -, hpiece, -, heffect⟩ := h.legs
  obtain rfl := Option.some.inj (hq.symm.trans hq₀)
  have hmover := hpiece p.piece
  rw [if_pos rfl] at hmover
  generalize b₂.revise p.piece ({ · with moved := true }) = b₃ at hmover heffect
  rw [playEffect] at heffect
  split at heffect
  · next he =>
    obtain rfl := Except.ok.inj heffect
    rw [hmover, he]
  · next i source goal first he => exact absurd he (hstay i source goal first)
  · next i place he =>
    obtain ⟨-, -, -, -, -, hpiece₄⟩ := Board.lift_view heffect
    rw [hpiece₄, hmover, he]
  · next source target he =>
    obtain rfl := Except.ok.inj heffect
    rw [Board.piece?_revise, if_pos rfl, hmover, he]
    rfl

end Ply

namespace Board

variable {b : Board} {q : Piece}

/-- A piece is listed if it is recorded where it stands. -/
theorem mem_pieces_iff (hb : b.Sound) : q ∈ b.pieces ↔ b.pieceAt? q.point = some q := by
  simp only [pieces, List.mem_filterMap, hb.mem_ids, has_iff, pieceAt?, Option.bind_eq_some_iff]
  constructor
  · rintro ⟨id, ⟨q', hq', hon⟩, hq⟩
    obtain rfl := Option.some.inj (hq.symm.trans hq')
    exact ⟨id, hon, hq⟩
  · rintro ⟨id, hon, hq⟩
    exact ⟨id, ⟨q, hq, hon⟩, hq⟩

/-- Whether a piece is short of its last rank, and stays so with a double step if it has not moved. -/
def isShort (b : Board) (q : Piece) : Bool :=
  !b.bounds.lastRank q.colour q.point && (q.moved ||
    ((q.point.offset? 0 (q.colour.forward * 2)).filter b.bounds.contains).all fun t =>
      !b.bounds.lastRank q.colour t)

/-- All pawns are short of their last ranks, also with a double step. -/
def PawnsShort (b : Board) : Prop := ∀ q ∈ b.pieces, q.kind = .standard .pawn → b.isShort q

instance (b : Board) : Decidable b.PawnsShort := inferInstanceAs (Decidable (∀ q ∈ b.pieces, _))

/-- An unmoved piece that is short does not get to its last rank by a double step. -/
theorem lastRank_of_isShort (h : b.isShort q) (hmoved : q.moved = false) {t : Point}
    (ht : Point.delta q.point t = q.colour.doubleStep) (hin : b.bounds.contains t) :
    b.bounds.lastRank q.colour t = false := by
  have hoffset : q.point.offset? 0 (q.colour.forward * 2) = some t :=
    Point.offset?_eq_some_iff.2 ht
  rw [isShort, hmoved, hoffset, Option.filter_some, if_pos hin, Bool.false_or, Option.all_some,
    Bool.and_eq_true, Bool.not_eq_true'] at h
  simpa using h.2

/-- Being short depends on the bounds alone. -/
theorem isShort_eq {b' : Board} (hbounds : b'.bounds = b.bounds) (q : Piece) :
    b'.isShort q = b.isShort q := by
  rw [isShort, isShort, hbounds]

end Board

namespace Game

variable {g₀ g h : Game} {id : PieceId} {q : Piece} {t : Point} {ply : Ply}

/-- A planned ply of a pawn promotes it to a queen if it ends on the last rank and is no double step;
otherwise it does nothing else but take in passing. -/
theorem Reached.pawn_effect_cases (h₀ : g₀.Opening) (hkinds : g₀.board.Standard)
    (hg : Reached g₀ g) (hq : g.board.piece? id = some q) (hcolour : q.colour = g.turn)
    (hkind : q.kind = .standard .pawn) (hplan : g.plan? id t = some ply) :
    ((g.board.bounds.lastRank q.colour t ∧ Point.delta q.point t ≠ q.colour.doubleStep) ∧
        ∃ source, ply.effect = some (.promote source (.standard .queen))) ∨
      ((g.board.bounds.lastRank q.colour t → Point.delta q.point t = q.colour.doubleStep) ∧
        (ply.effect = none ∨ ∃ i place, ply.effect = some (.remove i place))) := by
  obtain ⟨m, hm, hmem, hply, heffect⟩ := exists_movement_of_plan? hq hplan
  have he : ply.effect = m.followUp.bind (g.sideEffect? (g.looking id q) t) := by rw [hply, plyTo]
  rw [hkind] at hm
  obtain ⟨hjump, hback⟩ := Orthodox.pawn_ahead hm
  obtain ⟨-, hleap, -, -, hholds⟩ := (Movement.mem_candidates_of_jump hjump).1 hmem
  obtain ⟨step, hstep, hfile, hrank⟩ := Orthodox.exists_of_leaps hback hleap
  change (Point.delta q.point t).1.natAbs = step.x.val at hfile
  change (Point.delta q.point t).2 = q.colour.forward * step.y.val at hrank
  rcases Orthodox.pawn_cases hm with rfl | rfl | ⟨expected, hahead, hfollow, hnext⟩
  · obtain rfl : step = .ofCoords 0 2 := List.mem_singleton.1 hstep
    exact .inr ⟨fun _ => Prod.ext (Int.natAbs_eq_zero.1 hfile) hrank, .inl he⟩
  · -- the pawn that is taken has come from the point ahead of the target
    obtain ⟨passed, hpasses⟩ := (holds_enPassant_iff h₀ hkinds hg hcolour).1 hholds
    obtain ⟨g', _, -, -, hply', hstep'⟩ := hg.exists_before h₀ hpasses.latest
    have hin : g.board.bounds.contains passed.source := by
      rw [hstep'.agreeOff.bounds]
      exact Board.contains_of_on? hply'.stands
    have hshort : g.board.bounds.lastRank q.colour t = false := by
      rw [Bounds.lastRank, hcolour, Point.offset?_eq_some_iff.2 hpasses.source, Option.any_some,
        hin, Bool.not_true]
    obtain ⟨e, hremove, he⟩ := heffect _ rfl
    obtain ⟨_, _, -, -, -, -, rfl⟩ := exists_of_sideEffect?_remove hremove
    exact .inr ⟨fun hlast => absurd hlast (by rw [hshort]; exact Bool.false_ne_true),
      .inr ⟨_, _, he⟩⟩
  · have hlast := Condition.holds_ahead_iff.1 (hholds _ hahead)
    change g.board.bounds.lastRank q.colour t = !expected at hlast
    cases expected with
    | true =>
      rw [hfollow] at he
      exact .inr ⟨fun h => absurd (h.symm.trans hlast) (by decide), .inl he⟩
    | false =>
      obtain ⟨e, hpromote, he⟩ := heffect _ hfollow
      obtain ⟨r, -, rfl⟩ := exists_of_sideEffect?_promote hpromote
      refine .inl ⟨⟨hlast, fun hdouble => ?_⟩, r.kind, he⟩
      rw [hdouble, hnext step hstep] at hrank
      have hforward := q.colour.forward_eq
      change q.colour.forward * 2 = q.colour.forward * (1 : Nat) at hrank
      omega

/-- After a ply of a pawn the pawn stands on the target, marked as moved; it is a queen if that is the
last rank and the ply was no double step, and still a pawn otherwise. -/
theorem Reached.pawn_after (h₀ : g₀.Opening) (hkinds : g₀.board.Standard) (hg : Reached g₀ g)
    (hq : g.board.piece? ply.piece = some q) (hcolour : q.colour = g.turn)
    (hkind : q.kind = .standard .pawn) (hplan : g.plan? ply.piece ply.target = some ply)
    {b : Board} (hstep : ply.Step g.board b) :
    b.pieceAt? ply.target = some { q with
      point := ply.target, moved := true
      kind :=
        if g.board.bounds.lastRank q.colour ply.target ∧
            Point.delta ply.source ply.target ≠ q.colour.doubleStep then .standard .queen
        else .standard .pawn } := by
  obtain ⟨q', hq', hsource⟩ := source_of_plan? hplan
  obtain rfl := Option.some.inj (hq.symm.trans hq')
  have hmover := hstep.piece?_mover hq
  rw [Board.pieceAt?, hstep.on?_target, Option.bind_some, hsource]
  rcases hg.pawn_effect_cases h₀ hkinds hq hcolour hkind hplan with
    ⟨hlast, source, he⟩ | ⟨hshort, he | ⟨i, place, he⟩⟩
  · rw [hmover (by simp [he]), if_pos hlast, he]
  · rw [hmover (by simp [he]), if_neg fun h => h.2 (hshort h.1), he, hkind]
  · rw [hmover (by simp [he]), if_neg fun h => h.2 (hshort h.1), he, hkind]

/-- A planned double step of a pawn that is short does not end on its last rank. -/
theorem lastRank_of_doubleStep (hq : g.board.piece? ply.piece = some q)
    (hkind : q.kind = .standard .pawn) (hplan : g.plan? ply.piece ply.target = some ply)
    (hshort : g.board.isShort q)
    (hdouble : Point.delta ply.source ply.target = q.colour.doubleStep)
    (hfirst : q.moved = !ply.first) : g.board.bounds.lastRank q.colour ply.target = false := by
  obtain ⟨q', hq', hsource⟩ := source_of_plan? hplan
  obtain rfl := Option.some.inj (hq.symm.trans hq')
  rcases pawn_plan_cases hq hkind hplan with ⟨hunmoved, -⟩ | ⟨-, hrank⟩
  · rw [hunmoved, Bool.not_true] at hfirst
    exact Board.lastRank_of_isShort hshort hfirst (hsource ▸ hdouble) (contains_of_plan? hplan)
  · have hforward := q.colour.forward_eq
    rw [hdouble, Colour.doubleStep] at hrank
    omega

/-- If all pawns are short of their last ranks, also with a double step, a pawn that is still one after
its ply has not come to its last rank. -/
theorem Reached.lastRank_of_step (h₀ : g₀.Opening) (hkinds : g₀.board.Standard)
    (hg : Reached g₀ g) (hshort : g.board.PawnsShort) (hply : g.Planned g.turn ply) {b : Board}
    (hstep : ply.Step g.board b) (hq : g.board.piece? ply.piece = some q)
    (hcolour : q.colour = g.turn) (hkind : q.kind = .standard .pawn) {q' : Piece}
    (hq' : b.pieceAt? ply.target = some q') (hpawn : q'.kind = .standard .pawn) :
    g.board.bounds.lastRank q.colour ply.target = false := by
  rw [← Bool.not_eq_true]
  intro hlast
  have hdouble : Point.delta ply.source ply.target = q.colour.doubleStep := by
    by_contra hne
    rw [hg.pawn_after h₀ hkinds hq hcolour hkind hply.plan hstep, if_pos ⟨hlast, hne⟩] at hq'
    obtain rfl := Option.some.inj hq'
    cases hpawn
  obtain ⟨q₀, hq₀, hsource, hmoved⟩ := hstep.records.mover
  obtain rfl := Option.some.inj (hq.symm.trans hq₀)
  have hlisted : q ∈ g.board.pieces := by
    rw [Board.mem_pieces_iff (hg.kept h₀).sound, Board.pieceAt?, hsource, hply.stands,
      Option.bind_some, hq]
  rw [lastRank_of_doubleStep hq hkind hply.plan (hshort q hlisted hkind) hdouble hmoved] at hlast
  cases hlast

/-- If all pawns are short of their last ranks, also with a double step, they still are after a
planned ply of the side to move. -/
theorem Reached.pawnsShort_of_step (h₀ : g₀.Opening) (hkinds : g₀.board.Standard)
    (hg : Reached g₀ g) (hshort : g.board.PawnsShort) (hply : g.Planned g.turn ply) {b : Board}
    (hstep : ply.Step g.board b) : b.PawnsShort := by
  have hb := (hg.kept h₀).sound
  have hstd : g.board.Standard := (kinds_of_line h₀ hkinds hg.line :)
  obtain ⟨q, hq, hcolour⟩ := Board.owns_iff.1 hply.owns
  intro q' hq' hpawn
  have hstands := (Board.mem_pieces_iff (hstep.sound hb)).1 hq'
  obtain ⟨i, hon, hi⟩ := Option.bind_eq_some_iff.1 hstands
  obtain ⟨r, hr, hkind⟩ := hstep.kind_eq hi
  rw [Board.isShort_eq hstep.agreeOff.bounds]
  rcases hstep.on?_cases hb hon with ⟨rfl, htarget⟩ | ⟨source, goal, first, he⟩ | ⟨hmem, hbefore⟩
  · -- the mover was a pawn before, since no piece is promoted to one
    obtain rfl := Option.some.inj (hq.symm.trans hr)
    have hbefore : q.kind = .standard .pawn := by
      rcases hkind with hsame | ⟨source, hpromote, -⟩
      · exact hsame.symm.trans hpawn
      · have hqueen := eq_queen_of_promotes hstd hply.plan hpromote
        rw [hpawn] at hqueen
        cases hqueen
    rw [htarget] at hstands
    have hlast := hg.lastRank_of_step h₀ hkinds hshort hply hstep hq hcolour hbefore hstands hpawn
    obtain rfl := Option.some.inj
      (hstands.symm.trans (hg.pawn_after h₀ hkinds hq hcolour hbefore hply.plan hstep))
    rw [Board.isShort, hlast, Bool.not_false, Bool.true_and, Bool.true_or]
  · -- a king relocates a rook
    have hking := (plainEffect_of_plan? hb (plain_of_standard hstd) hply.plan hq).of_relocate he
    obtain ⟨r', hr', hcode, -⟩ := code_of_relocated hq hking.1 hply.plan he
    obtain rfl := Option.some.inj (hr.symm.trans hr')
    rcases hkind with hsame | ⟨source, hpromote, -⟩
    · rw [← hsame, hpawn] at hcode
      exact absurd hcode (by decide)
    · rw [he] at hpromote
      cases hpromote
  · have hrecord := hstep.agreeOff.record i hmem
    refine hshort q' ((Board.mem_pieces_iff hb).2 ?_) hpawn
    rw [Board.pieceAt?, hbefore, Option.bind_some, ← hrecord, hi]

/-- On a line from such a board all pawns stay short of their last ranks. -/
theorem pawnsShort_of_line (h₀ : g₀.Opening) (hkinds : g₀.board.Standard)
    (hshort : g₀.board.PawnsShort) {log : List LogEntry} (hl : Line g₀ log g) :
    g.board.PawnsShort := by
  induction log generalizing g with
  | nil => exact hl.eq_start ▸ hshort
  | cons e rest ih =>
    obtain ⟨g', hl', hk, hvet, -, hf, -⟩ := hl.cases_next h₀
    exact (hl'.reached h₀).pawnsShort_of_step h₀ hkinds (ih hl') (hk.planned_of_vet hvet) hf.step

variable {set : PieceSet} {layout : List Char} {config : GameConfig} {board : Board}
  {turn : Colour} {ops : List Operation}

/-- In every game of a run with chessmen only, from any layout and on any board, an accepted action
of a pawn takes it to the target as a queen if the target is on the last rank and the action is no
double step, and as a pawn otherwise. If all pawns of the layout are short of their last ranks, also
with a double step, no pawn stands on its last rank. -/
theorem promotion_of_run (hstart : start set layout config = .ok g₀)
    (hread : Board.read set config.bounds layout = .ok (board, turn)) (hkinds : board.Standard)
    (hrun : g₀.run ops = .ok g) :
    (∀ a status h q, g.update a = .ok (.ok status, h) → g.board.pieceAt? a.source = some q →
      q.kind = .standard .pawn → h.board.pieceAt? a.target = some { q with
        point := a.target, moved := true
        kind :=
          if g.board.bounds.lastRank q.colour a.target ∧
              Point.delta a.source a.target ≠ q.colour.doubleStep then .standard .queen
          else .standard .pawn }) ∧
      (board.PawnsShort → ∀ p q, g.board.pieceAt? p = some q → q.kind = .standard .pawn →
        g.board.bounds.lastRank q.colour p = false) := by
  have h₀ := opening_of_start hstart hread (regular_setUp set config turn hkinds)
  have hreached := h₀.reached_of_run hrun
  have hk := hreached.kept h₀
  have hboard : g₀.board = board :=
    (samePosition_of_start hstart hread (regular_setUp set config turn hkinds)).board.trans
      board_setUp
  have hkinds₀ : g₀.board.Standard := hboard ▸ hkinds
  refine ⟨fun a status h q hupdate hsource hpawn => ?_, fun hshort p q hp hpawn => ?_⟩
  · obtain ⟨_, hr, -⟩ | ⟨ply, _, -, hvet, -, hf, -⟩ := hk.update_cases hupdate
    · cases hr
    · obtain ⟨-, rfl⟩ := hk.of_vet hvet
      have hply := hk.planned_of_vet hvet
      obtain ⟨q', hq, hcolour⟩ := Board.owns_iff.1 hply.owns
      rw [Board.pieceAt?, hply.stands, Option.bind_some, hq] at hsource
      obtain rfl := Option.some.inj hsource
      exact hreached.pawn_after h₀ hkinds₀ hq hcolour hpawn hply.plan hf.step
  · have hshort' : g.board.PawnsShort :=
      (pawnsShort_of_line h₀ hkinds₀ (hboard.symm ▸ hshort) hreached.line :)
    obtain ⟨id, hon, hid⟩ := Option.bind_eq_some_iff.1 hp
    obtain rfl := hk.sound.point_eq hon hid
    have hq := hshort' q ((Board.mem_pieces_iff hk.sound).2 hp) hpawn
    rw [Board.isShort, Bool.and_eq_true, Bool.not_eq_true'] at hq
    exact hq.1

/-- On a board of three ranks a pawn steps from the second to the third and becomes a queen; it was
short of its last rank. -/
theorem promotion_of_run_small : ∃ g₀ g status h q,
    start .orthodox "w wKa1 wPa2 bKd2".toList oblongConfig = .ok g₀ ∧ g₀.board.PawnsShort ∧
      g₀.run [] = .ok g ∧
      g.update ⟨.white, .ofCoords 0 1, .ofCoords 0 2⟩ = .ok (.ok status, h) ∧
      h.board.pieceAt? (.ofCoords 0 2) = some q ∧ q.kind = .standard .queen ∧
      ∀ p q, g.board.pieceAt? p = some q → q.kind = .standard .pawn →
        g.board.bounds.lastRank q.colour p = false := by
  obtain ⟨g₀, g, status, h, hstart, hrun, hupdate, htest⟩ :=
    exists_accepted .orthodox "w wKa1 wPa2 bKd2".toList oblongConfig []
      ⟨.white, .ofCoords 0 1, .ofCoords 0 2⟩
      (fun g₀ g _ _ => g₀.board.PawnsShort &&
        (g.board.pieceAt? (.ofCoords 0 1)).any fun q => q.kind = .standard .pawn &&
          q.colour = .white && g.board.bounds.lastRank q.colour (.ofCoords 0 2))
      (by decide +kernel)
  simp only [Option.any_eq_true, Bool.and_eq_true, decide_eq_true_eq] at htest
  obtain ⟨hshort, q, hq, ⟨hpawn, hcolour⟩, hrank⟩ := htest
  obtain ⟨-, turn, hread, -⟩ := of_start regular_orthodox hstart
  obtain ⟨haccepted, hnone⟩ := promotion_of_run hstart hread (standard_of_read hread) hrun
  have hafter := haccepted _ status h q hupdate hq hpawn
  rw [if_pos ⟨hrank, by rw [hcolour]; decide⟩] at hafter
  exact ⟨g₀, g, status, h, _, hstart, hshort, hrun, hupdate, hafter, rfl, hnone hshort⟩

/-- On a board of three ranks a pawn that has not moved goes two ranks ahead and is a pawn on its last
rank. -/
theorem promotion_of_run_doubleStep : ∃ g₀ status h q,
    start .orthodox "w wPa1* wKb1 bKd2".toList oblongConfig = .ok g₀ ∧
      (∀ q ∈ g₀.board.pieces, q.kind = .standard .pawn →
        g₀.board.bounds.lastRank q.colour q.point = false) ∧
      g₀.update ⟨.white, .ofCoords 0 0, .ofCoords 0 2⟩ = .ok (.ok status, h) ∧
      h.board.pieceAt? (.ofCoords 0 2) = some q ∧ q.kind = .standard .pawn ∧
      h.board.bounds.lastRank q.colour (.ofCoords 0 2) := by
  obtain ⟨g₀, g, status, h, hstart, hrun, hupdate, htest⟩ :=
    exists_accepted .orthodox "w wPa1* wKb1 bKd2".toList oblongConfig []
      ⟨.white, .ofCoords 0 0, .ofCoords 0 2⟩
      (fun g₀ _ _ h =>
        decide (∀ q ∈ g₀.board.pieces, q.kind = .standard .pawn →
          g₀.board.bounds.lastRank q.colour q.point = false) &&
        (h.board.pieceAt? (.ofCoords 0 2)).any fun q =>
          q.kind = .standard .pawn && h.board.bounds.lastRank q.colour (.ofCoords 0 2))
      (by decide +kernel)
  obtain rfl := Except.ok.inj hrun
  simp only [Option.any_eq_true, Bool.and_eq_true, decide_eq_true_eq] at htest
  obtain ⟨hnone, q, hq, hpawn, hrank⟩ := htest
  exact ⟨g₀, status, h, q, hstart, hnone, hupdate, hq, hpawn, hrank⟩

end Game

end VariantChess
