import VariantChess.Proofs.PlainPlan

/-!
# What conditions and jumps ask for

The conditions of the chessmen stated without references and locations: what they say of the pieces
that stand on a point, of the points between two others, and of the opponent's threats. A jump
reaches a point of the board that lies at one of its displacements, if the occupant allows it and
every condition holds. A jump that does not attack thus makes a plan for an empty point if its
conditions hold and its follow-up can be carried out.
-/

namespace VariantChess

namespace Point

variable {p q r : Point} {d : Int × Int} {n : Nat}

/-- The points in the interior of a line lie strictly between its ends. -/
theorem Along.exists_of_mem_interior (hd : IsStep d) (hn : 0 < n) (h : p.Along d n q)
    (hr : r ∈ (Path.between p q).interior) : ∃ i, 0 < i ∧ i < n ∧ p.Along d i r := by
  rw [Path.interior, h.points_between hd hn, ← List.map_tail, ← List.map_dropLast,
    List.mem_map] at hr
  obtain ⟨i, hi, rfl⟩ := hr
  have hne : List.range' 0 n ≠ [] := by
    rw [Ne, List.range'_eq_nil_iff]
    omega
  rw [List.range_succ, List.range_eq_range', List.tail_append_of_ne_nil hne, List.dropLast_concat,
    List.tail_range', List.mem_range'_1] at hi
  exact ⟨i, by omega, by omega, (h.stepped hd (by omega)).2⟩

/-- A path is clear if nothing stands strictly between its ends. -/
theorem Along.filterMap_interior_eq_nil_iff (hd : IsStep d) (hn : 0 < n) (h : p.Along d n q)
    {b : Board} : (Path.between p q).interior.filterMap b.on? = [] ↔
      ∀ i r, 0 < i → i < n → p.Along d i r → b.on? r = none := by
  rw [List.filterMap_eq_nil_iff]
  constructor
  · intro hclear i r hpos hlt hr
    exact hclear r (h.mem_interior hd hr hpos hlt)
  · intro hclear r hr
    obtain ⟨i, hpos, hlt, hr⟩ := h.exists_of_mem_interior hd hn hr
    exact hclear i r hpos hlt hr

end Point

namespace Location

variable {s : Situation} {p t : Point} {dx dy : Int}

/-- A location measured from the mover names the point at that distance. -/
theorem resolve_origin_eq_some_iff : (Location.origin.offset dx dy).resolve s = some p ↔
    Point.delta s.origin p = (dx, dy * s.colour.forward) := by
  rw [← Point.offset?_eq_some_iff]
  simp [resolve, base?, offset, origin]

/-- A location measured from the destination names the point at that distance. -/
theorem resolve_destination_eq_some_iff :
    (Location.destination.offset dx dy).resolve (s.heading t) = some p ↔
      Point.delta t p = (dx, dy * s.colour.forward) := by
  rw [← Point.offset?_eq_some_iff]
  simp [resolve, base?, offset, destination, Situation.heading]

/-- The mover stands on its own location. -/
@[simp] theorem resolve_origin (s : Situation) : Location.origin.resolve s = some s.origin := by
  simp [resolve, base?, origin, Point.offset?_eq_some_iff, Point.delta]

end Location

/-- A location names a point on which a recorded piece stands. -/
structure Situation.Shows (s : Situation) (l : Location) (p : Point) (id : PieceId) (q : Piece) :
    Prop where
  point : l.resolve s = some p
  stands : s.board.on? p = some id
  record : s.board.piece? id = some q

/-- What a location shows is determined. -/
theorem Situation.Shows.unique {s : Situation} {l : Location} {p p' : Point} {id id' : PieceId}
    {q q' : Piece} (h : s.Shows l p id q) (h' : s.Shows l p' id' q') :
    p = p' ∧ id = id' ∧ q = q' := by
  obtain rfl := Option.some.inj (h.point.symm.trans h'.point)
  obtain rfl := Option.some.inj (h.stands.symm.trans h'.stands)
  exact ⟨rfl, rfl, Option.some.inj (h.record.symm.trans h'.record)⟩

namespace Condition

variable {s : Situation} {l : Location} {p : Point} {id : PieceId} {q : Piece} {prop : Property}
  {test : Comparator} {expected : Option Value}

/-- A condition on the mover is one on its record. -/
theorem holds_mover_iff (hq : s.board.piece? s.piece = some q) :
    (Condition.property .mover prop test expected).holds s ↔
      test.test (prop.read q s.colour) expected := by
  simp [holds, Reference.resolve, hq]

/-- A condition on the piece of a location, other than that there is none, says that a recorded piece
stands there and passes. -/
theorem holds_standing_iff (htest : test ≠ .absent) :
    (Condition.property (.standing l) prop test expected).holds s ↔
      ∃ p id q, s.Shows l p id q ∧ test.test (prop.read q s.colour) expected := by
  constructor
  · intro h
    cases hp : l.resolve s with
    | none => simp [holds, Reference.resolve, hp, htest] at h
    | some p =>
      cases hon : s.board.on? p with
      | none => simp [holds, Reference.resolve, hp, hon, htest] at h
      | some id =>
        cases hq : s.board.piece? id with
        | none => simp [holds, Reference.resolve, hp, hon, hq] at h
        | some q => exact ⟨p, id, q, ⟨hp, hon, hq⟩, test_of_standing h hp hon hq⟩
  · rintro ⟨p, id, q, ⟨hp, hon, hq⟩, hpass⟩
    simpa [holds, Reference.resolve, hp, hon, hq] using hpass

/-- What is asked of the kind, the side and the mark of the piece on a location. -/
theorem holds_kind_iff {code : String} : (Condition.kind (.standing l) code).holds s ↔
    ∃ p id q, s.Shows l p id q ∧ q.kind.code = code := by
  rw [kind, holds_standing_iff (by decide)]
  simp [Comparator.test, Property.read, eq_comm]

theorem holds_moved_iff {value : Bool} :
    (Condition.flag (.standing l) .moved value).holds s ↔
      ∃ p id q, s.Shows l p id q ∧ q.moved = value := by
  rw [flag, holds_standing_iff (by cases value <;> decide)]
  cases value <;> simp [Comparator.test, Property.read]

theorem holds_friendly_iff {value : Bool} :
    (Condition.flag (.standing l) .friendly value).holds s ↔
      ∃ p id q, s.Shows l p id q ∧ decide (q.colour = s.colour) = value := by
  rw [flag, holds_standing_iff (by cases value <;> decide)]
  cases value <;> simp [Comparator.test, Property.read]

/-- The piece on a location is the one that moved last. -/
theorem holds_same_lastMoved_iff (hb : s.board.Sound) :
    (Condition.same (.standing l) .lastMoved).holds s ↔
      ∃ p ply q, s.Shows l p ply.piece q ∧ s.lastPly = some ply := by
  rw [same, holds, Reference.resolve, Reference.resolve]
  constructor
  · intro h
    cases hp : l.resolve s with
    | none => simp [comparePieces, hp] at h
    | some p =>
      cases hon : s.board.on? p with
      | none => simp [comparePieces, hp, hon] at h
      | some id =>
        cases hlast : s.lastPly with
        | none => simp [comparePieces, hp, hon, hlast] at h
        | some ply =>
          obtain rfl : id = ply.piece := by
            cases hhas : s.board.has ply.piece <;>
              simp [comparePieces, hp, hon, hlast, hhas, Option.filter_some] at h
            exact h
          obtain ⟨q, hq, -⟩ := hb p _ hon
          exact ⟨p, ply, q, ⟨hp, hon, hq⟩, rfl⟩
  · rintro ⟨p, ply, q, ⟨hp, hon, -⟩, hlast⟩
    have hhas : s.board.has ply.piece := hb.has_iff.2 ⟨p, hon⟩
    simp [hp, hon, hlast, hhas, comparePieces, Option.filter_some]

/-- What is asked of the latest ply. -/
theorem holds_firstMove_iff : (Condition.log .firstMove .isTrue none).holds s ↔
    ∃ ply, s.lastPly = some ply ∧ ply.first = true := by
  simp [holds, Option.any_eq_true, Comparator.test, LogQuery.read]

theorem holds_distance_iff {n : Nat} :
    (Condition.log .distance .equal (some (.int n))).holds s ↔
      ∃ ply, s.lastPly = some ply ∧ Point.distance ply.source ply.target = n := by
  rw [holds, Option.any_eq_true]
  refine exists_congr fun ply => and_congr_right fun _ => ?_
  simp only [Comparator.test, LogQuery.read, decide_eq_true_eq, Option.some.injEq,
    Value.int.injEq, Int.natCast_inj]
  exact eq_comm

/-- What is asked of the mark of the mover. -/
theorem holds_mover_moved_iff (hq : s.board.piece? s.piece = some q) {value : Bool} :
    (Condition.flag .mover .moved value).holds s ↔ q.moved = value := by
  rw [flag, holds_mover_iff hq]
  cases value <;> simp [Comparator.test, Property.read]

/-- A reference is vacant if it names nothing. -/
theorem holds_vacant_iff {ref : Reference} :
    (Condition.vacant ref).holds s ↔ ref.resolve s = [] := by
  cases hids : ref.resolve s with
  | nil => simp [vacant, holds, hids]
  | cons id rest => simp [vacant, holds, hids, Comparator.test]

/-- A threat is judged on a known map and at a known point. -/
theorem holds_threat_iff {threats : ThreatMap} (hthreats : s.opposing = some threats)
    (hp : l.resolve s = some p) {expected : Bool} :
    (Condition.threat l expected).holds s ↔ threats.threatens p = expected := by
  simp [holds, hthreats, hp]

/-- Nothing is known of threats at a point that does not exist. -/
theorem exists_of_holds_threat {expected : Bool} (h : (Condition.threat l expected).holds s) :
    ∃ p, l.resolve s = some p := by
  cases hp : l.resolve s with
  | none => cases ho : s.opposing <;> simp [holds, hp, ho] at h
  | some p => exact ⟨p, rfl⟩

end Condition

namespace Movement

variable {m : Movement} {s : Situation} {mode : Mode} {p : Point}

/-- The displacements of a jump for a colour. -/
def Leaps (m : Movement) (c : Colour) (d : Int × Int) : Prop :=
  ∃ q ∈ m.quadrants c, ∃ step ∈ m.template.points, d = (q.1 * step.x.val, q.2 * step.y.val)

/-- A jump reaches a point of the board at one of its displacements, if the occupant allows it and
every condition holds. -/
theorem mem_candidates_of_jump (hj : m.stride = .jump) : p ∈ m.candidates s mode ↔
    (mode = .threats → m.isAttack) ∧ m.Leaps s.colour (Point.delta s.origin p) ∧
      s.board.bounds.contains p ∧ m.reaches s mode (s.board.pieceAt? p) ∧
      ∀ c ∈ m.conditions, c.holds (s.heading p) := by
  have hwalk : p ∈ m.walk s mode ↔ m.Leaps s.colour (Point.delta s.origin p) ∧
      s.board.bounds.contains p ∧ m.reaches s mode (s.board.pieceAt? p) := by
    rw [mem_walk]
    constructor
    · rintro ⟨q, hq, harm⟩
      obtain ⟨i, step, hstep, hland, hreach, -⟩ := mem_arm.1 harm
      obtain ⟨hdelta, hin⟩ := landing?_eq_some_iff.1 hland
      exact ⟨⟨q, hq, step, List.mem_of_getElem? hstep, hdelta⟩, hin, hreach⟩
    · rintro ⟨⟨q, hq, step, hstep, hdelta⟩, hin, hreach⟩
      obtain ⟨i, hi⟩ := List.mem_iff_getElem?.1 hstep
      refine ⟨q, hq, mem_arm.2 ⟨i, step, hi, landing?_eq_some_iff.2 ⟨hdelta, hin⟩, hreach, ?_⟩⟩
      intro hs
      rw [hj] at hs
      cases hs
  rw [mem_candidates, hwalk]
  simp only [and_assoc]

/-- A movement that does not attack goes to empty points. -/
theorem reaches_moves_iff_of_quiet (hmove : m.isMove) (hattack : m.isAttack = false)
    {occupant : Option Piece} : m.reaches s .moves occupant ↔ occupant = none := by
  cases occupant <;> simp [reaches, hmove, hattack]

end Movement

namespace Game

variable {g : Game} {s : Situation} {id : PieceId} {owner : Piece} {target : Point} {m : Movement}

/-- The situation in which a recorded piece looks for its targets. -/
def looking (g : Game) (id : PieceId) (q : Piece) : Situation :=
  ⟨g.board, g.lastPly, some (g.threats.get q.colour.other), id, q.colour, q.point, none⟩

/-- A recorded piece is in that situation. -/
theorem situation?_eq_looking (hq : g.board.piece? id = some owner) :
    g.situation? id = some (g.looking id owner) :=
  situation?_eq_some_iff.2 ⟨owner, hq, rfl⟩

/-- A relocation of another piece to an empty point of the board other than the target can be carried
out. -/
theorem sideEffect?_relocate_eq_some {source goal : Location} {r p : Point} {i : PieceId} {q : Piece}
    (hsource : source.resolve (s.heading target) = some r)
    (hgoal : goal.resolve (s.heading target) = some p) (hi : g.board.on? r = some i)
    (hne : i ≠ s.piece) (hq : g.board.piece? i = some q) (hin : g.board.bounds.contains p)
    (hp : p ≠ target) (hfree : g.board.on? p = none) :
    g.sideEffect? s target (.relocate source goal) = some (.relocate i r p !q.moved) := by
  have hother : i ≠ (s.heading target).piece := hne
  simp [sideEffect?, hsource, hgoal, hi, Option.filter_some, hother, hq, hin, hp, hfree]

/-- A removal of another piece from a point other than the target can be carried out. -/
theorem sideEffect?_remove_eq_some {place : Location} {r : Point} {i : PieceId}
    (hplace : place.resolve (s.heading target) = some r) (hr : r ≠ target)
    (hi : g.board.on? r = some i) (hne : i ≠ s.piece) :
    g.sideEffect? s target (.remove place) = some (.remove i r) := by
  have hother : i ≠ (s.heading target).piece := hne
  simp [sideEffect?, hplace, hr, hi, Option.filter_some, hother]

/-- The plan of a recorded piece is made by a movement of its kind, whose follow-up, if any, can be
carried out. -/
theorem exists_movement_of_plan? (hq : g.board.piece? id = some owner) {ply : Ply}
    (h : g.plan? id target = some ply) : ∃ m ∈ g.pieceSet.movements owner.kind,
      target ∈ m.candidates (g.looking id owner) .moves ∧
        ply = g.plyTo id owner target
          (m.followUp.bind (g.sideEffect? (g.looking id owner) target)) ∧
        ∀ f, m.followUp = some f →
          ∃ e, g.sideEffect? (g.looking id owner) target f = some e ∧ ply.effect = some e := by
  obtain ⟨q, s, m, howner, hs, hm, hmem, hsome, hply⟩ := exists_of_plan? h
  obtain rfl := Option.some.inj (hq.symm.trans howner)
  obtain rfl := Option.some.inj ((situation?_eq_looking hq).symm.trans hs)
  rw [movementsOf_eq_of_piece? hq] at hm
  refine ⟨m, hm, hmem, hply, fun f hf => ?_⟩
  rw [hf, Option.isSome_some, Option.isSome_iff_exists] at hsome
  obtain ⟨e, he⟩ := hsome
  have heffect : ply.effect = g.sideEffect? (g.looking id owner) target f := by
    rw [hply, plyTo, hf, Option.bind_some]
  exact ⟨e, heffect.symm.trans he, he⟩

/-- The side effect of a plan is what the follow-up of its movement comes to. -/
theorem exists_followUp_of_plan? (hq : g.board.piece? id = some owner) {ply : Ply}
    (h : g.plan? id target = some ply) {e : SideEffect} (he : ply.effect = some e) :
    ∃ m f, m ∈ g.pieceSet.movements owner.kind ∧ m.followUp = some f ∧
      (∀ c ∈ m.conditions, c.holds ((g.looking id owner).heading target)) ∧
      g.sideEffect? (g.looking id owner) target f = some e := by
  obtain ⟨m, hm, hmem, hply, -⟩ := exists_movement_of_plan? hq h
  rw [hply, plyTo, Option.bind_eq_some_iff] at he
  obtain ⟨f, hf, hside⟩ := he
  exact ⟨m, f, hm, hf, (Movement.mem_candidates.1 hmem).2.2, hside⟩

/-- A movement makes a plan for each of its candidates if its follow-up, if any, can be carried out. -/
theorem exists_plan?_of_mem_candidates (hq : g.board.piece? id = some owner)
    (hm : m ∈ g.pieceSet.movements owner.kind)
    (hmem : target ∈ m.candidates (g.looking id owner) .moves)
    (hside : ∀ f, m.followUp = some f →
      ∃ e, g.sideEffect? (g.looking id owner) target f = some e) :
    ∃ ply, g.plan? id target = some ply := by
  have hmake : (g.planBy? (g.looking id owner) owner target m).isSome := by
    refine Option.isSome_iff_exists.2 ⟨_, planBy?_eq_some_iff.2 ⟨hmem, ?_, rfl⟩⟩
    rw [plyTo]
    cases hf : m.followUp with
    | none => rfl
    | some f =>
      obtain ⟨e, he⟩ := hside f hf
      rw [Option.bind_some, he]
      rfl
  rw [plan?, hq, situation?_eq_looking hq, movementsOf_eq_of_piece? hq]
  exact Option.isSome_iff_exists.1 (List.findSome?_isSome_iff.2 ⟨m, hm, hmake⟩)

/-- A jump that does not attack makes a plan for an empty point of the board if its conditions hold
and its follow-up, if any, can be carried out. -/
theorem exists_plan?_of_jump (hq : g.board.piece? id = some owner)
    (hm : m ∈ g.pieceSet.movements owner.kind) (hjump : m.stride = .jump) (hmove : m.isMove)
    (hquiet : m.isAttack = false) (hleap : m.Leaps owner.colour (Point.delta owner.point target))
    (hin : g.board.bounds.contains target) (hempty : g.board.on? target = none)
    (hholds : ∀ c ∈ m.conditions, c.holds ((g.looking id owner).heading target))
    (hside : ∀ f, m.followUp = some f →
      ∃ e, g.sideEffect? (g.looking id owner) target f = some e) :
    ∃ ply, g.plan? id target = some ply := by
  have hreach : m.reaches (g.looking id owner) .moves (g.board.pieceAt? target) := by
    rw [Movement.reaches_moves_iff_of_quiet hmove hquiet, Board.pieceAt?, hempty, Option.bind_none]
  exact exists_plan?_of_mem_candidates hq hm ((Movement.mem_candidates_of_jump hjump).2
    ⟨Mode.noConfusion, hleap, hin, hreach, hholds⟩) hside

end Game

end VariantChess
