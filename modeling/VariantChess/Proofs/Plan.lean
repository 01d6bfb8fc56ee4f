import VariantChess.Game.Planning
import VariantChess.Proofs.PlyStep
import VariantChess.Proofs.Walk

/-!
# What a plan records

A planned ply starts where its mover is recorded, goes to the asked target by one of the mover's
movements, captures what stands there and carries out the side effect that the movement prescribes.
On a sound board it records its pieces as they are, so it can be played and taken back.
-/

namespace VariantChess

namespace Game

variable {g : Game} {s : Situation} {id : PieceId} {owner : Piece} {target : Point} {ply : Ply}

/-- A piece is in a situation exactly when it is recorded. -/
theorem situation?_eq_some_iff : g.situation? id = some s ↔
    ∃ owner, g.board.piece? id = some owner ∧
      s = ⟨g.board, g.lastPly, some (g.threats.get owner.colour.other), id, owner.colour,
        owner.point, none⟩ := by
  rw [situation?]
  cases howner : g.board.piece? id with
  | none => simp
  | some owner => simp [Situation.of?, howner, eq_comm]

/-- The situation of a recorded piece. -/
theorem eq_of_situation? (hs : g.situation? id = some s) (howner : g.board.piece? id = some owner) :
    s = ⟨g.board, g.lastPly, some (g.threats.get owner.colour.other), id, owner.colour,
      owner.point, none⟩ := by
  obtain ⟨q, hq, rfl⟩ := situation?_eq_some_iff.1 hs
  rw [howner] at hq
  rw [Option.some.inj hq]

/-- The destinations of a piece are the candidates of its movements. -/
theorem mem_destinations (hs : g.situation? id = some s) :
    target ∈ g.destinations id ↔ ∃ m ∈ g.movementsOf id, target ∈ m.candidates s .moves := by
  rw [destinations, hs]
  exact List.mem_eraseDups.trans List.mem_flatMap

/-- No destination is listed twice. -/
theorem nodup_destinations (g : Game) (id : PieceId) : (g.destinations id).Nodup := by
  rw [destinations]
  split
  · exact .nil
  · exact nodup_eraseDups _

/-- The ply of going to a target with a given side effect. -/
def plyTo (g : Game) (id : PieceId) (owner : Piece) (target : Point)
    (effect : Option SideEffect) : Ply :=
  { piece := id, source := owner.point, target, captured := g.board.on? target,
    first := !owner.moved, effect }

/-- A movement makes a ply when it reaches the target and its follow-up, if any, comes to a side
effect. -/
theorem planBy?_eq_some_iff {m : Movement} : g.planBy? s owner target m = some ply ↔
    target ∈ m.candidates s .moves ∧ ply.effect.isSome = m.followUp.isSome ∧
      ply = g.plyTo s.piece owner target (m.followUp.bind (g.sideEffect? s target)) := by
  rw [planBy?]
  by_cases hmem : target ∈ m.candidates s .moves
  · rw [if_pos (List.contains_iff_mem.2 hmem)]
    cases hf : m.followUp with
    | none =>
      constructor
      · intro h
        obtain rfl := Option.some.inj h
        exact ⟨hmem, rfl, rfl⟩
      · rintro ⟨-, -, rfl⟩
        rfl
    | some f =>
      cases he : g.sideEffect? s target f with
      | none =>
        refine ⟨fun h => by simp [he] at h, fun ⟨_, hsome, hply⟩ => ?_⟩
        rw [hply] at hsome
        simp [plyTo, he] at hsome
      | some e =>
        constructor
        · intro h
          simp only [he, Option.map_some, Option.some.injEq] at h
          subst h
          exact ⟨hmem, rfl, by rw [Option.bind_some, he]; rfl⟩
        · rintro ⟨-, -, rfl⟩
          simp [plyTo, he]
  · rw [if_neg (mt List.contains_iff_mem.1 hmem)]
    exact ⟨fun h => (Option.some_ne_none _ h.symm).elim, fun h => absurd h.1 hmem⟩

/-- A plan is made by one of the movements of the piece. -/
theorem exists_of_plan? (h : g.plan? id target = some ply) : ∃ owner s m,
    g.board.piece? id = some owner ∧ g.situation? id = some s ∧ m ∈ g.movementsOf id ∧
      target ∈ m.candidates s .moves ∧ ply.effect.isSome = m.followUp.isSome ∧
      ply = g.plyTo id owner target (m.followUp.bind (g.sideEffect? s target)) := by
  rw [plan?] at h
  split at h
  · next owner s howner hs =>
    obtain ⟨m, hm, hplan⟩ := List.exists_of_findSome?_eq_some h
    obtain ⟨hmem, hsome, hply⟩ := planBy?_eq_some_iff.1 hplan
    obtain rfl := eq_of_situation? hs howner
    exact ⟨owner, _, m, howner, hs, hm, hmem, hsome, hply⟩
  · cases h

/-- A planned ply moves the piece that it was asked for. -/
theorem piece_of_plan? (h : g.plan? id target = some ply) : ply.piece = id := by
  obtain ⟨owner, s, m, -, -, -, -, -, hply⟩ := exists_of_plan? h
  rw [hply, plyTo]

/-- A planned ply goes to the target that it was asked for. -/
theorem target_of_plan? (h : g.plan? id target = some ply) : ply.target = target := by
  obtain ⟨owner, s, m, -, -, -, -, -, hply⟩ := exists_of_plan? h
  rw [hply, plyTo]

/-- A planned ply starts where its piece is recorded. -/
theorem source_of_plan? (h : g.plan? id target = some ply) :
    ∃ owner, g.board.piece? id = some owner ∧ ply.source = owner.point := by
  obtain ⟨owner, s, m, howner, -, -, -, -, hply⟩ := exists_of_plan? h
  exact ⟨owner, howner, by rw [hply, plyTo]⟩

/-- A planned target lies on the board. -/
theorem contains_of_plan? (h : g.plan? id target = some ply) : g.board.bounds.contains target := by
  obtain ⟨owner, s, m, howner, hs, -, hmem, -, -⟩ := exists_of_plan? h
  obtain rfl := eq_of_situation? hs howner
  exact Movement.contains_of_mem_candidates hmem

/-- A planned target is a destination of the piece. -/
theorem mem_destinations_of_plan? (h : g.plan? id target = some ply) :
    target ∈ g.destinations id := by
  obtain ⟨owner, s, m, -, hs, hm, hmem, -, -⟩ := exists_of_plan? h
  exact (mem_destinations hs).2 ⟨m, hm, hmem⟩

/-- A relocation that can be carried out moves another piece to a point of the board that is free
once the mover has left, and is not the target. -/
theorem exists_of_sideEffect?_relocate {source goal : Location} {e : SideEffect}
    (he : g.sideEffect? s target (.relocate source goal) = some e) : ∃ r t i q,
      source.resolve (s.heading target) = some r ∧ goal.resolve (s.heading target) = some t ∧
        g.board.on? r = some i ∧ i ≠ s.piece ∧ g.board.piece? i = some q ∧
        g.board.bounds.contains t ∧ t ≠ target ∧
        (∀ j, g.board.on? t = some j → j = s.piece ∨ j = i) ∧
        e = .relocate i r t !q.moved := by
  simp only [sideEffect?, Option.bind_eq_bind, Option.bind_eq_some_iff,
    Option.filter_eq_some_iff] at he
  obtain ⟨r, hr, t, ht, i, ⟨hi, hne⟩, q, hq, he⟩ := he
  split at he
  · next hfree =>
    simp only [Bool.and_eq_true, decide_eq_true_eq, Option.all_eq_true, Bool.or_eq_true] at hfree
    exact ⟨r, t, i, q, hr, ht, hi, of_decide_eq_true hne, hq, hfree.1.1, hfree.1.2,
      fun j hj => hfree.2 j hj, (Option.some.inj he).symm⟩
  · cases he

/-- A removal that can be carried out takes another piece off a point other than the target. -/
theorem exists_of_sideEffect?_remove {place : Location} {e : SideEffect}
    (he : g.sideEffect? s target (.remove place) = some e) : ∃ r i,
      place.resolve (s.heading target) = some r ∧ r ≠ target ∧ g.board.on? r = some i ∧
        i ≠ s.piece ∧ e = .remove i r := by
  simp only [sideEffect?, Option.bind_eq_bind, Option.bind_eq_some_iff,
    Option.filter_eq_some_iff] at he
  obtain ⟨r, ⟨hr, hrt⟩, i, ⟨hi, hne⟩, he⟩ := he
  exact ⟨r, i, hr, of_decide_eq_true hrt, hi, of_decide_eq_true hne, (Option.some.inj he).symm⟩

/-- A promotion turns the recorded mover into a chessman. -/
theorem exists_of_sideEffect?_promote {m : Chessman} {e : SideEffect}
    (he : g.sideEffect? s target (.promote m) = some e) :
    ∃ q, g.board.piece? s.piece = some q ∧ e = .promote q.kind (.standard m) := by
  simp only [sideEffect?, Option.bind_eq_bind, Option.bind_eq_some_iff] at he
  obtain ⟨q, hq, he⟩ := he
  exact ⟨q, hq, (Option.some.inj he).symm⟩

/-- A side effect is of the sort of its follow-up, and a promotion turns the recorded mover into a
chessman. -/
theorem followUp_of_sideEffect? {f : FollowUp} {e : SideEffect}
    (he : g.sideEffect? s target f = some e) :
    match e with
    | .relocate .. => ∃ source goal, f = .relocate source goal
    | .remove .. => ∃ place, f = .remove place
    | .promote source kind => ∃ m q, f = .promote m ∧ kind = .standard m ∧
        g.board.piece? s.piece = some q ∧ q.kind = source := by
  cases f with
  | relocate source goal =>
    obtain ⟨_, _, _, _, -, -, -, -, -, -, -, -, rfl⟩ := exists_of_sideEffect?_relocate he
    exact ⟨source, goal, rfl⟩
  | remove place =>
    obtain ⟨_, _, -, -, -, -, rfl⟩ := exists_of_sideEffect?_remove he
    exact ⟨place, rfl⟩
  | promote m =>
    obtain ⟨q, hq, rfl⟩ := exists_of_sideEffect?_promote he
    exact ⟨m, q, rfl, rfl, hq, rfl⟩

/-- A side effect that can be carried out agrees with the records of a sound board. -/
theorem recordsEffect_of_sideEffect? (hb : g.board.Sound) {f : FollowUp} {e : SideEffect}
    (he : g.sideEffect? s target f = some e) (hpiece : ply.piece = s.piece)
    (heffect : ply.effect = some e) : ply.RecordsEffect g.board := by
  rw [Ply.RecordsEffect, heffect]
  cases f with
  | relocate source goal =>
    obtain ⟨r, t, i, q, -, -, hi, hne, hq, -, -, -, rfl⟩ := exists_of_sideEffect?_relocate he
    exact ⟨hpiece ▸ hne, q, hq, hb.point_eq hi hq, by rw [Bool.not_not]⟩
  | remove place =>
    obtain ⟨r, i, -, -, hi, hne, rfl⟩ := exists_of_sideEffect?_remove he
    exact ⟨hpiece ▸ hne, hb r i hi⟩
  | promote m =>
    obtain ⟨q, hq, rfl⟩ := exists_of_sideEffect?_promote he
    exact ⟨q, hpiece ▸ hq, rfl⟩

/-- On a sound board a planned ply records its pieces. -/
theorem records_of_plan? (hb : g.board.Sound) (h : g.plan? id target = some ply) :
    ply.Records g.board := by
  obtain ⟨owner, s, m, howner, hs, -, -, hsome, hply⟩ := exists_of_plan? h
  have hpiece' : s.piece = id := by rw [eq_of_situation? hs howner]
  have heffect : ply.effect = m.followUp.bind (g.sideEffect? s target) := by rw [hply, plyTo]
  have hpiece : ply.piece = id := piece_of_plan? h
  refine ⟨⟨owner, hpiece ▸ howner, ?_, ?_⟩, fun i hi => ?_, ?_, fun source goal hp => ?_⟩
  · rw [hply, plyTo]
  · rw [hply, plyTo, Bool.not_not]
  · rw [hply, plyTo] at hi ⊢
    exact hb target i hi
  · cases hf : m.followUp with
    | none =>
      rw [hf, Option.bind_none] at heffect
      rw [Ply.RecordsEffect, heffect]
      trivial
    | some f =>
      rw [hf, Option.bind_some] at heffect
      rw [hf, Option.isSome_some, Option.isSome_iff_exists] at hsome
      obtain ⟨e, he⟩ := hsome
      exact recordsEffect_of_sideEffect? hb (heffect.symm.trans he) (hpiece.trans hpiece'.symm) he
  · rw [heffect, Option.bind_eq_some_iff] at hp
    obtain ⟨f, -, hf⟩ := hp
    cases f with
    | relocate source goal =>
      obtain ⟨_, _, _, _, -, -, -, -, -, -, -, -, he⟩ := exists_of_sideEffect?_relocate hf
      cases he
    | remove place =>
      obtain ⟨_, _, -, -, -, -, he⟩ := exists_of_sideEffect?_remove hf
      cases he
    | promote chessman =>
      obtain ⟨q, -, he⟩ := exists_of_sideEffect?_promote hf
      injection he with _ hgoal
      exact ⟨chessman, hgoal⟩

/-- A planned target is not the source, since a piece takes none of its own side. -/
theorem source_ne_target (h : g.plan? id target = some ply)
    (hon : g.board.on? ply.source = some id) : ply.source ≠ ply.target := by
  obtain ⟨owner, s, m, howner, hs, -, hmem, -, -⟩ := exists_of_plan? h
  obtain rfl := eq_of_situation? hs howner
  rw [target_of_plan? h]
  intro heq
  have hpiece : g.board.pieceAt? target = some owner := by
    rw [Board.pieceAt?, ← heq, hon, Option.bind_some, howner]
  exact (Movement.isAttack_of_occupied hmem hpiece).2 rfl

section Playable

variable {b : Board} {e : SideEffect} (hb : g.board.Sound)
  (hon : g.board.on? ply.source = some ply.piece) (harrival : ply.Arrival g.board b)
include hb hon harrival

/-- After the arrival a removal can be carried out. -/
theorem exists_lift {place : Location} (hpiece : ply.piece = s.piece)
    (htarget : ply.target = target) (he : g.sideEffect? s target (.remove place) = some e) :
    ∃ i r b', e = .remove i r ∧ b.lift i = .ok b' := by
  obtain ⟨r, i, -, hr, hi, hne, rfl⟩ := exists_of_sideEffect?_remove he
  rw [← hpiece] at hne
  rw [← htarget] at hr
  obtain ⟨q, hq, rfl⟩ := hb r i hi
  have hstand := harrival.stands hon hi hne hr
  exact ⟨i, q.point, _, rfl,
    Board.lift_eq_ok_iff.2 ⟨q, (harrival.record i hne).trans hq, hstand, rfl⟩⟩

/-- After the arrival a relocation can be carried out, unless the relocated piece was captured. -/
theorem exists_move {source goal : Location} (hpiece : ply.piece = s.piece)
    (htarget : ply.target = target)
    (he : g.sideEffect? s target (.relocate source goal) = some e)
    (hfree : ∀ i r t first, e = .relocate i r t first → g.board.on? ply.target ≠ some i) :
    ∃ i r t first b', e = .relocate i r t first ∧ b.move i t = .ok b' := by
  obtain ⟨r, t, i, q, -, -, hi, hne, hq, ht, ht', hgoal, rfl⟩ :=
    exists_of_sideEffect?_relocate he
  rw [← hpiece] at hne hgoal
  rw [← htarget] at ht'
  obtain rfl := hb.point_eq hi hq
  have hr : q.point ≠ ply.target := by
    intro heq
    exact hfree i _ _ _ rfl (heq ▸ hi)
  have hvacant : q.point = t ∨ b.on? t = none := by
    rw [harrival.occupant, if_neg ht'.symm]
    by_cases hsource : ply.source = t
    · exact .inr (if_pos hsource)
    · rw [if_neg hsource]
      cases hj : g.board.on? t with
      | none => exact .inr rfl
      | some j =>
        rcases hgoal j hj with rfl | rfl
        · exact absurd (hb.on?_inj hon hj) hsource
        · exact .inl (hb.on?_inj hi hj)
  obtain ⟨b', hmove⟩ := Board.move_of_vacant ((harrival.record i hne).trans hq)
    (harrival.stands hon hi hne hr) (harrival.bounds ▸ ht) hvacant
  exact ⟨i, q.point, t, _, b', rfl, hmove⟩

end Playable

/-- On a sound board the planned ply of a piece on the board can be played, unless it relocates the
very piece that it captures. -/
theorem exists_step_of_plan? (hb : g.board.Sound) (h : g.plan? id target = some ply)
    (hon : g.board.on? ply.source = some id)
    (hrelocate : ∀ i source goal first, ply.effect = some (.relocate i source goal first) →
      ply.captured ≠ some i) : ∃ b, ply.Step g.board b := by
  have hr := records_of_plan? hb h
  have hne := source_ne_target h hon
  obtain ⟨owner, s, m, howner, hs, -, -, hsome, hply⟩ := exists_of_plan? h
  obtain rfl := piece_of_plan? h
  obtain rfl := target_of_plan? h
  have hcaptured : ply.captured = g.board.on? ply.target := by rw [hply, plyTo]
  have heffect : ply.effect = m.followUp.bind (g.sideEffect? s ply.target) := by rw [hply, plyTo]
  have hpiece : ply.piece = s.piece := by rw [eq_of_situation? hs howner]
  obtain ⟨b, harrival⟩ := hr.exists_arrival hon hne (contains_of_plan? h) hcaptured
  suffices hlast : ∃ b', ply.playEffect b = .ok b' by
    obtain ⟨b', hb'⟩ := hlast
    exact ⟨b', hr, harrival.play b' hb'⟩
  rw [Ply.playEffect]
  cases he : ply.effect with
  | none => exact ⟨b, rfl⟩
  | some e =>
    obtain ⟨f, -, hside⟩ := Option.bind_eq_some_iff.1 (heffect.symm.trans he)
    cases f with
    | promote chessman =>
      obtain ⟨q, -, rfl⟩ := exists_of_sideEffect?_promote hside
      exact ⟨_, rfl⟩
    | remove place =>
      obtain ⟨i, r, b', rfl, hlift⟩ := exists_lift hb hon harrival hpiece rfl hside
      exact ⟨b', hlift⟩
    | relocate source goal =>
      obtain ⟨i, r, t, first, b', rfl, hmove⟩ := exists_move hb hon harrival hpiece rfl hside
        fun i r t first hi => hcaptured ▸ hrelocate i r t first (hi ▸ he)
      exact ⟨_, map_eq_ok_iff.2 ⟨b', hmove, rfl⟩⟩

end Game

end VariantChess
