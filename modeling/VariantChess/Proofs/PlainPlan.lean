import VariantChess.Proofs.Plan
import VariantChess.Proofs.Sight
import VariantChess.Proofs.Upkeep

/-!
# Plies of plain pieces

Besides the chessmen, games may have custom pieces. A custom piece is plain when its movements are
direct and have no side effect but a promotion, and not to a king; and it is not taken for a pawn. A
planned ply of a plain piece or a chessman does nothing besides its step, castles with another
piece, takes a pawn in passing, or is a promotion. Castling and taking in passing go to an empty
point, and a capture goes to a point that the mover threatens.
-/

namespace VariantChess

/-- The follow-ups among the movements of the chessmen. -/
theorem Chessman.followUp_cases {c : Chessman} {m : Movement} (hm : m ∈ c.movements) :
    m.followUp = none ∨ (c = .king ∧ (m = Orthodox.castle 1 3 ∨ m = Orthodox.castle (-1) (-4))) ∨
      (c = .pawn ∧ (m = Orthodox.enPassant ∨ m.followUp = some (.promote .queen))) := by
  have hall : ∀ c : Chessman, ∀ m ∈ c.movements, m.followUp = none ∨
      (c = .king ∧ (m = Orthodox.castle 1 3 ∨ m = Orthodox.castle (-1) (-4))) ∨
        (c = .pawn ∧ (m = Orthodox.enPassant ∨ m.followUp = some (.promote .queen))) := by
    intro c
    cases c <;> decide +kernel
  exact hall c m hm

/-- The code of a chessman names it. -/
theorem Kind.eq_of_code {m n : Chessman} (h : (Kind.standard m).code = (Kind.standard n).code) :
    m = n := by
  revert h
  cases m <;> cases n <;> decide

/-- All pieces of the roster are chessmen. -/
def Board.Standard (b : Board) : Prop := ∀ id q, b.piece? id = some q → ∃ m, q.kind = .standard m

namespace Condition

variable {l : Location} {s : Situation} {p : Point} {id : PieceId} {r : Piece}

/-- A condition on the piece of a location is one on the piece that stands there. -/
theorem test_of_standing {prop : Property} {test : Comparator} {expected : Option Value}
    (h : (Condition.property (.standing l) prop test expected).holds s)
    (hp : l.resolve s = some p) (hon : s.board.on? p = some id)
    (hr : s.board.piece? id = some r) : test.test (prop.read r s.colour) expected := by
  have hresolve : (Reference.standing l).resolve s = [id] := by
    rw [Reference.resolve, hp, Option.bind_some, hon]
    rfl
  simp only [holds, hresolve] at h
  simpa [hr] using h

/-- A piece that passes a kind condition has the code of the condition. -/
theorem code_of_standing {code : String} (h : (Condition.kind (.standing l) code).holds s)
    (hp : l.resolve s = some p) (hon : s.board.on? p = some id)
    (hr : s.board.piece? id = some r) : r.kind.code = code := by
  have htest := test_of_standing h hp hon hr
  have hcode : some (Value.code code) = some (Value.code r.kind.code) := of_decide_eq_true htest
  injection hcode with hcode
  injection hcode with hcode
  exact hcode.symm

/-- A piece that is required not to be friendly is hostile. -/
theorem hostile_of_standing (h : (Condition.flag (.standing l) .friendly false).holds s)
    (hp : l.resolve s = some p) (hon : s.board.on? p = some id)
    (hr : s.board.piece? id = some r) : r.colour ≠ s.colour := by
  have htest := test_of_standing h hp hon hr
  have hvalue : Value.bool (r.colour = s.colour) = .bool false := of_decide_eq_true htest
  injection hvalue with hvalue
  exact of_decide_eq_false hvalue

end Condition

/-- The point behind the destination lies one rank back. -/
theorem Orthodox.delta_of_behind {s : Situation} {target p : Point}
    (h : behind.resolve (s.heading target) = some p) :
    Point.delta p target = (0, s.colour.forward) := by
  have hoffset : target.offset? 0 (-1 * s.colour.forward) = some p := h
  rw [Point.offset?_eq_some_iff, Point.delta, Prod.mk.injEq] at hoffset
  rw [Point.delta, Prod.mk.injEq]
  omega

/-- A pawn attacks by a single step diagonally ahead. -/
theorem Orthodox.pawn_attack {m : Movement} (hm : m ∈ Chessman.pawn.movements) (ha : m.isAttack) :
    m.template.points = [.ofCoords 1 1] ∧ m.back = false ∧ m.oneQuadrant = false := by
  revert m
  decide +kernel

/-- Whether a side effect is a promotion, but not to a king. -/
def FollowUp.isPlain : FollowUp → Bool
  | .promote m => m ≠ .king
  | _ => false

/-- A direct movement without side effects but a promotion, and not to a king. -/
def Movement.Plain (m : Movement) : Prop := m.Direct ∧ m.followUp.all FollowUp.isPlain

instance (m : Movement) : Decidable m.Plain := inferInstanceAs (Decidable (_ ∧ _))

namespace Game

variable {g h : Game} {s : Situation} {id : PieceId} {q : Piece} {target : Point} {ply : Ply}

/-- The custom pieces of the roster have plain movements and are not taken for pawns. -/
def Plain (g : Game) : Prop := ∀ id q code, g.board.piece? id = some q → q.kind = .custom code →
  code ≠ "P" ∧ ∀ m ∈ g.pieceSet.movements q.kind, m.Plain

/-- A game of chessmen is plain, whatever the piece set is. -/
theorem plain_of_standard (hstd : g.board.Standard) : g.Plain := by
  intro id q code hq hkind
  obtain ⟨c, hc⟩ := hstd id q hq
  rw [hc] at hkind
  cases hkind

/-- Being plain depends on the board and the pieces. -/
theorem Plain.of_same (hg : g.Plain) (hboard : h.board = g.board) (hset : h.pieceSet = g.pieceSet) :
    h.Plain := by
  rw [Plain, hboard, hset]
  exact hg

/-- The movements of a recorded piece are those of its kind. -/
theorem movementsOf_eq_of_piece? (hq : g.board.piece? id = some q) :
    g.movementsOf id = g.pieceSet.movements q.kind := by
  rw [movementsOf, hq, Option.map_some, Option.getD_some]

/-- All movements of a plain game are direct. -/
theorem Plain.direct (hg : g.Plain) {m : Movement} (hm : m ∈ g.movementsOf id) : m.Direct := by
  cases hq : g.board.piece? id with
  | none =>
    rw [movementsOf, hq] at hm
    cases hm
  | some q =>
    rw [movementsOf_eq_of_piece? hq] at hm
    cases hkind : q.kind with
    | standard c =>
      rw [hkind] at hm
      exact Chessman.direct hm
    | custom code => exact ((hg id q code hq hkind).2 m hm).1

/-- In a plain game only the pawn has the code of a pawn. -/
theorem Plain.eq_pawn (hg : g.Plain) (hq : g.board.piece? id = some q) (hcode : q.kind.code = "P") :
    q.kind = .standard .pawn := by
  cases hkind : q.kind with
  | standard c =>
    rw [hkind] at hcode
    rw [Kind.eq_of_code (n := .pawn) hcode]
  | custom code =>
    rw [hkind] at hcode
    exact absurd hcode (hg id q code hq hkind).1

/-- What a ply of a plain game does besides the step of the mover `q`. -/
inductive PlainEffect (g : Game) (q : Piece) (ply : Ply) : Prop
  | quiet (effect : ply.effect = none)
  | castles {i : PieceId} {source goal : Point} {first : Bool} {r : Piece}
      (effect : ply.effect = some (.relocate i source goal first))
      (mover : q.kind = .standard .king) (captured : ply.captured = none)
      (rook : g.board.piece? i = some r) (kind : r.kind ≠ .standard .king)
  | takesPawn {i : PieceId} {place : Point} {r : Piece}
      (effect : ply.effect = some (.remove i place)) (mover : q.kind = .standard .pawn)
      (captured : ply.captured = none) (pawn : g.board.piece? i = some r)
      (kind : r.kind = .standard .pawn) (hostile : r.colour ≠ q.colour) (point : r.point = place)
      (behind : Point.delta place ply.target = (0, q.colour.forward))
  | promotes {source : Kind} {m : Chessman}
      (effect : ply.effect = some (.promote source (.standard m)))
      (mover : q.kind ≠ .standard .king) (kind : m ≠ .king)

namespace PlainEffect

/-- Only a king relocates a piece, and it takes nothing then. -/
theorem of_relocate (h : g.PlainEffect q ply) {i : PieceId} {source goal : Point} {first : Bool}
    (heffect : ply.effect = some (.relocate i source goal first)) :
    q.kind = .standard .king ∧ ply.captured = none := by
  cases h with
  | castles _ mover captured => exact ⟨mover, captured⟩
  | quiet effect | takesPawn effect | promotes effect =>
    rw [effect] at heffect
    cases heffect

/-- No king is promoted, and no piece is promoted to a king. -/
theorem of_promote (h : g.PlainEffect q ply) {source goal : Kind}
    (heffect : ply.effect = some (.promote source goal)) :
    q.kind ≠ .standard .king ∧ goal ≠ .standard .king := by
  cases h with
  | promotes effect mover kind =>
    rw [effect] at heffect
    injection heffect with heffect
    injection heffect with _ hgoal
    refine ⟨mover, ?_⟩
    rw [← hgoal]
    intro hking
    injection hking with hking
    exact kind hking
  | quiet effect | castles effect | takesPawn effect =>
    rw [effect] at heffect
    cases heffect

/-- A piece that a side effect changes is the mover, another piece than a king that a king castles
with, or a pawn that is taken. -/
theorem of_mem_effectPieces (h : g.PlainEffect q ply) {i : PieceId}
    (hi : i ∈ ply.effectPieces) : i = ply.piece ∨ ∃ r, g.board.piece? i = some r ∧
      ((q.kind = .standard .king ∧ r.kind ≠ .standard .king) ∨
        (r.kind = .standard .pawn ∧ ply.taken = some i)) := by
  rw [Ply.effectPieces] at hi
  rw [Ply.taken]
  cases h with
  | quiet effect =>
    rw [effect] at hi
    cases hi
  | castles effect mover captured rook kind =>
    rw [effect] at hi
    obtain rfl := List.mem_singleton.1 hi
    exact .inr ⟨_, rook, .inl ⟨mover, kind⟩⟩
  | takesPawn effect mover captured pawn kind =>
    rw [effect] at hi ⊢
    obtain rfl := List.mem_singleton.1 hi
    exact .inr ⟨_, pawn, .inr ⟨kind, rfl⟩⟩
  | promotes effect =>
    rw [effect] at hi
    exact .inl (List.mem_singleton.1 hi)

/-- A captured piece is the one that the ply takes. -/
theorem taken_of_captured (h : g.PlainEffect q ply) {i : PieceId}
    (hi : ply.captured = some i) : ply.taken = some i := by
  rw [Ply.taken]
  cases h with
  | takesPawn _ _ captured =>
    rw [captured] at hi
    cases hi
  | quiet effect | castles effect | promotes effect => rw [effect, hi]

/-- A piece that is taken stands on the target or is a pawn right behind it. -/
theorem of_taken (h : g.PlainEffect q ply) {i : PieceId} (hi : ply.taken = some i) :
    ply.captured = some i ∨ ∃ r, g.board.piece? i = some r ∧ r.kind = .standard .pawn ∧
      Point.delta r.point ply.target = (0, q.colour.forward) := by
  rw [Ply.taken] at hi
  cases h with
  | takesPawn effect _ _ pawn kind _ point behind =>
    rw [effect] at hi
    obtain rfl := Option.some.inj hi
    exact .inr ⟨_, pawn, kind, point.symm ▸ behind⟩
  | quiet effect | castles effect | promotes effect =>
    rw [effect] at hi
    exact .inl hi

end PlainEffect

/-- A piece that moves without attacking goes to an empty point. -/
theorem captured_eq_none (hb : g.board.Sound) {m : Movement} (hs : g.situation? id = some s)
    (hm : m.isAttack = false) (hmem : target ∈ m.candidates s .moves) :
    g.board.on? target = none := by
  obtain ⟨owner, -, rfl⟩ := situation?_eq_some_iff.1 hs
  cases hon : g.board.on? target with
  | none => rfl
  | some i =>
    obtain ⟨r, hr, -⟩ := hb target i hon
    have hpiece : g.board.pieceAt? target = some r := by
      rw [Board.pieceAt?, hon, Option.bind_some, hr]
    have ha := (Movement.isAttack_of_occupied hmem hpiece).1
    rw [hm] at ha
    cases ha

/-- The plies of the chessmen have the effects of the orthodox game. -/
theorem plainEffect_of_chessman (hb : g.board.Sound) (hg : g.Plain) {c : Chessman} {m : Movement}
    (hc : q.kind = .standard c) (hm : m ∈ c.movements) (hq : g.board.piece? id = some q)
    (hs : g.situation? id = some s) (hmem : target ∈ m.candidates s .moves)
    (hsome : ply.effect.isSome = m.followUp.isSome)
    (hply : ply = g.plyTo id q target (m.followUp.bind (g.sideEffect? s target))) :
    g.PlainEffect q ply := by
  have heffect : ply.effect = m.followUp.bind (g.sideEffect? s target) := by rw [hply, plyTo]
  have hcaptured : ply.captured = g.board.on? target := by rw [hply, plyTo]
  have htarget : ply.target = target := by rw [hply, plyTo]
  have hempty := fun hattack => captured_eq_none hb hs (m := m) hattack hmem
  obtain ⟨-, -, hholds⟩ := Movement.mem_candidates.1 hmem
  obtain rfl := eq_of_situation? hs hq
  rcases Chessman.followUp_cases hm with hf | ⟨rfl, hcastle⟩ | ⟨rfl, rfl | hf⟩
  · rw [hf, Option.bind_none] at heffect
    exact .quiet heffect
  · obtain ⟨side, dx, rfl⟩ : ∃ side dx, m = Orthodox.castle side dx := by
      rcases hcastle with rfl | rfl
      · exact ⟨_, _, rfl⟩
      · exact ⟨_, _, rfl⟩
    obtain ⟨e, he⟩ := Option.isSome_iff_exists.1 hsome
    have hside := heffect.symm.trans he
    obtain ⟨r, t, i, rook, hcorner, -, hi, -, hrook, -, -, -, rfl⟩ :=
      exists_of_sideEffect?_relocate hside
    have hkind : Condition.kind (.standing (Location.origin.offset dx 0)) "R" ∈
        (Orthodox.castle side dx).conditions := by
      simp [Orthodox.castle, Movement.when, Movement.followedBy]
    have hcode := Condition.code_of_standing (hholds _ hkind) hcorner hi hrook
    refine .castles he hc (hcaptured.trans (hempty rfl)) hrook fun hking => ?_
    rw [hking] at hcode
    revert hcode
    decide
  · obtain ⟨e, he⟩ := Option.isSome_iff_exists.1 hsome
    have hside := heffect.symm.trans he
    obtain ⟨r, i, hbehind, -, hi, -, rfl⟩ := exists_of_sideEffect?_remove hside
    have hkind : Condition.kind (.standing Orthodox.behind) "P" ∈
        Orthodox.enPassant.conditions := by
      decide +kernel
    have hhostile : Condition.flag (.standing Orthodox.behind) .friendly false ∈
        Orthodox.enPassant.conditions := by
      decide +kernel
    obtain ⟨pawn, hpawn, hpoint⟩ := hb r i hi
    have hcode := Condition.code_of_standing (hholds _ hkind) hbehind hi hpawn
    have hcolour := Condition.hostile_of_standing (hholds _ hhostile) hbehind hi hpawn
    refine .takesPawn he hc (hcaptured.trans (hempty rfl)) hpawn (hg.eq_pawn hpawn hcode) hcolour
      hpoint ?_
    rw [htarget]
    exact Orthodox.delta_of_behind hbehind
  · rw [hf, Option.bind_some] at heffect
    rw [hf, Option.isSome_some, Option.isSome_iff_exists] at hsome
    obtain ⟨e, he⟩ := hsome
    obtain ⟨r, -, rfl⟩ := exists_of_sideEffect?_promote (heffect.symm.trans he)
    refine .promotes he ?_ Chessman.noConfusion
    rw [hc]
    exact fun hking => Chessman.noConfusion (Kind.standard.inj hking)

/-- The plies of a plain game have the effects of the orthodox game, or promote. -/
theorem plainEffect_of_plan? (hb : g.board.Sound) (hg : g.Plain)
    (h : g.plan? id target = some ply) (hq : g.board.piece? id = some q) :
    g.PlainEffect q ply := by
  obtain ⟨owner, s, m, howner, hs, hm, hmem, hsome, hply⟩ := exists_of_plan? h
  obtain rfl : q = owner := Option.some.inj (hq.symm.trans howner)
  rw [movementsOf_eq_of_piece? hq] at hm
  cases hkind : q.kind with
  | standard c =>
    rw [hkind] at hm
    exact plainEffect_of_chessman hb hg hkind hm hq hs hmem hsome hply
  | custom code =>
    obtain ⟨-, hplain⟩ := (hg id q code hq hkind).2 m hm
    have heffect : ply.effect = m.followUp.bind (g.sideEffect? s target) := by rw [hply, plyTo]
    cases hf : m.followUp with
    | none =>
      rw [hf, Option.bind_none] at heffect
      exact .quiet heffect
    | some f =>
      rw [hf] at hplain heffect hsome
      obtain ⟨e, he⟩ := Option.isSome_iff_exists.1 (hsome.trans Option.isSome_some)
      cases f with
      | relocate | remove => cases hplain
      | promote n =>
        obtain ⟨r, -, rfl⟩ := exists_of_sideEffect?_promote (heffect.symm.trans he)
        refine .promotes he ?_ (of_decide_eq_true hplain)
        rw [hkind]
        exact Kind.noConfusion

/-- The situation in which the threats of a recorded piece are found. -/
def threatening (g : Game) (id : PieceId) (q : Piece) : Situation :=
  ⟨g.board, g.lastPly, none, id, q.colour, q.point, none⟩

/-- A point is in the reach of a recorded piece when one of its movements threatens it. -/
theorem mem_reach_iff (hq : g.board.piece? id = some q) {p : Point} : p ∈ g.reach id ↔
    ∃ m ∈ g.movementsOf id, p ∈ m.candidates (g.threatening id q) .threats := by
  rw [reach, Situation.of?, hq]
  exact List.mem_flatMap

/-- On a sound board of a plain game the planned ply of a piece on the board can be played. -/
theorem Plain.exists_step (hg : g.Plain) (hb : g.board.Sound) (h : g.plan? id target = some ply)
    (hon : g.board.on? ply.source = some id) : ∃ b, ply.Step g.board b := by
  refine exists_step_of_plan? hb h hon fun i source goal first he hi => ?_
  obtain ⟨q, hq, -⟩ := source_of_plan? h
  rw [((plainEffect_of_plan? hb hg h hq).of_relocate he).2] at hi
  cases hi

/-- In a plain game a piece takes hostile pieces, on points that it threatens. -/
theorem captured_threatened (hb : g.board.Sound) (hg : g.Plain)
    (h : g.plan? id target = some ply) (hq : g.board.piece? id = some q) {i : PieceId}
    (hi : ply.captured = some i) : ∃ r, g.board.piece? i = some r ∧ r.colour ≠ q.colour ∧
      r.point = target ∧ target ∈ g.reach id := by
  obtain ⟨owner, s, m, howner, hs, hm, hmem, -, hply⟩ := exists_of_plan? h
  obtain rfl := eq_of_situation? hs hq
  have hon : g.board.on? target = some i := by
    rw [hply, plyTo] at hi
    exact hi
  obtain ⟨r, hr, hpoint⟩ := hb target i hon
  have hpiece : g.board.pieceAt? target = some r := by
    rw [Board.pieceAt?, hon, Option.bind_some, hr]
  obtain ⟨ha, hhostile⟩ := Movement.isAttack_of_occupied hmem hpiece
  refine ⟨r, hr, hhostile, hpoint, (mem_reach_iff hq).2 ⟨m, hm, ?_⟩⟩
  refine Movement.mem_candidates_threats_of_moves ha (hg.direct hm).1 ?_ ?_ hmem
  · exact ⟨rfl, rfl, rfl, rfl⟩
  · rfl

/-- A pawn threatens the points diagonally ahead of it only. -/
theorem delta_of_pawn (hq : g.board.piece? id = some q) (hpawn : q.kind = .standard .pawn)
    {p : Point} (hp : p ∈ g.reach id) : ((Point.delta q.point p).1 = 1 ∨
      (Point.delta q.point p).1 = -1) ∧ (Point.delta q.point p).2 = q.colour.forward := by
  obtain ⟨m, hm, hmem⟩ := (mem_reach_iff hq).1 hp
  rw [movementsOf_eq_of_piece? hq, hpawn] at hm
  obtain ⟨hattack, hwalk, -⟩ := Movement.mem_candidates.1 hmem
  obtain ⟨quadrant, hquadrant, harm⟩ := Movement.mem_walk.1 hwalk
  obtain ⟨i, step, hstep, hland, -, -⟩ := Movement.mem_arm.1 harm
  obtain ⟨hdelta, -⟩ := Movement.landing?_eq_some_iff.1 hland
  change Point.delta q.point p = _ at hdelta
  obtain ⟨htemplate, hback, hone⟩ := Orthodox.pawn_attack hm (hattack rfl)
  have hsign := (Movement.sign_of_mem_quadrants hquadrant).1
  have hahead : quadrant.2 = q.colour.forward := by
    simp only [Movement.quadrants, hone, hback, Bool.false_eq_true, if_false, List.flatMap_cons,
      List.flatMap_nil, List.append_nil, List.mem_map] at hquadrant
    obtain ⟨x, -, rfl⟩ := hquadrant
    exact Int.one_mul _
  obtain rfl : step = .ofCoords 1 1 := by
    rw [htemplate] at hstep
    exact List.mem_singleton.1 (List.mem_of_getElem? hstep)
  rw [hdelta, ← hahead]
  change (quadrant.1 * 1 = 1 ∨ quadrant.1 * 1 = -1) ∧ quadrant.2 * 1 = quadrant.2
  rw [Int.mul_one, Int.mul_one]
  exact ⟨hsign, rfl⟩

end Game

end VariantChess
