import Mathlib.Data.List.Basic
import VariantChess.PieceSet.Basic

/-!
# What a walk depends on

Membership in the reach of a movement is stated without the walk: a point is reached when some
template point of some quadrant lands on it, all earlier ones of a slide can be passed, and every
condition holds with the point as the destination.

The threats of a movement that is not volatile depend on the board only through the points that it
threatens, provided that a slide with conditions on the destination is volatile. This is what lets a
game find the pieces to look at again in its own threat maps.
-/

namespace VariantChess

namespace Location

/-- A location that is not measured from the destination is the same for every destination. -/
theorem resolve_heading {l : Location} (h : l.usesDestination = false) (s : Situation)
    (p : Point) : l.resolve (s.heading p) = l.resolve s := by
  obtain ⟨anchor, dx, dy⟩ := l
  cases anchor with
  | fixed _ => rfl
  | origin => rfl
  | destination => cases h

end Location

namespace Reference

/-- A reference that does not use the destination names the same pieces for every destination. -/
theorem resolve_heading {r : Reference} (h : r.usesDestination = false) (s : Situation)
    (p : Point) : r.resolve (s.heading p) = r.resolve s := by
  cases r with
  | standing l =>
    rw [resolve, resolve, Location.resolve_heading h]
    rfl
  | mover => rfl
  | lastMoved => rfl
  | path a b =>
    rw [usesDestination, Bool.or_eq_false_iff] at h
    simp only [resolve, Location.resolve_heading h.1, Location.resolve_heading h.2]
    rfl

end Reference

namespace Condition

/-- A condition that does not use the destination is judged alike for every destination. -/
theorem holds_heading {c : Condition} (h : c.usesDestination = false) (s : Situation)
    (p : Point) : c.holds (s.heading p) = c.holds s := by
  cases c with
  | property ref prop test expected =>
    simp only [holds, Reference.resolve_heading (r := ref) h]
    rfl
  | pieces left right test =>
    rw [usesDestination, Bool.or_eq_false_iff] at h
    simp only [holds, Reference.resolve_heading h.1, Reference.resolve_heading h.2]
  | log query test expected => rfl
  | threat place expected =>
    simp only [holds, Location.resolve_heading (l := place) h]
    rfl
  | onBoard place expected =>
    simp only [holds, Location.resolve_heading (l := place) h]
    rfl

end Condition

namespace Situation

/-- Two situations of a piece that stands on the same point of boards with the same bounds. -/
structure SamePlace (s s' : Situation) : Prop where
  bounds : s'.board.bounds = s.board.bounds
  colour : s'.colour = s.colour
  origin : s'.origin = s.origin
  destination : s'.destination = s.destination

theorem SamePlace.heading {s s' : Situation} (h : s.SamePlace s') (p : Point) :
    (s.heading p).SamePlace (s'.heading p) :=
  ⟨h.bounds, h.colour, h.origin, rfl⟩

end Situation

/-- A condition that is not volatile is judged alike from the same place. -/
theorem Condition.holds_eq_of_samePlace {c : Condition} (hc : c.isVolatile = false)
    {s s' : Situation} (h : s.SamePlace s') : c.holds s' = c.holds s := by
  cases c with
  | onBoard place expected =>
    have hresolve : place.resolve s' = place.resolve s := by
      rw [Location.resolve, Location.resolve, Location.base?, Location.base?, h.origin,
        h.destination, h.colour]
    rw [holds, holds, hresolve, h.bounds]
  | property | pieces | log | threat => cases hc

namespace Movement

variable {m : Movement} {s s' : Situation} {mode : Mode}

/-- A point is reached in a quadrant when a template point lands on it and, in a slide, every
earlier one can be passed. -/
theorem mem_arm {q : Int × Int} {steps : List Point} {p : Point} :
    p ∈ m.arm s mode q steps ↔ ∃ (i : Nat) (step : Point), steps[i]? = some step ∧
      landing? s q step = some p ∧ m.reaches s mode (s.board.pieceAt? p) ∧
      (m.stride = .slide → ∀ j < i, ∀ step', steps[j]? = some step' →
        ∃ r, landing? s q step' = some r ∧ passes s mode (s.board.pieceAt? r)) := by
  induction steps with
  | nil => simp [arm]
  | cons first rest ih =>
    -- the witness is either the first template point or one of the rest, behind the first
    have hshift : (∃ (i : Nat) (step : Point), (first :: rest)[i]? = some step ∧
        landing? s q step = some p ∧ m.reaches s mode (s.board.pieceAt? p) ∧
        (m.stride = .slide → ∀ j < i, ∀ step', (first :: rest)[j]? = some step' →
          ∃ r, landing? s q step' = some r ∧ passes s mode (s.board.pieceAt? r))) ↔
        (landing? s q first = some p ∧ m.reaches s mode (s.board.pieceAt? p)) ∨
        ((m.stride = .slide →
            ∃ r, landing? s q first = some r ∧ passes s mode (s.board.pieceAt? r)) ∧
          p ∈ m.arm s mode q rest) := by
      rw [ih]
      constructor
      · rintro ⟨i, step, hi, hland, hreach, hpass⟩
        cases i with
        | zero =>
          obtain rfl : first = step := Option.some.inj hi
          exact .inl ⟨hland, hreach⟩
        | succ i =>
          refine .inr ⟨fun hs => hpass hs 0 (Nat.succ_pos i) first rfl, i, step, hi, hland, hreach,
            fun hs j hj => hpass hs (j + 1) (Nat.succ_lt_succ hj)⟩
      · rintro (⟨hland, hreach⟩ | ⟨hfirst, i, step, hi, hland, hreach, hpass⟩)
        · exact ⟨0, first, rfl, hland, hreach, fun _ j hj => absurd hj (Nat.not_lt_zero j)⟩
        · refine ⟨i + 1, step, hi, hland, hreach, fun hs j hj step' hj' => ?_⟩
          cases j with
          | zero => exact Option.some.inj hj' ▸ hfirst hs
          | succ j => exact hpass hs j (Nat.lt_of_succ_lt_succ hj) step' hj'
    rw [hshift, arm]
    cases hland : landing? s q first with
    | none => cases hs : m.stride <;> simp
    | some r =>
      cases hs : m.stride with
      | jump => by_cases hr : m.reaches s mode (s.board.pieceAt? r) <;> simp [hr] <;> grind
      | slide =>
        by_cases hr : m.reaches s mode (s.board.pieceAt? r) <;>
          by_cases hp : passes s mode (s.board.pieceAt? r) <;> simp [hr, hp] <;> grind

/-- The walk collects the points reached in the quadrants of the mover. -/
theorem mem_walk {p : Point} :
    p ∈ m.walk s mode ↔ ∃ q ∈ m.quadrants s.colour, p ∈ m.arm s mode q m.template.points :=
  List.mem_flatMap

/-- A candidate is a point of the walk at which every condition holds; that some conditions are
judged up front makes no difference. -/
theorem mem_candidates {p : Point} :
    p ∈ m.candidates s mode ↔ (mode = .threats → m.isAttack) ∧ p ∈ m.walk s mode ∧
      ∀ c ∈ m.conditions, c.holds (s.heading p) := by
  have hsplit : (∀ c ∈ m.conditions, c.holds (s.heading p)) ↔
      (∀ c ∈ m.conditions, c.usesDestination = false → c.holds s) ∧
        ∀ c ∈ m.conditions, c.usesDestination → c.holds (s.heading p) := by
    constructor
    · intro h
      exact ⟨fun c hc hu => Condition.holds_heading hu s p ▸ h c hc, fun c hc _ => h c hc⟩
    · rintro ⟨hfront, hpoint⟩ c hc
      cases hu : c.usesDestination with
      | false => exact (Condition.holds_heading hu s p).trans (hfront c hc hu)
      | true => exact hpoint c hc hu
  rw [candidates, hsplit]
  by_cases hmode : mode = .threats ∧ m.isAttack = false
  · simp [hmode]
  · rw [if_neg (by simpa using hmode), List.partition_eq_filter_filter]
    dsimp only
    have hattack : mode = .threats → m.isAttack := by
      intro h
      simpa using fun ha => hmode ⟨h, ha⟩
    have hjudged : (m.conditions.filter (not ∘ Condition.usesDestination)).all (·.holds s) ↔
        ∀ c ∈ m.conditions, c.usesDestination = false → c.holds s := by
      simp only [List.all_eq_true, List.mem_filter, and_imp]
      exact forall₂_congr fun c _ => by cases hu : c.usesDestination <;> simp [hu]
    by_cases hfront : ∀ c ∈ m.conditions, c.usesDestination = false → c.holds s
    · rw [if_pos (hjudged.2 hfront), List.mem_eraseDups, List.mem_filter]
      simp only [List.all_eq_true, List.mem_filter]
      exact ⟨fun ⟨hw, hp⟩ => ⟨hattack, hw, hfront, fun c hc hu => hp c ⟨hc, hu⟩⟩,
        fun ⟨_, hw, _, hp⟩ => ⟨hw, fun c hc => hp c hc.1 hc.2⟩⟩
    · rw [if_neg (mt hjudged.1 hfront)]
      exact ⟨fun h => absurd h List.not_mem_nil, fun h => absurd h.2.2.1 hfront⟩

/-- From the same place a template point lands on the same point. -/
theorem landing?_eq_of_samePlace (h : s.SamePlace s') (q : Int × Int) (step : Point) :
    landing? s' q step = landing? s q step := by
  rw [landing?, landing?, h.bounds, h.origin]

/-- An attacking movement threatens every point that it visits. -/
theorem reaches_threats (ha : m.isAttack) (occupant : Option Piece) :
    m.reaches s .threats occupant := by
  cases occupant <;> exact ha

/-- A walk stays on the board. -/
theorem contains_of_mem_walk {p : Point} (hp : p ∈ m.walk s mode) : s.board.bounds.contains p := by
  obtain ⟨q, -, harm⟩ := mem_walk.1 hp
  obtain ⟨i, step, -, hland, -, -⟩ := mem_arm.1 harm
  exact (Option.filter_eq_some_iff.1 hland).2

/-- A candidate lies on the board. -/
theorem contains_of_mem_candidates {p : Point} (hp : p ∈ m.candidates s mode) :
    s.board.bounds.contains p :=
  contains_of_mem_walk (mem_candidates.1 hp).2.1

/-- A movement that reaches an occupied point attacks, and the occupant is hostile. -/
theorem isAttack_of_occupied {p : Point} {piece : Piece} (hp : p ∈ m.candidates s .moves)
    (hpiece : s.board.pieceAt? p = some piece) : m.isAttack ∧ piece.colour ≠ s.colour := by
  obtain ⟨-, hwalk, -⟩ := mem_candidates.1 hp
  obtain ⟨q, -, harm⟩ := mem_walk.1 hwalk
  obtain ⟨i, step, -, -, hreach, -⟩ := mem_arm.1 harm
  rw [hpiece, reaches, Bool.and_eq_true] at hreach
  exact ⟨hreach.1, of_decide_eq_true hreach.2⟩

/-- No condition of an attack that is not volatile is volatile. -/
theorem isVolatile_of_calm (ha : m.isAttack) (hv : m.isVolatile = false) {c : Condition}
    (hc : c ∈ m.conditions) : c.isVolatile = false := by
  rw [isVolatile, ha, Bool.true_and, List.any_eq_false] at hv
  exact Bool.eq_false_iff.2 (hv c hc)

/-- The conditions of an attack that is not volatile are judged alike from the same place. -/
theorem holds_iff_of_calm (ha : m.isAttack) (hv : m.isVolatile = false) (h : s.SamePlace s')
    (p : Point) : (∀ c ∈ m.conditions, c.holds (s'.heading p)) ↔
      ∀ c ∈ m.conditions, c.holds (s.heading p) := by
  refine forall₂_congr fun c hc => ?_
  rw [Condition.holds_eq_of_samePlace (isVolatile_of_calm ha hv hc) (h.heading p)]

/-- A movement that attacks and is not volatile threatens every point that it moves to. -/
theorem mem_candidates_threats_of_moves (ha : m.isAttack) (hv : m.isVolatile = false)
    (h : s.SamePlace s') (hboard : s'.board = s.board) {p : Point}
    (hp : p ∈ m.candidates s .moves) : p ∈ m.candidates s' .threats := by
  obtain ⟨-, hwalk, hholds⟩ := mem_candidates.1 hp
  obtain ⟨q, hq, harm⟩ := mem_walk.1 hwalk
  obtain ⟨i, step, hstep, hland, -, hpass⟩ := mem_arm.1 harm
  refine mem_candidates.2 ⟨fun _ => ha, mem_walk.2 ⟨q, h.colour ▸ hq, mem_arm.2 ⟨i, step, hstep, ?_,
    reaches_threats ha _, fun hs j hj step' hstep' => ?_⟩⟩,
    (holds_iff_of_calm ha hv h p).2 hholds⟩
  · rw [landing?_eq_of_samePlace h, hland]
  · obtain ⟨r, hland', hpass'⟩ := hpass hs j hj step' hstep'
    refine ⟨r, by rw [landing?_eq_of_samePlace h, hland'], ?_⟩
    rw [hboard]
    -- a slide that may go on to move there has met nothing
    cases hr : s.board.pieceAt? r with
    | none => rfl
    | some piece => simp [hr, passes] at hpass'

/-- Movements whose threats can be kept up to date from the threatened points: a slide that attacks
has a volatile condition, or none on the destination. -/
def Regular (m : Movement) : Prop :=
  m.stride = .slide → m.isAttack → (∃ c ∈ m.conditions, c.isVolatile) ∨
    ∀ c ∈ m.conditions, ∀ place expected, c = .onBoard place expected →
      place.usesDestination = false

/-- A movement that is no slide or has no conditions is regular. -/
theorem Regular.of_free (h : m.stride = .slide → m.conditions = []) : m.Regular := by
  intro hs _
  right
  rw [h hs]
  simp

/-- A regular movement that is not volatile and slides has no condition on the destination. -/
theorem Regular.usesDestination_eq_false (h : m.Regular) (hv : m.isVolatile = false)
    (hs : m.stride = .slide) (ha : m.isAttack) {c : Condition} (hc : c ∈ m.conditions) :
    c.usesDestination = false := by
  rcases h hs ha with ⟨d, hd, hvolatile⟩ | hfree
  · rw [isVolatile_of_calm ha hv hd] at hvolatile
    cases hvolatile
  · cases c with
    | onBoard place expected => exact hfree _ hc place expected rfl
    | property | pieces | log | threat => cases isVolatile_of_calm ha hv hc

/-- An attacking arm is walked alike on two boards that agree on the points that it threatens. -/
theorem arm_threats_eq (ha : m.isAttack) (h : s.SamePlace s') (q : Int × Int) {steps : List Point}
    (hsame : ∀ p ∈ m.arm s .threats q steps, s'.board.pieceAt? p = s.board.pieceAt? p) :
    m.arm s' .threats q steps = m.arm s .threats q steps := by
  induction steps with
  | nil => rfl
  | cons first rest ih =>
    rw [arm, landing?_eq_of_samePlace h]
    rw [arm] at hsame ⊢
    cases hland : landing? s q first with
    | none =>
      simp only [hland] at hsame
      cases hs : m.stride with
      | slide => rfl
      | jump => exact ih (by simpa only [hs] using hsame)
    | some p =>
      simp only [hland, reaches_threats ha, if_true] at hsame ⊢
      have hp : s'.board.pieceAt? p = s.board.pieceAt? p := hsame p List.mem_cons_self
      have hpass : passes s' .threats (s'.board.pieceAt? p) =
          passes s .threats (s.board.pieceAt? p) := by
        rw [hp]
        cases s.board.pieceAt? p with
        | none => rfl
        | some piece => rw [passes, passes, h.colour]
      rw [hpass]
      split
      · next hgo =>
        rw [if_pos hgo] at hsame
        rw [ih fun r hr => hsame r (List.mem_cons_of_mem _ hr)]
      · rfl

/-- An attacking arm that jumps is walked alike on all boards. -/
theorem arm_threats_eq_of_jump (ha : m.isAttack) (hj : m.stride = .jump) (h : s.SamePlace s')
    (q : Int × Int) (steps : List Point) :
    m.arm s' .threats q steps = m.arm s .threats q steps := by
  induction steps with
  | nil => rfl
  | cons first rest ih =>
    rw [arm, arm, landing?_eq_of_samePlace h, ih]
    cases landing? s q first with
    | none => rfl
    | some p => simp only [reaches_threats ha, hj, decide_true, Bool.true_or, if_true]

/-- The threats of a regular movement that is not volatile are the same on two boards that agree on
the threatened points. -/
theorem mem_candidates_threats_iff (hr : m.Regular) (hv : m.isVolatile = false)
    (h : s.SamePlace s')
    (hsame : ∀ p ∈ m.candidates s .threats, s'.board.pieceAt? p = s.board.pieceAt? p)
    (p : Point) : p ∈ m.candidates s' .threats ↔ p ∈ m.candidates s .threats := by
  cases ha : m.isAttack with
  | false => simp [mem_candidates, ha]
  | true =>
    rw [mem_candidates, mem_candidates, holds_iff_of_calm ha hv h]
    refine and_congr_right fun _ => and_congr_left fun hp => ?_
    have hwalk : m.walk s' .threats = m.walk s .threats := by
      rw [walk, walk, h.colour]
      cases hs : m.stride with
      | jump =>
        congr 1
        funext q
        exact arm_threats_eq_of_jump ha hs h q _
      | slide =>
        -- without conditions on the destination the whole walk is threatened
        have hall : ∀ r ∈ m.walk s .threats, r ∈ m.candidates s .threats := by
          intro r hrw
          refine mem_candidates.2 ⟨fun _ => ha, hrw, fun c hc => ?_⟩
          have hu := hr.usesDestination_eq_false hv hs ha hc
          rw [Condition.holds_heading hu, ← Condition.holds_heading hu s p]
          exact hp c hc
        refine List.flatMap_congr fun q hq => arm_threats_eq ha h q fun r hra => ?_
        exact hsame r (hall r (mem_walk.2 ⟨q, hq, hra⟩))
    rw [hwalk]

end Movement

/-- Chessmen are regular: what slides among their movements has no conditions. -/
theorem Chessman.regular_of_mem_movements {c : Chessman} {m : Movement} (hm : m ∈ c.movements) :
    m.Regular := by
  have hfree : ∀ c : Chessman, ∀ m ∈ c.movements, m.stride = .slide → m.conditions = [] := by
    intro c
    cases c <;> decide +kernel
  exact .of_free (hfree c m hm)

namespace PieceSet

/-- Piece sets in which every movement is regular. -/
def Regular (set : PieceSet) : Prop := ∀ kind, ∀ m ∈ set.movements kind, m.Regular

variable {set : PieceSet} {code : String} {m : Movement}

/-- The movements of a custom kind are those that are registered for it. -/
theorem mem_movements_custom : m ∈ set.movements (.custom code) ↔
    ∃ piece, (code, piece) ∈ set.customs.entries ∧ m ∈ piece.movements := by
  rw [movements]
  cases hpiece : set.customs.get? code with
  | none =>
    rw [Option.map_none, Option.getD_none]
    constructor
    · intro hm
      cases hm
    · rintro ⟨piece, hentry, -⟩
      rw [← OrderedMap.get?_eq_some_iff, hpiece] at hentry
      cases hentry
  | some piece =>
    rw [Option.map_some, Option.getD_some]
    constructor
    · intro hm
      exact ⟨piece, OrderedMap.get?_eq_some_iff.1 hpiece, hm⟩
    · rintro ⟨piece', hentry, hm⟩
      rw [← OrderedMap.get?_eq_some_iff, hpiece] at hentry
      rw [Option.some.inj hentry]
      exact hm

/-- A piece set is regular when its custom pieces are, since the chessmen always are. -/
theorem regular_of_customs
    (h : ∀ e ∈ set.customs.entries, ∀ m ∈ e.2.movements, m.Regular) : set.Regular := by
  intro kind m hm
  cases kind with
  | standard c => exact Chessman.regular_of_mem_movements hm
  | custom code =>
    obtain ⟨piece, hentry, hm⟩ := mem_movements_custom.1 hm
    exact h _ hentry m hm

/-- A piece set is regular when the slides of its custom pieces have no conditions. -/
theorem regular_of_free (h : ∀ e ∈ set.customs.entries, ∀ m ∈ e.2.movements,
    m.stride = .slide → m.conditions = []) : set.Regular :=
  regular_of_customs fun e he m hm => .of_free (h e he m hm)

end PieceSet

end VariantChess
