import VariantChess.PieceSet.Orthodox
import VariantChess.Proofs.SymmetricRules

/-!
# The mirror

The mirror turns the board around the line between its middle ranks and exchanges the colours. It
maps the bounds to themselves, white's forward direction to black's, and lines and distances within
the ranks of the board to lines and distances. A rule is mirrored when it counts from the mover or
its destination; where it looks at a point that may lie off the board, along a path or for a threat,
it has to stay on a rank. The movements of the orthodox chessmen do.
-/

namespace VariantChess

namespace Bounds

variable {b : Bounds} {p q : Point}

/-- The point with its rank counted from the other end of the board. Points whose flipped ranks
would leave the coordinate square stay where they are. -/
def flip (b : Bounds) (p : Point) : Point :=
  (Point.locate? p.x.val ((b.least.y.val + b.greatest.y.val : Int) - p.y.val)).getD p

/-- The point on the same file is the flipped one when both ranks add up to the sum of the outer
ones. -/
theorem flip_eq_of_add (hx : q.x = p.x)
    (hy : q.y.val + p.y.val = b.least.y.val + b.greatest.y.val) : b.flip p = q := by
  have hlocate : Point.locate? p.x.val ((b.least.y.val + b.greatest.y.val : Int) - p.y.val) =
      some q := Point.locate?_eq_some_iff.2 ⟨by rw [hx], by omega⟩
  rw [flip, hlocate, Option.getD_some]

/-- A flipped point is the point itself, or lies on its file with the rank counted from the other
end. -/
theorem flip_cases (b : Bounds) (p : Point) : b.flip p = p ∨ (b.flip p).x = p.x ∧
    (b.flip p).y.val + p.y.val = b.least.y.val + b.greatest.y.val := by
  rw [flip]
  cases hlocate : Point.locate? p.x.val ((b.least.y.val + b.greatest.y.val : Int) - p.y.val) with
  | none => exact .inl rfl
  | some q =>
    obtain ⟨hx, hy⟩ := Point.locate?_eq_some_iff.1 hlocate
    rw [Option.getD_some]
    exact .inr ⟨Fin.ext (by omega), by omega⟩

@[simp] theorem x_flip (b : Bounds) (p : Point) : (b.flip p).x = p.x := by
  rcases b.flip_cases p with h | ⟨h, -⟩
  · rw [h]
  · exact h

theorem flip_flip (b : Bounds) : Function.Involutive b.flip := by
  intro p
  rcases b.flip_cases p with h | ⟨hx, hy⟩
  · rw [h, h]
  · exact flip_eq_of_add hx.symm ((Nat.add_comm _ _).trans hy)

/-- The bounds are flipped to themselves. -/
theorem contains_flip (b : Bounds) (p : Point) : b.contains (b.flip p) = b.contains p := by
  rcases b.flip_cases p with h | ⟨hx, hy⟩
  · rw [h]
  · rw [Bool.eq_iff_iff, contains_iff, contains_iff, hx]
    omega

/-- The point lies on a rank of the board, though perhaps beyond its files. -/
def Ranked (b : Bounds) (p : Point) : Prop :=
  b.least.y.val ≤ p.y.val ∧ p.y.val ≤ b.greatest.y.val

/-- On the ranks of the board the flipped rank and the rank add up to the sum of the outer ones. -/
theorem Ranked.y_flip (h : b.Ranked p) :
    (b.flip p).y.val + p.y.val = b.least.y.val + b.greatest.y.val := by
  obtain ⟨hlow, hhigh⟩ := h
  have hlt : b.least.y.val + b.greatest.y.val - p.y.val < 32 := by
    have := b.y_lt
    omega
  have hsum : b.least.y.val + b.greatest.y.val - p.y.val + p.y.val =
      b.least.y.val + b.greatest.y.val := by omega
  have hflip : b.flip p = ⟨p.x, ⟨_, hlt⟩⟩ := flip_eq_of_add rfl hsum
  rw [hflip]
  exact hsum

theorem ranked_of_contains (h : b.contains p) : b.Ranked p := (contains_iff.1 h).2

theorem locate?_eq_some_iff {x y : Int} :
    b.locate? x y = some p ↔ (x = p.x.val ∧ y = p.y.val) ∧ b.contains p := by
  rw [locate?, Option.filter_eq_some_iff, Point.locate?_eq_some_iff]

/-- Displaced points are flipped to points displaced the other way. -/
theorem Ranked.locate?_flip (h : b.Ranked p) (dx dy : Int) :
    b.locate? ((b.flip p).x.val + dx) ((b.flip p).y.val + -1 * dy) =
      (b.locate? (p.x.val + dx) (p.y.val + dy)).map b.flip := by
  have hsum := h.y_flip
  refine Option.ext fun q => ?_
  rw [Option.map_eq_some_iff, locate?_eq_some_iff, x_flip]
  constructor
  · rintro ⟨⟨hx, hy⟩, hq⟩
    have hqsum := (ranked_of_contains hq).y_flip
    refine ⟨b.flip q, locate?_eq_some_iff.2 ⟨⟨?_, by omega⟩, ?_⟩, b.flip_flip q⟩
    · rw [hx, x_flip]
    · rw [contains_flip, hq]
  · rintro ⟨r, hr, rfl⟩
    obtain ⟨⟨hx, hy⟩, hr⟩ := locate?_eq_some_iff.1 hr
    have hrsum := (ranked_of_contains hr).y_flip
    rw [contains_flip]
    refine ⟨⟨?_, by omega⟩, hr⟩
    rw [hx, x_flip]

/-- The rank change between two points changes its sign. -/
theorem Ranked.delta_flip (hp : b.Ranked p) (hq : b.Ranked q) :
    Point.delta (b.flip p) (b.flip q) = ((Point.delta p q).1, -(Point.delta p q).2) := by
  have hpsum := hp.y_flip
  have hqsum := hq.y_flip
  simp only [Point.delta, x_flip, Prod.mk.injEq, true_and]
  omega

theorem Ranked.distance_flip (hp : b.Ranked p) (hq : b.Ranked q) :
    Point.distance (b.flip p) (b.flip q) = Point.distance p q := by
  rw [Point.distance, Point.distance, hp.delta_flip hq, Int.natAbs_neg]

/-- An offset that stays on the ranks of the board is flipped. -/
theorem Ranked.offset?_flip (hp : b.Ranked p) {dx dy : Int} (hlow : b.least.y.val ≤ p.y.val + dy)
    (hhigh : p.y.val + dy ≤ b.greatest.y.val) :
    (b.flip p).offset? dx (-dy) = (p.offset? dx dy).map b.flip := by
  have hpsum := hp.y_flip
  refine Option.ext fun r => ?_
  rw [Option.map_eq_some_iff, Point.offset?_eq_some_iff]
  simp only [Point.offset?_eq_some_iff, Point.delta, Prod.mk.injEq, x_flip]
  constructor
  · rintro ⟨hx, hy⟩
    have hr : b.Ranked r := by constructor <;> omega
    have hrsum := hr.y_flip
    exact ⟨b.flip r, ⟨by rw [x_flip]; exact hx, by omega⟩, b.flip_flip r⟩
  · rintro ⟨r, ⟨hx, hy⟩, rfl⟩
    have hr : b.Ranked r := by constructor <;> omega
    have hrsum := hr.y_flip
    exact ⟨by rw [x_flip]; exact hx, by omega⟩

/-- The steps along a line stay on the ranks between its ends, so they are flipped one by one. -/
theorem Ranked.step_flip (hp : b.Ranked p) (hq : b.Ranked q)
    (hline : Path.colinear (Point.delta p q)) {k : Nat} (hk : k ≤ Point.distance p q) :
    (b.flip p).offset? ((Point.delta p q).1.sign * k) ((-(Point.delta p q).2).sign * k) =
      (p.offset? ((Point.delta p q).1.sign * k) ((Point.delta p q).2.sign * k)).map b.flip := by
  have hdy : (Point.delta p q).2 = (q.y.val : Int) - p.y.val := rfl
  obtain ⟨hplow, hphigh⟩ := hp
  obtain ⟨hqlow, hqhigh⟩ := hq
  -- a line that changes its rank changes it at every step
  have hsteep : (Point.delta p q).2 ≠ 0 → k ≤ (Point.delta p q).2.natAbs := by
    intro hne
    rw [Path.colinear, Bool.or_eq_true, Bool.or_eq_true, beq_iff_eq, beq_iff_eq,
      beq_iff_eq] at hline
    rw [Point.distance] at hk
    omega
  have hbetween : b.least.y.val ≤ p.y.val + (Point.delta p q).2.sign * k ∧
      p.y.val + (Point.delta p q).2.sign * k ≤ b.greatest.y.val := by
    rcases Int.lt_trichotomy (Point.delta p q).2 0 with hneg | hzero | hpos
    · have := hsteep (Int.ne_of_lt hneg)
      rw [Int.sign_eq_neg_one_of_neg hneg]
      omega
    · rw [hzero, Int.sign_zero]
      omega
    · have := hsteep (Int.ne_of_gt hpos)
      rw [Int.sign_eq_one_of_pos hpos]
      omega
  rw [Int.sign_neg, Int.neg_mul]
  exact Ranked.offset?_flip ⟨hplow, hphigh⟩ hbetween.1 hbetween.2

/-- The points of a line are flipped to those of the flipped line. -/
theorem Ranked.points_between_flip (hp : b.Ranked p) (hq : b.Ranked q) :
    (Path.between (b.flip p) (b.flip q)).points = (Path.between p q).points.map b.flip := by
  have hinj : Function.Injective b.flip := b.flip_flip.injective
  have hcolinear : Path.colinear ((Point.delta p q).1, -(Point.delta p q).2) =
      Path.colinear (Point.delta p q) := by
    have hzero : (-(Point.delta p q).2 == 0) = ((Point.delta p q).2 == 0) := by
      rw [Bool.eq_iff_iff, beq_iff_eq, beq_iff_eq, Int.neg_eq_zero]
    rw [Path.colinear, Path.colinear, Int.natAbs_neg, hzero]
  rw [Path.between, Path.between, hp.delta_flip hq, hp.distance_flip hq, hcolinear]
  dsimp only
  split
  · next hline =>
    rw [Path.ofPoints, Path.ofPoints, ← eraseDups_map hinj, List.map_filterMap]
    refine congrArg List.eraseDups (List.filterMap_congr fun k hk => ?_)
    exact hp.step_flip hq hline (Nat.lt_succ_iff.1 (List.mem_range.1 hk))
  · rw [Path.ofPoints, Path.ofPoints, ← eraseDups_map hinj]
    rfl

end Bounds

/-- The symmetry that turns the board around, exchanges the colours and gives the pieces other
identities. -/
def mirror (bounds : Bounds) (σ : Equiv.Perm PieceId) : Symmetry bounds where
  id := σ
  point := bounds.flip_flip.toPerm
  colour := ⟨Colour.other, Colour.other, Colour.other_other, Colour.other_other⟩
  sign := -1
  Fair := bounds.Ranked
  fair_of_contains _ := Bounds.ranked_of_contains
  contains_point := bounds.contains_flip
  forward_colour c := by simp
  locate_point _ h := h.locate?_flip
  interior_point p q hp hq := by
    rw [Path.interior, Path.interior, List.map_dropLast, List.map_tail]
    exact congrArg (fun l => l.tail.dropLast) (hp.points_between_flip hq)
  distance_point _ _ hp hq := hp.distance_flip hq

section Rules

/-- Whether a location is measured from the mover or its destination. -/
def Location.isRelative (l : Location) : Bool :=
  match l.anchor with
  | .fixed _ => false
  | .origin | .destination => true

/-- Whether a location is measured from the mover or its destination and lies on the same rank. -/
def Location.isLevel (l : Location) : Bool := l.isRelative && l.dy = 0

/-- Whether a reference can be mirrored. -/
def Reference.isMirrored : Reference → Bool
  | .standing l => l.isRelative
  | .mover | .lastMoved => true
  | .path a b => a.isLevel && b.isLevel

/-- Whether a condition can be mirrored. A colour that is called by its name cannot. -/
def Condition.isMirrored : Condition → Bool
  | .property ref prop .. => ref.isMirrored && prop ≠ .colour
  | .pieces left right _ => left.isMirrored && right.isMirrored
  | .log .. => true
  | .threat place _ => place.isLevel
  | .onBoard place _ => place.isRelative

/-- Whether a follow-up can be mirrored. -/
def FollowUp.isMirrored : FollowUp → Bool
  | .relocate source target => source.isRelative && target.isRelative
  | .remove place => place.isRelative
  | .promote _ => true

/-- Whether a movement can be mirrored. -/
def Movement.isMirrored (m : Movement) : Bool :=
  m.conditions.all Condition.isMirrored && m.followUp.all FollowUp.isMirrored

variable {bounds : Bounds} {σ : Equiv.Perm PieceId} {l : Location}

theorem Location.anchor_ne_fixed (h : l.isRelative) (p : Point) : l.anchor ≠ .fixed p := by
  intro hp
  rw [isRelative, hp] at h
  cases h

/-- A relative location is sighted in the mirror. -/
theorem Location.sights (h : l.isRelative) : (mirror bounds σ).Sights l :=
  Symmetry.sights_of_anchor (anchor_ne_fixed h)

/-- A level location is found in the mirror, even beyond the files of the board. -/
theorem Location.finds (h : l.isLevel) : (mirror bounds σ).Finds l := by
  intro s s' hs
  rw [isLevel, Bool.and_eq_true, decide_eq_true_eq] at h
  obtain ⟨hbase, hin⟩ := Symmetry.base?_eq (anchor_ne_fixed h.1) hs
  rw [resolve, resolve, hbase, h.2, Int.zero_mul, Int.zero_mul]
  cases hp : l.base? s with
  | none => exact ⟨rfl, fun p hnone => by cases hnone⟩
  | some p =>
    have hranked : bounds.Ranked p := Bounds.ranked_of_contains (hin p hp)
    refine ⟨?_, fun q hq => ?_⟩
    · have hflip : (bounds.flip p).offset? l.dx (-0) = (p.offset? l.dx 0).map bounds.flip :=
        hranked.offset?_flip (by simpa using hranked.1) (by simpa using hranked.2)
      exact hflip
    · have hlevel := Point.offset?_eq_some_iff.1 hq
      rw [Point.delta, Prod.mk.injEq] at hlevel
      have hrank : q.y = p.y := Fin.ext (by omega)
      show bounds.Ranked q
      rw [Bounds.Ranked, hrank]
      exact hranked

theorem Reference.names {r : Reference} (h : r.isMirrored) : (mirror bounds σ).Names r := by
  cases r with
  | standing l => exact Symmetry.names_standing (Location.sights h)
  | mover => exact Symmetry.names_mover
  | lastMoved => exact Symmetry.names_lastMoved
  | path a b =>
    rw [isMirrored, Bool.and_eq_true] at h
    exact Symmetry.names_path (Location.finds h.1) (Location.finds h.2)

theorem Condition.judges {c : Condition} (h : c.isMirrored) : (mirror bounds σ).Judges c := by
  cases c with
  | property ref prop test expected =>
    rw [isMirrored, Bool.and_eq_true, decide_eq_true_eq] at h
    exact Symmetry.judges_property (Reference.names h.1) (Symmetry.read_piece h.2) test expected
  | pieces left right test =>
    rw [isMirrored, Bool.and_eq_true] at h
    exact Symmetry.judges_pieces (Reference.names h.1) (Reference.names h.2) test
  | log query test expected => exact Symmetry.judges_log query test expected
  | threat place expected => exact Symmetry.judges_threat (Location.finds h) expected
  | onBoard place expected => exact Symmetry.judges_onBoard (Location.sights h) expected

/-- A movement that can be mirrored fits the mirror. -/
theorem Movement.fits {m : Movement} (h : m.isMirrored) : (mirror bounds σ).Fits m := by
  rw [isMirrored, Bool.and_eq_true, List.all_eq_true, Option.all_eq_true] at h
  refine ⟨fun c hc => Condition.judges (h.1 c hc), fun f hf => ?_⟩
  have hmirrored := h.2 f hf
  cases f with
  | relocate source target =>
    rw [FollowUp.isMirrored, Bool.and_eq_true] at hmirrored
    exact ⟨Location.sights hmirrored.1, Location.sights hmirrored.2⟩
  | remove place => exact Location.sights hmirrored
  | promote m => trivial

/-- The movements of the chessmen fit the mirror. -/
theorem Chessman.fits {c : Chessman} {m : Movement} (hm : m ∈ c.movements) :
    (mirror bounds σ).Fits m := by
  have hall : ∀ c : Chessman, c.movements.all Movement.isMirrored := by
    intro c
    cases c <;> decide
  exact Movement.fits (List.all_eq_true.1 (hall c) m hm)

end Rules

end VariantChess
