import VariantChess.Movement.Condition

/-!
# Movements

A movement is a rule made of data: a template near the origin, reflected into up to four quadrants,
walked as a slide or as independent jumps, gated by conditions, and optionally followed by a side
effect. The template is written for the top right quadrant of its owner, whose front is the top. The
two reflection flags add the back half and the left half; a movement bound to one quadrant uses them
to select back and left instead.
-/

namespace VariantChess

/-- How a template is walked. -/
inductive Stride where
  /-- Stop at the first occupied point and at the edge of the board. -/
  | slide
  /-- Every template point is independent of the others. -/
  | jump
  deriving DecidableEq, Repr

/-- A side effect that a movement prescribes. -/
inductive FollowUp where
  /-- Move the piece on one location to another. -/
  | relocate (source target : Location)
  /-- Take the piece on a location off the board. -/
  | remove (place : Location)
  /-- Turn the mover into a chessman. -/
  | promote (m : Chessman)
  deriving DecidableEq, Repr

/-- A rule by which a piece moves. -/
structure Movement where
  template : Path
  stride : Stride
  /-- Whether the back half is included, or selected. -/
  back : Bool := false
  /-- Whether the left half is included, or selected. -/
  left : Bool := false
  /-- Whether one quadrant only is used. -/
  oneQuadrant : Bool := false
  /-- Whether empty points can be moved to. -/
  isMove : Bool := true
  /-- Whether hostile pieces can be taken and points are threatened. -/
  isAttack : Bool := true
  conditions : List Condition := []
  followUp : Option FollowUp := none
  deriving DecidableEq, Repr

namespace Movement

/-- A movement that slides along a template. -/
def slide (template : Path) : Movement := { template, stride := .slide }

/-- A movement that jumps to the points of a template. -/
def jump (template : Path) : Movement := { template, stride := .jump }

/-- Set both reflection flags. -/
def reflected (m : Movement) (back left : Bool) : Movement := { m with back, left }

/-- Bind the movement to one quadrant. -/
def inOneQuadrant (m : Movement) : Movement := { m with oneQuadrant := true }

/-- Reach empty points only. -/
def moveOnly (m : Movement) : Movement := { m with isMove := true, isAttack := false }

/-- Reach occupied points only; empty points are still threatened. -/
def attackOnly (m : Movement) : Movement := { m with isMove := false, isAttack := true }

/-- Add a condition. -/
def when (m : Movement) (c : Condition) : Movement := { m with conditions := m.conditions ++ [c] }

/-- Prescribe a side effect. -/
def followedBy (m : Movement) (f : FollowUp) : Movement := { m with followUp := some f }

/-- Whether threats made by this movement can change while its owner and the points along its reach
stay as they are. -/
def isVolatile (m : Movement) : Bool := m.isAttack && m.conditions.any Condition.isVolatile

/-- The signs by which the template is reflected for a colour, front before back and right before
left. -/
def quadrants (m : Movement) (c : Colour) : List (Int × Int) :=
  if m.oneQuadrant then
    [(if m.left then -1 else 1, if m.back then -c.forward else c.forward)]
  else
    let xs : List Int := if m.left then [1, -1] else [1]
    let ys : List Int := if m.back then [1, -1] else [1]
    ys.flatMap fun y => xs.map fun x => (x, y * c.forward)

/-- A template that keeps to one quadrant goes into the reflected one. Any other one goes ahead and to
the right, and where it is reflected to the left or back as well. -/
theorem mem_quadrants_iff {m : Movement} {c : Colour} {q : Int × Int} : q ∈ m.quadrants c ↔
    if m.oneQuadrant then
      q.1 = (if m.left then -1 else 1) ∧ q.2 = (if m.back then -c.forward else c.forward)
    else
      (q.1 = 1 ∨ m.left ∧ q.1 = -1) ∧ (q.2 = c.forward ∨ m.back ∧ q.2 = -c.forward) := by
  rw [quadrants]
  by_cases hone : m.oneQuadrant
  · rw [if_pos hone, if_pos hone, List.mem_singleton, Prod.ext_iff]
  · have hsigns : ∀ (both : Bool) (x : Int),
        x ∈ (if both then [1, -1] else [1] : List Int) ↔ x = 1 ∨ both ∧ x = -1 := by
      intro both x
      cases both <;> simp
    rw [if_neg hone, if_neg hone]
    simp only [List.mem_flatMap, List.mem_map, Prod.ext_iff, hsigns]
    constructor
    · rintro ⟨y, hy, x, hx, hqx, hqy⟩
      refine ⟨hqx ▸ hx, ?_⟩
      rcases hy with rfl | ⟨hback, rfl⟩
      · exact .inl (by rw [← hqy, Int.one_mul])
      · exact .inr ⟨hback, by rw [← hqy, Int.neg_one_mul]⟩
    · rintro ⟨hx, hy | ⟨hback, hy⟩⟩
      · exact ⟨1, .inl rfl, q.1, hx, rfl, by rw [hy, Int.one_mul]⟩
      · exact ⟨-1, .inr ⟨hback, rfl⟩, q.1, hx, rfl, by rw [hy, Int.neg_one_mul]⟩

end Movement

end VariantChess
