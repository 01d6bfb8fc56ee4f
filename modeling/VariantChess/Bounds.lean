import VariantChess.Point.Algebraic

/-!
# Bounds of a board

Bounds are a rectangle of points given by its least and greatest corner, both inclusive. Every
point of a board has an algebraic form, so the greatest corner is at most `z26`. Membership in the
bounds is the only meaning of "on the board".
-/

namespace VariantChess

/-- An inclusive rectangle whose points all have an algebraic form. -/
structure Bounds where
  least : Point
  greatest : Point
  x_le : least.x.val ≤ greatest.x.val
  y_le : least.y.val ≤ greatest.y.val
  x_lt : greatest.x.val < 26
  y_lt : greatest.y.val < 26
  deriving DecidableEq, Repr

/-- Why two corners or a size give no bounds. -/
inductive BoundsError where
  /-- The least corner lies beyond the greatest one. -/
  | inverted (least greatest : Point)
  /-- A side has length zero. -/
  | empty (width height : Nat)
  /-- A side is longer than the algebraic form reaches. -/
  | tooLarge (width height : Nat)
  /-- The greatest corner has no algebraic form. -/
  | unencodable (corner : Point)
  deriving DecidableEq, Repr

/-- The wording of a bounds error. -/
def BoundsError.message : BoundsError → String
  | .inverted a b => s!"Minimum corner {a} lies beyond maximum corner {b}"
  | .empty w h => s!"Plane of size {w}x{h} has no squares"
  | .tooLarge w h => s!"Plane of size {w}x{h} exceeds {algebraicExtent}x{algebraicExtent}"
  | .unencodable p => s!"Corner {p} has no algebraic form"

namespace Bounds

/-- The board of the orthodox game, `a1` to `h8`. -/
def orthodox : Bounds := ⟨.origin, .ofCoords 7 7, by decide, by decide, by decide, by decide⟩

instance : Inhabited Bounds := ⟨orthodox⟩

/-- The bounds between two corners. -/
def ofCorners (least greatest : Point) : Except BoundsError Bounds :=
  if hle : least.x.val ≤ greatest.x.val ∧ least.y.val ≤ greatest.y.val then
    if hlt : greatest.x.val < 26 ∧ greatest.y.val < 26 then
      .ok ⟨least, greatest, hle.1, hle.2, hlt.1, hlt.2⟩
    else .error (.unencodable greatest)
  else .error (.inverted least greatest)

/-- The bounds from `a1` with the given number of files and ranks. -/
def ofSize (width height : Nat) : Except BoundsError Bounds :=
  if h0 : width = 0 ∨ height = 0 then .error (.empty width height)
  else if h : 26 < width ∨ 26 < height then .error (.tooLarge width height)
  else .ok ⟨.origin, .ofCoords (width - 1) (height - 1) (by omega), Nat.zero_le _, Nat.zero_le _,
    by simp only [Point.ofCoords]; omega, by simp only [Point.ofCoords]; omega⟩

/-- Whether a point lies inside the bounds. -/
def contains (b : Bounds) (p : Point) : Bool :=
  b.least.x.val ≤ p.x.val && p.x.val ≤ b.greatest.x.val &&
    b.least.y.val ≤ p.y.val && p.y.val ≤ b.greatest.y.val

/-- The point with the given coordinates, if it lies inside the bounds. -/
def locate? (b : Bounds) (x y : Int) : Option Point := (Point.locate? x y).filter b.contains

/-- The coordinates from `a` up to `c`, in order. -/
def span (a c : Coord) : List Coord :=
  List.ofFn fun i : Fin (c.val + 1 - a.val) => ⟨a.val + i.val, by omega⟩

/-- Every point inside the bounds, rank by rank. -/
def points (b : Bounds) : List Point :=
  (span b.least.y b.greatest.y).flatMap fun y => (span b.least.x b.greatest.x).map fun x => ⟨x, y⟩

theorem contains_iff {b : Bounds} {p : Point} :
    b.contains p ↔ (b.least.x.val ≤ p.x.val ∧ p.x.val ≤ b.greatest.x.val) ∧
      b.least.y.val ≤ p.y.val ∧ p.y.val ≤ b.greatest.y.val := by
  simp [contains, and_assoc]

theorem mem_span {a c i : Coord} : i ∈ span a c ↔ a.val ≤ i.val ∧ i.val ≤ c.val := by
  simp only [span, List.mem_ofFn]
  constructor
  · rintro ⟨j, rfl⟩
    have := j.isLt
    simp only
    omega
  · rintro ⟨h1, h2⟩
    exact ⟨⟨i.val - a.val, by omega⟩, Fin.ext (by simp only; omega)⟩

/-- The listed points are exactly those inside the bounds. -/
theorem mem_points {b : Bounds} {p : Point} : p ∈ b.points ↔ b.contains p := by
  obtain ⟨x, y⟩ := p
  simp only [points, List.mem_flatMap, List.mem_map, mem_span, contains_iff, Point.mk.injEq]
  constructor
  · rintro ⟨_, hy, _, hx, rfl, rfl⟩
    exact ⟨hx, hy⟩
  · rintro ⟨hx, hy⟩
    exact ⟨y, hy, x, hx, rfl, rfl⟩

end Bounds

end VariantChess
