import VariantChess.Point.Algebraic

/-!
# Paths

A path is a sequence of points without repeats. There are two uses: a *template* lists offsets from
the origin, nearest first, and shapes a movement; a *line* joins two points on a common file, rank
or diagonal, both ends included. Two points that share none of these are joined by themselves alone.
-/

namespace VariantChess

/-- Every value is kept at its first occurrence only. -/
theorem nodup_eraseDups {α : Type} [BEq α] [LawfulBEq α] : (l : List α) → l.eraseDups.Nodup
  | [] => .nil
  | a :: rest => by
    have : (rest.filter fun b => !b == a).length < rest.length + 1 :=
      Nat.lt_add_one_of_le (List.length_filter_le _ rest)
    rw [List.eraseDups_cons, List.nodup_cons]
    exact ⟨by simp, nodup_eraseDups _⟩
termination_by l => l.length

/-- A sequence of points without repeats. -/
structure Path where
  points : List Point
  nodup : points.Nodup
  deriving DecidableEq, Repr

/-- Why offsets form no template. -/
inductive PathError where
  /-- The origin is among the offsets. -/
  | containsOrigin
  /-- There are no offsets. -/
  | empty
  /-- An offset lies outside the coordinate square. -/
  | outOfRange (x y : Nat)
  deriving DecidableEq, Repr

/-- The wording of a path error. -/
def PathError.message : PathError → String
  | .containsOrigin => "A movement template may not contain the origin"
  | .empty => "A movement template needs at least one point"
  | .outOfRange x y => s!"Template offset ({x}, {y}) is outside the coordinate extent"

namespace Path

/-- The path through some points, each at its first occurrence. -/
def ofPoints (ps : List Point) : Path := ⟨ps.eraseDups, nodup_eraseDups ps⟩

@[simp] theorem mem_points_ofPoints {ps : List Point} {q : Point} :
    q ∈ (ofPoints ps).points ↔ q ∈ ps := List.mem_eraseDups

/-- One offset of a template. -/
def templatePoint (offset : Nat × Nat) : Except PathError Point :=
  match Point.locate? offset.1 offset.2 with
  | none => .error (.outOfRange offset.1 offset.2)
  | some p => if p = .origin then .error .containsOrigin else .ok p

/-- The template with the given offsets; the first bad offset is reported. -/
def template (offsets : List (Nat × Nat)) : Except PathError Path :=
  if offsets.isEmpty then .error .empty else (offsets.mapM templatePoint).map ofPoints

/-- The largest number that an offset of a ray can have. -/
def rayLimit : Nat := 255

/-- The template that goes `length` times along `(dx, dy)`. -/
def ray (dx dy length : Nat) : Except PathError Path :=
  template ((List.range' 1 length).map fun k => (min (dx * k) rayLimit, min (dy * k) rayLimit))

/-- Whether a displacement runs along a file, a rank or a diagonal. -/
def colinear (d : Int × Int) : Bool := d.1 == 0 || d.2 == 0 || d.1.natAbs == d.2.natAbs

/-- The line from `a` to `b`, or just the two points when nothing lines them up. -/
def between (a b : Point) : Path :=
  let d := Point.delta a b
  if colinear d then
    ofPoints ((List.range (Point.distance a b + 1)).filterMap fun k : Nat =>
      a.offset? (d.1.sign * k) (d.2.sign * k))
  else ofPoints [a, b]

/-- The points strictly between the two ends. -/
def interior (p : Path) : List Point := p.points.tail.dropLast

/-- Whether a point is on the path. -/
def contains (p : Path) (q : Point) : Bool := p.points.contains q

end Path

end VariantChess
