import VariantChess.Bounds
import VariantChess.Grid

/-!
# Planes

A plane is a sparse map from the points of some bounds to their occupants. Nothing can be put
outside the bounds, so an occupied point always lies inside them. A plane lists its occupants in
point order, which makes everything derived from a walk over it deterministic.
-/

namespace VariantChess

/-- A sparse map from the points inside `bounds` to their occupants. -/
structure Plane (α : Type) where
  bounds : Bounds
  cells : Grid (Option α)
  inside : ∀ p, (cells.get p).isSome → bounds.contains p

namespace Plane

variable {α : Type}

instance [DecidableEq α] : DecidableEq (Plane α) := fun s t =>
  decidable_of_iff (s.bounds = t.bounds ∧ s.cells = t.cells) (by cases s; cases t; simp)

/-- The plane without occupants. -/
def empty (bounds : Bounds) : Plane α := ⟨bounds, .fill none, by simp⟩

/-- The occupant of a point. -/
@[inline] def get? (s : Plane α) (p : Point) : Option α := s.cells.get p

/-- Whether a point has an occupant. -/
def occupied (s : Plane α) (p : Point) : Bool := (s.get? p).isSome

/-- Put an occupant on a point inside the bounds, replacing the one that was there; outside the
bounds this is not possible. -/
def put? (s : Plane α) (p : Point) (a : α) : Option (Plane α) :=
  if h : s.bounds.contains p then
    some ⟨s.bounds, s.cells.set p (some a), fun q hq => by
      rw [Grid.get_set] at hq
      split at hq
      · exact ‹p = q› ▸ h
      · exact s.inside q hq⟩
  else none

/-- Take the occupant off a point. -/
def clear (s : Plane α) (p : Point) : Plane α :=
  ⟨s.bounds, s.cells.set p none, fun q hq => by
    rw [Grid.get_set] at hq
    split at hq
    · exact nomatch hq
    · exact s.inside q hq⟩

/-- The occupied points with their occupants, in point order. -/
def entries (s : Plane α) : List (Point × α) :=
  s.bounds.points.filterMap fun p => (s.get? p).map (p, ·)

/-- The occupants, in the order of their points. -/
def values (s : Plane α) : List α := s.bounds.points.filterMap s.get?

/-- The number of occupied points. -/
def size (s : Plane α) : Nat := s.values.length

@[simp] theorem get?_empty (b : Bounds) (p : Point) : (empty b : Plane α).get? p = none := by
  simp [empty, get?]

@[simp] theorem bounds_clear (s : Plane α) (p : Point) : (s.clear p).bounds = s.bounds := rfl

theorem get?_clear (s : Plane α) (p q : Point) :
    (s.clear p).get? q = if p = q then none else s.get? q := Grid.get_set ..

theorem put?_isSome {s : Plane α} {p : Point} {a : α} :
    (s.put? p a).isSome ↔ s.bounds.contains p := by
  unfold put?
  split <;> simp_all

theorem bounds_of_put? {s t : Plane α} {p : Point} {a : α} (h : s.put? p a = some t) :
    t.bounds = s.bounds := by
  unfold put? at h
  split at h
  · exact (Option.some.inj h) ▸ rfl
  · exact nomatch h

theorem get?_of_put? {s t : Plane α} {p : Point} {a : α} (h : s.put? p a = some t) (q : Point) :
    t.get? q = if p = q then some a else s.get? q := by
  unfold put? at h
  split at h
  · exact (Option.some.inj h) ▸ Grid.get_set ..
  · exact nomatch h

/-- The listed entries are exactly the occupied points with their occupants. -/
theorem mem_entries {s : Plane α} {p : Point} {a : α} :
    (p, a) ∈ s.entries ↔ s.get? p = some a := by
  simp only [entries, List.mem_filterMap, Bounds.mem_points, Option.map_eq_some_iff, Prod.mk.injEq]
  constructor
  · rintro ⟨q, _, b, hb, rfl, rfl⟩
    exact hb
  · exact fun h => ⟨p, s.inside p (by simp only [get?] at h; simp [h]), a, h, rfl, rfl⟩

/-- The listed occupants are exactly those that stand somewhere. -/
theorem mem_values {s : Plane α} {a : α} : a ∈ s.values ↔ ∃ p, s.get? p = some a := by
  simp only [values, List.mem_filterMap, Bounds.mem_points]
  exact ⟨fun ⟨p, _, h⟩ => ⟨p, h⟩, fun ⟨p, h⟩ =>
    ⟨p, s.inside p (by simp only [get?] at h; simp [h]), h⟩⟩

/-- Planes with the same bounds and the same occupants are equal. -/
theorem ext_get? {s t : Plane α} (hb : s.bounds = t.bounds) (h : ∀ p, s.get? p = t.get? p) :
    s = t := by
  have hc : s.cells = t.cells := Grid.ext_get h
  cases s
  cases t
  simp_all

end Plane

end VariantChess
