import VariantChess.Point.Basic

/-!
# Grids

A grid holds one value for every point of the coordinate square. It is stored rank by rank, so
reading a point and changing a point both take constant time. The main statements are that a change
is seen at its point and nowhere else, and that a grid is determined by what is read from it.
-/

namespace VariantChess

/-- One value for every point, stored rank by rank. -/
structure Grid (α : Type) where
  rows : Vector (Vector α 32) 32
  deriving DecidableEq

namespace Grid

variable {α : Type}

/-- The grid with the same value everywhere. -/
def fill (a : α) : Grid α := ⟨Vector.replicate 32 (Vector.replicate 32 a)⟩

instance [Inhabited α] : Inhabited (Grid α) := ⟨fill default⟩

/-- The value at a point. -/
@[inline] def get (g : Grid α) (p : Point) : α := (g.rows.get p.y).get p.x

/-- Change one entry of a row. -/
@[inline] def modifyAt {n : Nat} (v : Vector α n) (i : Fin n) (f : α → α) : Vector α n :=
  ⟨v.toArray.modify i.val f, by simp⟩

/-- Change the value at a point. -/
@[inline] def modify (g : Grid α) (p : Point) (f : α → α) : Grid α :=
  ⟨modifyAt g.rows p.y fun row => modifyAt row p.x f⟩

/-- Replace the value at a point. -/
@[inline] def set (g : Grid α) (p : Point) (a : α) : Grid α := g.modify p fun _ => a

/-- Every point of the square, in point order. -/
def points : List Point :=
  (List.finRange 32).flatMap fun y => (List.finRange 32).map fun x => ⟨x, y⟩

theorem mem_points (p : Point) : p ∈ points := by
  simp only [points, List.mem_flatMap, List.mem_map, List.mem_finRange, true_and]
  exact ⟨p.y, p.x, rfl⟩

theorem get_modifyAt {n : Nat} (v : Vector α n) (i j : Fin n) (f : α → α) :
    (modifyAt v i f).get j = if i = j then f (v.get j) else v.get j := by
  simp only [modifyAt, Vector.get, Fin.ext_iff]
  exact Array.getElem_modify _

@[simp] theorem get_fill (a : α) (p : Point) : (fill a).get p = a := by
  simp [fill, get, Vector.get]

/-- A change is seen at its point and nowhere else. -/
theorem get_modify (g : Grid α) (p q : Point) (f : α → α) :
    (g.modify p f).get q = if p = q then f (g.get q) else g.get q := by
  obtain ⟨px, py⟩ := p
  obtain ⟨qx, qy⟩ := q
  simp only [get, modify, get_modifyAt, Point.mk.injEq]
  by_cases hy : py = qy <;> by_cases hx : px = qx <;> simp [hy, hx, get_modifyAt]

theorem get_set (g : Grid α) (p q : Point) (a : α) :
    (g.set p a).get q = if p = q then a else g.get q := get_modify g p q _

/-- Grids that read the same at every point are equal. -/
theorem ext_get {g h : Grid α} (e : ∀ p, g.get p = h.get p) : g = h := by
  cases g with | mk r => cases h with | mk s =>
  refine congrArg _ (Vector.ext fun y hy => Vector.ext fun x hx => ?_)
  exact e ⟨⟨x, hx⟩, ⟨y, hy⟩⟩

/-- The values of a grid, rank by rank. -/
def lists (g : Grid α) : List (List α) := g.rows.toList.map Vector.toList

/-- Grids with the same values are equal. -/
theorem ext_lists {g h : Grid α} (e : g.lists = h.lists) : g = h := by
  cases g with | mk r => cases h with | mk s =>
  have hrows : r.toList = s.toList := (List.map_inj_right fun _ _ => Vector.toList_inj.1).1 e
  exact congrArg _ (Vector.toList_inj.1 hrows)

end Grid

end VariantChess
