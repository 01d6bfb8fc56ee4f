import VariantChess.Direction

/-!
# Points of the coordinate square

A point has a file and a rank number, both in `0..31`. Whatever leaves that square is no point, so
an offset either gives a point again or fails. Points are ordered rank by rank and, within a rank,
by file; every list of points that a game reports follows this order unless it says otherwise.
-/

namespace VariantChess

/-- A file or rank number. -/
abbrev Coord := Fin 32

/-- A point of the coordinate square: `x` is its file and `y` its rank, both counted from zero. -/
structure Point where
  x : Coord
  y : Coord
  deriving DecidableEq, Repr

/-- Why no point was obtained. -/
inductive PointError where
  /-- The coordinates lie outside the square. -/
  | outOfRange (x y : Int)
  /-- An algebraic text has the wrong number of bytes. -/
  | length (bytes : Nat)
  /-- An algebraic text starts with no file letter. -/
  | file (letter : Char)
  /-- An algebraic text ends in no rank number. -/
  | rank (text : String)
  deriving DecidableEq, Repr

/-- The wording of a point error. -/
def PointError.message : PointError → String
  | .outOfRange x y => s!"Coordinate ({x}, {y}) is outside 0..=31"
  | .length n => s!"Invalid length for point string: {n}"
  | .file c => s!"Invalid file character: '{c}', expected 'a'-'z'"
  | .rank s => s!"Invalid rank: '{s}', expected 1-26"

namespace Point

/-- The point with two coordinates that are known to lie in the square. -/
def ofCoords (x y : Nat) (h : x < 32 ∧ y < 32 := by decide) : Point := ⟨⟨x, h.1⟩, ⟨y, h.2⟩⟩

/-- The corner `(0, 0)`, which is also the centre of movement templates. -/
def origin : Point := ofCoords 0 0

/-- The point with the given coordinates, if they lie in the square. -/
def locate? (x y : Int) : Option Point :=
  if h : (0 ≤ x ∧ x < 32) ∧ 0 ≤ y ∧ y < 32 then
    some ⟨⟨x.toNat, by omega⟩, ⟨y.toNat, by omega⟩⟩
  else none

/-- The point with the given coordinates, or the error that names them. -/
def locate (x y : Int) : Except PointError Point :=
  match locate? x y with
  | some p => .ok p
  | none => .error (.outOfRange x y)

/-- The point displaced by `dx` files and `dy` ranks, if there is one. -/
def offset? (p : Point) (dx dy : Int) : Option Point := locate? (p.x.val + dx) (p.y.val + dy)

/-- The point displaced by `dx` files and `dy` ranks, or the error that names its coordinates. -/
def offset (p : Point) (dx dy : Int) : Except PointError Point :=
  locate (p.x.val + dx) (p.y.val + dy)

/-- The neighbour in a direction as `c` names it. -/
def shift (p : Point) (d : Direction) (c : Colour) : Except PointError Point :=
  p.offset (d.delta c).1 (d.delta c).2

/-- The signed difference from `a` to `b`. -/
def delta (a b : Point) : Int × Int := ((b.x.val : Int) - a.x.val, (b.y.val : Int) - a.y.val)

/-- The number of king steps between two points. -/
def distance (a b : Point) : Nat := max (delta a b).1.natAbs (delta a b).2.natAbs

/-- The place of a point in the rank by rank order. -/
def key (p : Point) : Nat := 32 * p.y.val + p.x.val

instance : Ord Point := ⟨compareOn key⟩

theorem key_injective {a b : Point} (h : a.key = b.key) : a = b := by
  obtain ⟨⟨ax, hax⟩, ⟨ay, hay⟩⟩ := a
  obtain ⟨⟨bx, hbx⟩, ⟨hby, hbyl⟩⟩ := b
  simp only [key] at h
  simp only [mk.injEq, Fin.mk.injEq]
  omega

instance : Std.TransOrd Point := inferInstanceAs (Std.TransCmp (compareOn key))

instance : Std.LawfulEqOrd Point where
  eq_of_compare {a b} h :=
    key_injective (Std.LawfulEqOrd.eq_of_compare (show compare a.key b.key = .eq from h))

theorem locate?_eq_some_iff {x y : Int} {p : Point} :
    locate? x y = some p ↔ x = p.x.val ∧ y = p.y.val := by
  obtain ⟨⟨px, hx⟩, ⟨py, hy⟩⟩ := p
  unfold locate?
  split
  · simp only [Option.some.injEq, mk.injEq, Fin.mk.injEq]
    omega
  · simp only [reduceCtorEq, false_iff]
    omega

/-- The coordinates of a point locate it. -/
@[simp] theorem locate?_coords (p : Point) : locate? p.x.val p.y.val = some p :=
  locate?_eq_some_iff.2 ⟨rfl, rfl⟩

/-- An offset reaches exactly the point that lies that far away. -/
theorem offset?_eq_some_iff {p q : Point} {dx dy : Int} :
    p.offset? dx dy = some q ↔ delta p q = (dx, dy) := by
  simp only [offset?, locate?_eq_some_iff, delta, Prod.mk.injEq]
  omega

theorem distance_comm (a b : Point) : distance a b = distance b a := by
  simp only [distance, delta]
  omega

end Point

end VariantChess
