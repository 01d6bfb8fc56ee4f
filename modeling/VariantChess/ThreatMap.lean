import VariantChess.Grid
import VariantChess.Ordered.Map
import VariantChess.Piece.Basic

/-!
# Threat maps and move maps

A threat map says which points each piece of one colour threatens. It keeps two indices: the
threatened points of each piece, and the threatening pieces of each point, so that a piece is
cleared without a search and a point is tested in constant time. A point that loses its last piece
loses its entry, and no piece is stored without a point, so how a map came about does not show in
it. A move map says which pieces of one colour can legally move to each point.
-/

namespace VariantChess

/-- An index of pieces by points: the pieces listed at each point that has an entry. -/
abbrev PieceIndex := Grid (Option (OrderedSet PieceId))

namespace PieceIndex

/-- The index without entries. -/
def empty : PieceIndex := Grid.fill none

/-- The pieces listed at a point; none if the point has no entry. -/
def listed (g : PieceIndex) (p : Point) : OrderedSet PieceId := (g.get p).getD .empty

/-- Whether a point has an entry. -/
def contains (g : PieceIndex) (p : Point) : Bool := (g.get p).isSome

/-- List a piece at a point, which gets an entry if it has none. -/
def add (g : PieceIndex) (id : PieceId) (p : Point) : PieceIndex :=
  g.modify p fun entry => some ((entry.getD .empty).insert id)

/-- Strike a piece from a point and drop the entry if no piece is left in it. -/
def strike (g : PieceIndex) (id : PieceId) (p : Point) : PieceIndex :=
  g.modify p fun entry => (entry.map (·.erase id)).filter fun s => !s.isEmpty

/-- The points that have an entry, with the pieces listed there, in point order. -/
def entries (g : PieceIndex) : List (Point × OrderedSet PieceId) :=
  Grid.points.filterMap fun p => (g.get p).map (p, ·)

/-- The number of listed pairs of a point and a piece. -/
def size (g : PieceIndex) : Nat := g.entries.foldr (fun e n => e.2.size + n) 0

end PieceIndex

/-- Which points each piece of one colour threatens, indexed from both sides. -/
structure ThreatMap where
  byPoint : PieceIndex
  byPiece : OrderedMap PieceId (OrderedSet Point)
  deriving DecidableEq

namespace ThreatMap

/-- The map without threats. -/
def empty : ThreatMap := ⟨.empty, .empty⟩

instance : Inhabited ThreatMap := ⟨empty⟩

/-- The points that a piece threatens. -/
def reach (m : ThreatMap) (id : PieceId) : OrderedSet Point := (m.byPiece.get? id).getD .empty

/-- The pieces that threaten a point. -/
def threatsAt (m : ThreatMap) (p : Point) : OrderedSet PieceId := m.byPoint.listed p

/-- Whether some piece threatens a point. -/
def threatens (m : ThreatMap) (p : Point) : Bool := m.byPoint.contains p

/-- Take back every threat of a piece. -/
def clear (m : ThreatMap) (id : PieceId) : ThreatMap :=
  let points := m.reach id
  ⟨points.members.foldl (PieceIndex.strike · id) m.byPoint, m.byPiece.erase id⟩

/-- Replace the threats of a piece. -/
def assign (m : ThreatMap) (id : PieceId) (ps : List Point) : ThreatMap :=
  let m := m.clear id
  let points := OrderedSet.ofList ps
  if points.isEmpty then m
  else ⟨points.members.foldl (PieceIndex.add · id) m.byPoint, m.byPiece.insert id points⟩

/-- The number of threats, counted piece by piece. -/
def mobility (m : ThreatMap) : Nat := m.byPiece.values.foldr (fun s n => s.size + n) 0

/-- The threatened points with their threatening pieces, in point order. -/
def entries (m : ThreatMap) : List (Point × OrderedSet PieceId) := m.byPoint.entries

@[simp] theorem reach_empty (id : PieceId) : empty.reach id = .empty := rfl

/-- A cleared piece threatens nothing, and the others what they did. -/
theorem reach_clear (m : ThreatMap) (id i : PieceId) :
    (m.clear id).reach i = if i = id then .empty else m.reach i := by
  simp only [reach, clear, OrderedMap.get?_erase]
  split <;> rfl

/-- A piece that is assigned points threatens exactly those, and the others what they did. -/
theorem reach_assign (m : ThreatMap) (id i : PieceId) (ps : List Point) :
    (m.assign id ps).reach i = if i = id then .ofList ps else m.reach i := by
  unfold assign
  by_cases he : (OrderedSet.ofList ps).isEmpty
  · have : OrderedSet.ofList ps = .empty := OrderedSet.ext_mem fun p => by
      simp [OrderedSet.isEmpty_iff.1 he p]
    simp only [he, if_true, reach_clear]
    rw [this]
  · have hc := reach_clear m id i
    simp only [reach] at hc
    simp only [he, Bool.false_eq_true, if_false, reach, OrderedMap.get?_insert]
    by_cases hi : i = id
    · simp [hi]
    · simpa [hi] using hc

end ThreatMap

/-- Which pieces of one colour can legally move to each point. -/
structure MoveMap where
  byPoint : PieceIndex
  deriving DecidableEq

namespace MoveMap

/-- The map of the given moves, each a mover and its target. -/
def ofMoves (moves : List (PieceId × Point)) : MoveMap :=
  ⟨moves.foldl (fun g m => g.add m.1 m.2) .empty⟩

/-- The pieces that can move to a point. -/
def moversTo (m : MoveMap) (p : Point) : OrderedSet PieceId := m.byPoint.listed p

/-- Whether some piece can move to a point. -/
def canReach (m : MoveMap) (p : Point) : Bool := m.byPoint.contains p

/-- The points that can be reached, with the pieces that can, in point order. -/
def entries (m : MoveMap) : List (Point × OrderedSet PieceId) := m.byPoint.entries

/-- The number of pairs of a piece and a point it can move to. -/
def size (m : MoveMap) : Nat := m.byPoint.size

end MoveMap

end VariantChess
