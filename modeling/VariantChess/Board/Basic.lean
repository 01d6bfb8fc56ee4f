import VariantChess.Piece.Basic
import VariantChess.Plane

/-!
# Boards

A board is a plane of piece identities together with the roster of every piece ever put on it. A
piece is on the board when the plane maps its recorded point back to it; a piece that was taken
stays in the roster with its last point, so that it can be put back as the same piece. The three
elementary changes (`place`, `lift`, `move`) have preconditions; breaking one is a `Fault`, after
which the board is of no further use.
-/

namespace VariantChess

/-- A broken precondition of a board operation. -/
inductive Fault where
  /-- A piece was to be placed outside the bounds. -/
  | outside (p : Point)
  /-- A piece was to be placed on an occupied point. -/
  | occupied (p : Point)
  /-- A piece was to be lifted from a point on which it does not stand. -/
  | misplaced (id : PieceId)
  /-- The roster holds no such piece. -/
  | unknown (id : PieceId)
  deriving DecidableEq, Repr

/-- A plane of piece identities and the roster of the pieces they name. -/
structure Board where
  plane : Plane PieceId
  roster : Array Piece
  deriving DecidableEq

namespace Board

/-- The board without pieces. -/
def empty (bounds : Bounds) : Board := ⟨.empty bounds, #[]⟩

/-- The bounds of the board. -/
@[inline] def bounds (b : Board) : Bounds := b.plane.bounds

/-- The identity of the piece standing on a point. -/
@[inline] def on? (b : Board) (p : Point) : Option PieceId := b.plane.get? p

/-- The piece with an identity, on the board or taken. -/
@[inline] def piece? (b : Board) (id : PieceId) : Option Piece := b.roster[id.index]?

/-- The piece standing on a point. -/
def pieceAt? (b : Board) (p : Point) : Option Piece := (b.on? p).bind b.piece?

/-- Whether a piece is on the board. -/
def has (b : Board) (id : PieceId) : Bool :=
  match b.piece? id with
  | some piece => b.on? piece.point = some id
  | none => false

/-- The identities of the pieces on the board, in point order. -/
def ids (b : Board) : List PieceId := b.plane.values

/-- Whether a piece has a colour. -/
def owns (b : Board) (c : Colour) (id : PieceId) : Bool := (b.piece? id).any (·.colour = c)

/-- The identities of one colour's pieces on the board, in point order. -/
def idsOf (b : Board) (c : Colour) : List PieceId := b.ids.filter (b.owns c)

/-- The pieces on the board, in point order. -/
def pieces (b : Board) : List Piece := b.ids.filterMap b.piece?

/-- The number of pieces on the board. -/
def count (b : Board) : Nat := b.plane.size

/-- Change the record of a piece. -/
def revise (b : Board) (id : PieceId) (f : Piece → Piece) : Board :=
  match b with
  | ⟨plane, roster⟩ => ⟨plane, roster.modify id.index f⟩

/-- Put a piece of the roster on an empty point and record the point. -/
def place (b : Board) (id : PieceId) (p : Point) : Except Fault Board :=
  if b.plane.occupied p then .error (.occupied p)
  else
    match b with
    | ⟨plane, roster⟩ =>
      match plane.put? p id with
      | none => .error (.outside p)
      | some plane => .ok ⟨plane, roster.modify id.index ({ · with point := p })⟩

/-- Take a piece off the point on which it is recorded. -/
def lift (b : Board) (id : PieceId) : Except Fault Board :=
  match b.piece? id with
  | none => .error (.unknown id)
  | some piece =>
    if b.on? piece.point = some id then
      match b with
      | ⟨plane, roster⟩ => .ok ⟨plane.clear piece.point, roster⟩
    else .error (.misplaced id)

/-- Move a piece to an empty point. -/
def move (b : Board) (id : PieceId) (p : Point) : Except Fault Board := do (← b.lift id).place id p

/-- Take a new piece into the roster and put it on its point. -/
def add (b : Board) (piece : Piece) : Except Fault Board :=
  place ⟨b.plane, b.roster.push piece⟩ ⟨b.roster.size⟩ piece.point

theorem owns_iff {b : Board} {c : Colour} {id : PieceId} :
    b.owns c id ↔ ∃ q, b.piece? id = some q ∧ q.colour = c := by
  simp [owns, Option.any_eq_true]

theorem has_iff {b : Board} {id : PieceId} :
    b.has id ↔ ∃ q, b.piece? id = some q ∧ b.on? q.point = some id := by
  unfold has
  split <;> simp_all

@[simp] theorem on?_revise (b : Board) (id : PieceId) (f : Piece → Piece) (p : Point) :
    (b.revise id f).on? p = b.on? p := rfl

/-- Changing a record changes that record only. -/
theorem piece?_revise (b : Board) (id i : PieceId) (f : Piece → Piece) :
    (b.revise id f).piece? i = if i = id then (b.piece? i).map f else b.piece? i := by
  obtain ⟨n⟩ := id
  obtain ⟨k⟩ := i
  simp only [piece?, revise, Array.getElem?_modify, PieceId.mk.injEq, eq_comm (a := n)]

/-- Lifting a piece empties its point and leaves the records alone. -/
theorem lift_eq_ok_iff {b b' : Board} {id : PieceId} :
    b.lift id = .ok b' ↔ ∃ q, b.piece? id = some q ∧ b.on? q.point = some id ∧
      b' = ⟨b.plane.clear q.point, b.roster⟩ := by
  unfold lift
  cases hq : b.piece? id with
  | none => simp
  | some q => by_cases ho : b.on? q.point = some id <;> simp [ho, eq_comm (b := b')]

/-- A piece can be placed on a vacant point inside the bounds; it occupies the point then and
records it. -/
theorem place_eq_ok_iff {b b' : Board} {id : PieceId} {p : Point} :
    b.place id p = .ok b' ↔ b.on? p = none ∧ ∃ plane, b.plane.put? p id = some plane ∧
      b' = revise ⟨plane, b.roster⟩ id ({ · with point := p }) := by
  unfold place on? Plane.occupied
  cases b.plane.get? p with
  | some i => simp
  | none => cases hp : b.plane.put? p id <;> simp [hp, revise, eq_comm (b := b')]

end Board

end VariantChess
