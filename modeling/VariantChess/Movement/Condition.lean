import VariantChess.Movement.Reference

/-!
# Conditions

A condition is a predicate that gates a movement. It compares a property of the pieces a reference
names, compares two references, looks at the latest ply, asks whether the opponent threatens a
location, or asks whether a location lies on the board.

Two conventions decide the border cases. A property condition whose reference names nothing holds
only for the comparator `absent`. A log condition fails when there is no ply, and a threat condition
fails while the opponent's threats are not known.
-/

namespace VariantChess

/-- How a value is compared. -/
inductive Comparator where
  | present
  | absent
  | isTrue
  | isFalse
  | equal
  | notEqual
  deriving DecidableEq, Repr

/-- A value read from a piece or from the latest ply. -/
inductive Value where
  | bool (b : Bool)
  | colour (c : Colour)
  | code (s : String)
  | int (n : Int)
  deriving DecidableEq, Repr

/-- Whether a value that was read passes a comparison. -/
def Comparator.test (c : Comparator) (value : Value) (expected : Option Value) : Bool :=
  match c with
  | .present => true
  | .absent => false
  | .isTrue => value = .bool true
  | .isFalse => value = .bool false
  | .equal => expected = some value
  | .notEqual => expected ≠ some value

/-- A property of a piece. -/
inductive Property where
  /-- Whether the piece has moved. -/
  | moved
  /-- Whether the piece belongs to the mover's side. -/
  | friendly
  /-- The bare code of its kind. -/
  | kind
  | colour
  deriving DecidableEq, Repr

/-- The value of a property of a piece, for a mover of the given colour. -/
def Property.read (p : Property) (piece : Piece) (mover : Colour) : Value :=
  match p with
  | .moved => .bool piece.moved
  | .friendly => .bool (piece.colour = mover)
  | .kind => .code piece.kind.code
  | .colour => .colour piece.colour

/-- A fact about the latest ply. -/
inductive LogQuery where
  /-- Whether it was its mover's first move. -/
  | firstMove
  /-- The number of king steps between its two ends. -/
  | distance
  deriving DecidableEq, Repr

/-- The value of a fact about a ply. -/
def LogQuery.read (q : LogQuery) (ply : Ply) : Value :=
  match q with
  | .firstMove => .bool ply.first
  | .distance => .int (Point.distance ply.source ply.target)

/-- A predicate that gates a movement. -/
inductive Condition where
  /-- Every piece that the reference names passes the comparison. -/
  | property (ref : Reference) (property : Property) (test : Comparator) (expected : Option Value)
  /-- The pieces that two references name compare as told. -/
  | pieces (left right : Reference) (test : Comparator)
  /-- A fact about the latest ply passes the comparison. -/
  | log (query : LogQuery) (test : Comparator) (expected : Option Value)
  /-- The opponent threatens a location, or does not. -/
  | threat (place : Location) (expected : Bool)
  /-- A location lies on the board, or does not. -/
  | onBoard (place : Location) (expected : Bool)
  deriving DecidableEq, Repr

namespace Condition

/-- A yes-or-no property of every named piece has the given value. -/
def flag (ref : Reference) (property : Property) (value : Bool) : Condition :=
  .property ref property (if value then .isTrue else .isFalse) none

/-- Every named piece has the kind with the given code. -/
def kind (ref : Reference) (code : String) : Condition :=
  .property ref .kind .equal (some (.code code))

/-- The reference names nothing. -/
def vacant (ref : Reference) : Condition := .property ref .moved .absent none

/-- The reference names something. -/
def occupied (ref : Reference) : Condition := .property ref .moved .present none

/-- Two references name the same pieces, and not nothing. -/
def same (left right : Reference) : Condition := .pieces left right .equal

/-- Whether the outcome depends on the candidate destination. -/
def usesDestination : Condition → Bool
  | .property ref .. => ref.usesDestination
  | .pieces left right _ => left.usesDestination || right.usesDestination
  | .log .. => false
  | .threat place _ => place.usesDestination
  | .onBoard place _ => place.usesDestination

/-- Whether the outcome can change while the mover and the points along its reach stay as they
are. The threats of a piece with such a condition are recomputed after every ply. -/
def isVolatile : Condition → Bool
  | .onBoard .. => false
  | _ => true

/-- How two lists of named pieces compare as sets; two empty lists are not equal. -/
def comparePieces (test : Comparator) (left right : List PieceId) : Bool :=
  let sorted (l : List PieceId) := l.mergeSort fun a b => a.index ≤ b.index
  match test with
  | .present => !left.isEmpty && !right.isEmpty
  | .absent => left.isEmpty && right.isEmpty
  | .equal => !left.isEmpty && sorted left = sorted right
  | .isTrue => !left.isEmpty && sorted left = sorted right
  | .notEqual => sorted left ≠ sorted right
  | .isFalse => sorted left ≠ sorted right

/-- Whether the condition holds in a situation. -/
def holds (c : Condition) (s : Situation) : Bool :=
  match c with
  | .property ref prop test expected =>
    match ref.resolve s with
    | [] => test = .absent
    | ids => ids.all fun id =>
      (s.board.piece? id).any fun piece => test.test (prop.read piece s.colour) expected
  | .pieces left right test => comparePieces test (left.resolve s) (right.resolve s)
  | .log query test expected => s.lastPly.any fun ply => test.test (query.read ply) expected
  | .threat place expected =>
    match s.opposing, place.resolve s with
    | some threats, some p => threats.threatens p = expected
    | _, _ => false
  | .onBoard place expected => (place.resolve s).any s.board.bounds.contains = expected

end Condition

end VariantChess
