import VariantChess.Movement.Reach

/-!
# The movements of the orthodox chessmen

Every chessman is described by movements alone. A pawn's step and capture come twice: once for
points with a point ahead on the board, and once for the last rank, where the pawn becomes a queen.
Castling is a jump of the king of two files with the rook relocated behind it, gated by the state of
both pieces and by the opponent's threats. En passant is a pawn's step to an empty point that
removes the pawn behind it.
-/

namespace VariantChess

namespace Orthodox

/-- The longest ray of the coordinate square that goes along the files, the ranks or both. -/
def ray (files ranks : Bool) : Path :=
  .ofPoints <| (List.finRange 31).map fun k =>
    ⟨⟨if files then k.val + 1 else 0, by split <;> omega⟩,
      ⟨if ranks then k.val + 1 else 0, by split <;> omega⟩⟩

/-- The point ahead of the destination. -/
def ahead : Location := Location.destination.offset 0 1

/-- The point behind the destination, where a pawn taken en passant stands. -/
def behind : Location := Location.destination.offset 0 (-1)

/-- A pawn's step to an empty point. -/
def pawnStep : Movement := (Movement.jump (.ofPoints [.ofCoords 0 1])).inOneQuadrant.moveOnly

/-- A pawn's first step of two ranks. -/
def pawnDoubleStep : Movement :=
  (Movement.jump (.ofPoints [.ofCoords 0 2])).inOneQuadrant.moveOnly
    |>.when (.flag .mover .moved false)
    |>.when (.vacant (.path .origin .destination))

/-- A pawn's capture. -/
def pawnCapture : Movement :=
  ((Movement.jump (.ofPoints [.ofCoords 1 1])).reflected false true).attackOnly

/-- Taking a pawn that has just made its double step. -/
def enPassant : Movement :=
  ((Movement.jump (.ofPoints [.ofCoords 1 1])).reflected false true).moveOnly
    |>.when (.kind (.standing behind) "P")
    |>.when (.flag (.standing behind) .friendly false)
    |>.when (.same (.standing behind) .lastMoved)
    |>.when (.log .firstMove .isTrue none)
    |>.when (.log .distance .equal (some (.int 2)))
    |>.followedBy (.remove behind)

/-- The movements of a pawn. -/
def pawn : List Movement :=
  [pawnStep.when (.onBoard ahead true),
    (pawnStep.when (.onBoard ahead false)).followedBy (.promote .queen),
    pawnDoubleStep,
    pawnCapture.when (.onBoard ahead true),
    (pawnCapture.when (.onBoard ahead false)).followedBy (.promote .queen),
    enPassant]

/-- The movements of a knight. -/
def knight : List Movement :=
  [(Movement.jump (.ofPoints [.ofCoords 1 2, .ofCoords 2 1])).reflected true true]

/-- The movements of a bishop. -/
def bishop : List Movement := [(Movement.slide (ray true true)).reflected true true]

/-- The movements of a rook. -/
def rook : List Movement :=
  [(Movement.slide (ray false true)).reflected true false,
    (Movement.slide (ray true false)).reflected false true]

/-- The movements of a queen. -/
def queen : List Movement := rook ++ bishop

/-- A king's step to a neighbouring point. -/
def kingStep : Movement :=
  (Movement.jump (.ofPoints [.ofCoords 0 1, .ofCoords 1 1, .ofCoords 1 0])).reflected true true

/-- Castling with the rook `rookDx` files away: the king jumps two files in the direction `side`,
and the rook lands on the point that the king crossed. -/
def castle (side rookDx : Int) : Movement :=
  let corner := Location.origin.offset rookDx 0
  let crossed := Location.origin.offset side 0
  ((Movement.jump (.ofPoints [.ofCoords 2 0])).reflected false (side < 0)).inOneQuadrant.moveOnly
    |>.when (.flag .mover .moved false)
    |>.when (.kind (.standing corner) "R")
    |>.when (.flag (.standing corner) .friendly true)
    |>.when (.flag (.standing corner) .moved false)
    |>.when (.vacant (.path .origin corner))
    |>.when (.threat .origin false)
    |>.when (.threat crossed false)
    |>.followedBy (.relocate corner crossed)

/-- The movements of a king: a step, and castling on the king's side and on the queen's side. -/
def king : List Movement := [kingStep, castle 1 3, castle (-1) (-4)]

end Orthodox

/-- The movements of a chessman, in order of priority. -/
def Chessman.movements : Chessman → List Movement
  | .pawn => Orthodox.pawn
  | .knight => Orthodox.knight
  | .bishop => Orthodox.bishop
  | .rook => Orthodox.rook
  | .queen => Orthodox.queen
  | .king => Orthodox.king

end VariantChess
