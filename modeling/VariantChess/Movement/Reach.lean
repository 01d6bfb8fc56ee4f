import VariantChess.Movement.Basic

/-!
# The reach of a movement

A movement is walked quadrant by quadrant. In each quadrant its template points are visited in
order: a slide ends at the first occupied point and at the edge of the board, a jump skips what is
off the board. The points that the piece may move to and the points that it threatens differ. A
piece moves to empty points and to those of hostile pieces, as the movement allows; it also
threatens the points of its own side, and looks through the opposing king.

`Movement.walk` gives the points of the walk when conditions are ignored and `Movement.candidates`
those that satisfy the conditions, without repeats and in the order of the walk.
-/

namespace VariantChess

/-- Which reach is asked for. -/
inductive Mode where
  /-- The points that the piece may move to now. -/
  | moves
  /-- The points that the piece threatens, those of its own side included. -/
  | threats
  deriving DecidableEq, Repr

namespace Movement

/-- The point of the board that a template point is reflected to, if it is on the board. -/
def landing? (s : Situation) (quadrant : Int × Int) (step : Point) : Option Point :=
  s.board.bounds.locate? (s.origin.x.val + quadrant.1 * step.x.val)
    (s.origin.y.val + quadrant.2 * step.y.val)

/-- Whether a point with the given occupant can be reached. -/
def reaches (m : Movement) (s : Situation) (mode : Mode) (occupant : Option Piece) : Bool :=
  match occupant, mode with
  | none, .moves => m.isMove
  | none, .threats => m.isAttack
  | some piece, .moves => m.isAttack && piece.colour ≠ s.colour
  | some _, .threats => m.isAttack

/-- Whether a slide goes on past a point with the given occupant. Threats pass through the opposing
king, so that it cannot retreat along the line of attack. -/
def passes (s : Situation) (mode : Mode) : Option Piece → Bool
  | none => true
  | some piece => mode = .threats && piece.colour ≠ s.colour && piece.isKing

/-- The points reached in one quadrant, nearest template point first. -/
def arm (m : Movement) (s : Situation) (mode : Mode) (quadrant : Int × Int) :
    List Point → List Point
  | [] => []
  | step :: rest =>
    match landing? s quadrant step with
    | none =>
      match m.stride with
      | .slide => []
      | .jump => arm m s mode quadrant rest
    | some p =>
      let occupant := s.board.pieceAt? p
      let beyond :=
        if m.stride = .jump || passes s mode occupant then arm m s mode quadrant rest else []
      if m.reaches s mode occupant then p :: beyond else beyond

/-- The points reached in every quadrant, conditions ignored. -/
def walk (m : Movement) (s : Situation) (mode : Mode) : List Point :=
  (m.quadrants s.colour).flatMap fun q => m.arm s mode q m.template.points

/-- The points that a movement reaches under its conditions. Conditions that do not depend on the
destination are judged once and the others at every point of the walk. -/
def candidates (m : Movement) (s : Situation) (mode : Mode) : List Point :=
  if mode = .threats && !m.isAttack then []
  else
    let (perPoint, upFront) := m.conditions.partition Condition.usesDestination
    if upFront.all (·.holds s) then
      ((m.walk s mode).filter fun p => perPoint.all (·.holds (s.heading p))).eraseDups
    else []

end Movement

end VariantChess
