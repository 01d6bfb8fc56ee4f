import VariantChess.Game.Basic

/-!
# Scores

A score is counted in hundredths of a pawn and is positive when it favours white. A decided game has
a score of `Score.win` for its winner. Any other position is worth its material and its mobility:
every threat counts four.

Scores are integers without a bound. Overflow is not modelled: where scores are kept in words of fixed
width, what is said here holds as long as the registered values keep every sum inside the word.
-/

namespace VariantChess

/-- A number of hundredths of a pawn, positive in favour of white. It has no bound, so overflow of
registered values is not modelled. -/
structure Score where
  centipawns : Int
  deriving DecidableEq, Repr

namespace Score

instance : Add Score := ⟨fun a b => ⟨a.centipawns + b.centipawns⟩⟩
instance : Sub Score := ⟨fun a b => ⟨a.centipawns - b.centipawns⟩⟩
instance : Mul Score := ⟨fun a b => ⟨a.centipawns * b.centipawns⟩⟩
instance : Neg Score := ⟨fun a => ⟨-a.centipawns⟩⟩
instance : LE Score := ⟨fun a b => a.centipawns ≤ b.centipawns⟩
instance : LT Score := ⟨fun a b => a.centipawns < b.centipawns⟩
instance (a b : Score) : Decidable (a ≤ b) :=
  inferInstanceAs (Decidable (a.centipawns ≤ b.centipawns))
instance (a b : Score) : Decidable (a < b) :=
  inferInstanceAs (Decidable (a.centipawns < b.centipawns))
instance : Max Score := maxOfLe
instance : Min Score := minOfLe

/-- The score of a balanced position and of a stalemate. -/
def zero : Score := ⟨0⟩

/-- The score of a game won by white. -/
def win : Score := ⟨100000⟩

/-- A bound beyond every score. -/
def infinity : Score := ⟨1000000⟩

/-- The worth of one threat. -/
def perThreat : Score := ⟨4⟩

/-- The score without its sign. -/
def abs (s : Score) : Score := ⟨s.centipawns.natAbs⟩

/-- Whether a score reports a decided game. -/
def isWin (s : Score) : Bool := win ≤ s.abs

instance : ToString Score := ⟨fun s =>
  if win ≤ s then "white wins" else if s ≤ -win then "black wins" else s!"cp {s.centipawns}"⟩

end Score

namespace Game

/-- The total value of a colour's pieces on the board, as an exact sum: overflow of registered values
is not modelled. -/
def material (g : Game) (c : Colour) : Int :=
  (g.board.pieces.filter (·.colour = c)).foldr (fun p v => g.pieceSet.value p.kind + v) 0

/-- What one side contributes to the score of an undecided position. -/
def sideScore (g : Game) (c : Colour) : Score :=
  ⟨g.material c⟩ + ⟨(g.threats.get c).mobility⟩ * Score.perThreat

/-- The score of a position without looking ahead. -/
def evaluate (g : Game) : Score :=
  match g.status with
  | .won .white => .win
  | .won .black => -.win
  | .stalemate => .zero
  | _ => g.sideScore .white - g.sideScore .black

end Game

end VariantChess
