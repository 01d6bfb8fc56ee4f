import VariantChess.Colour

/-!
# Status of a game

A game is pending until its first ply and ongoing or in check after that, until it is won or
stalemate. `unchanged` is only ever an answer: it says that an operation did nothing, and no game
has it as its status.
-/

namespace VariantChess

/-- The status of a game, or the answer that an operation changed nothing. -/
inductive Status where
  | pending
  | ongoing
  | check (defender : Colour)
  | won (winner : Colour)
  | stalemate
  | unchanged
  deriving DecidableEq, Repr

namespace Status

/-- Whether the game is over. -/
def isTerminal : Status → Bool
  | .won _ => true
  | .stalemate => true
  | _ => false

/-- The winner of a won game. -/
def winner? : Status → Option Colour
  | .won c => some c
  | _ => none

/-- The name of a status in messages. -/
def name : Status → String
  | .pending => "Pending"
  | .ongoing => "Ongoing"
  | .check .white => "WhiteInCheck"
  | .check .black => "BlackInCheck"
  | .won .white => "WhiteWin"
  | .won .black => "BlackWin"
  | .stalemate => "Stalemate"
  | .unchanged => "NoChange"

instance : ToString Status := ⟨name⟩

/-- Every status, in table order. -/
def all : List Status :=
  [.pending, .ongoing, .check .white, .check .black, .won .white, .won .black, .stalemate,
    .unchanged]

end Status

end VariantChess
