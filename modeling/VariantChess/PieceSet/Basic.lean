import VariantChess.Piece.Encoding
import VariantChess.PieceSet.Orthodox

/-!
# Piece sets

A piece set gives every kind its movements and its value: the orthodox chessmen always, and the
custom kinds registered in it. Registering a code again replaces its piece. A piece set also decides
which piece encodings name a known kind.
-/

namespace VariantChess

/-- What a custom kind is: its material value and its movements in order of priority. The value may be
any integer, and sums of values do not overflow: that a word of fixed width would wrap or trap on
large registered values is not modelled. -/
structure CustomPiece where
  value : Int
  movements : List Movement
  deriving DecidableEq, Repr

/-- The orthodox chessmen together with the registered custom kinds, ordered by code. -/
structure PieceSet where
  customs : OrderedMap String CustomPiece
  deriving DecidableEq

namespace PieceSet

/-- The piece set without custom kinds. -/
def orthodox : PieceSet := ⟨.empty⟩

/-- Register a custom kind under a code. -/
def register (s : PieceSet) (code : String) (piece : CustomPiece) :
    Except EncodingError PieceSet :=
  if Kind.validCode code.toList then .ok ⟨s.customs.insert code piece⟩ else .error (.code code)

/-- The kind registered under a code. -/
def custom? (s : PieceSet) (code : String) : Option Kind :=
  (s.customs.get? code).map fun _ => .custom code

/-- The movements of a kind, in order of priority. -/
def movements (s : PieceSet) : Kind → List Movement
  | .standard m => m.movements
  | .custom code => ((s.customs.get? code).map (·.movements)).getD []

/-- The material value of a kind. -/
def value (s : PieceSet) : Kind → Int
  | .standard m => m.value
  | .custom code => ((s.customs.get? code).map (·.value)).getD 0

/-- Whether a kind is a chessman or registered. -/
def knows (s : PieceSet) : Kind → Bool
  | .standard _ => true
  | .custom code => s.customs.contains code

/-- Read a piece of a known kind from its encoding. -/
def readPiece (s : PieceSet) (cs : List Char) : Except EncodingError Piece := do
  let piece ← Piece.read cs
  if s.knows piece.kind then .ok piece else .error (.unknown piece.kind.code)

end PieceSet

end VariantChess
