import VariantChess.PieceSet.Basic

/-!
# Layouts

A layout is the text of a position: an optional side to move (`w` or `b`, white when absent) and
then piece encodings, separated by white space. A board writes its pieces in point order.
-/

namespace VariantChess

/-- Why a text is no layout. -/
inductive LayoutError where
  /-- A token is no encoding of a known piece. -/
  | piece (error : EncodingError)
  /-- A piece stands outside the board. -/
  | outside (p : Point)
  /-- Two pieces stand on one point. -/
  | occupied (p : Point)
  /-- A colour has two kings. -/
  | duplicateKing (c : Colour)
  /-- A single character does not come first or names no colour. -/
  | misplacedTurn (token : String)
  deriving DecidableEq, Repr

/-- The wording of a layout error. -/
def LayoutError.message : LayoutError → String
  | .piece e => s!"Invalid piece in layout: {e.message}"
  | .outside p => s!"Piece placed outside the board at {p}"
  | .occupied p => s!"Two pieces placed on {p}"
  | .duplicateKing c => s!"More than one {c} king in layout"
  | .misplacedTurn t => s!"Side-to-move token '{t}' must be 'w' or 'b' and come first"

namespace Board

/-- The layout of the orthodox initial position. -/
def orthodoxLayout : String :=
  "w wRa1* wNb1* wBc1* wQd1* wKe1* wBf1* wNg1* wRh1* " ++
  "wPa2* wPb2* wPc2* wPd2* wPe2* wPf2* wPg2* wPh2* " ++
  "bPa7* bPb7* bPc7* bPd7* bPe7* bPf7* bPg7* bPh7* " ++
  "bRa8* bNb8* bBc8* bQd8* bKe8* bBf8* bNg8* bRh8*"

/-- Whether a king of a colour is on the board. -/
def hasKing (b : Board) (c : Colour) : Bool := b.pieces.any fun q => q.isKing && q.colour = c

/-- Put the piece that a token encodes on the board. -/
def addToken (set : PieceSet) (b : Board) (token : List Char) : Except LayoutError Board :=
  if token.length = 1 then .error (.misplacedTurn (String.ofList token))
  else
    match set.readPiece token with
    | .error e => .error (.piece e)
    | .ok piece =>
      match b.add piece with
      | .error (.occupied p) => .error (.occupied p)
      | .error _ => .error (.outside piece.point)
      | .ok board =>
        if piece.isKing && b.hasKing piece.colour then .error (.duplicateKing piece.colour)
        else .ok board

/-- The side to move that a layout starts with, and the tokens of its pieces. -/
def readTurn : List (List Char) → Except LayoutError (Colour × List (List Char))
  | [c] :: rest =>
    match Colour.ofCode? c with
    | some turn => .ok (turn, rest)
    | none => .error (.misplacedTurn (String.ofList [c]))
  | tokens => .ok (.white, tokens)

/-- Read a board and the side to move from a layout. -/
def read (set : PieceSet) (bounds : Bounds) (cs : List Char) :
    Except LayoutError (Board × Colour) := do
  let (turn, tokens) ← readTurn (Text.words cs)
  let board ← tokens.foldlM (addToken set) (Board.empty bounds)
  return (board, turn)

/-- The characters of the layout of a board without the side to move. -/
def text (b : Board) : List Char := [' '].intercalate (b.pieces.map Piece.text)

end Board

end VariantChess
