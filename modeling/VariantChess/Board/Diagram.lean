import VariantChess.Board.Basic

/-!
# Board diagrams

A diagram draws the board rank by rank with the greatest rank on top. A cell holds one character: a
chessman's letter or the first character of a custom code, in upper case for white and in lower case
for black where the character is an ASCII letter.
-/

namespace VariantChess

namespace Board

/-- The character of a piece in a diagram. -/
def symbol (p : Piece) : Char :=
  let c := p.kind.code.toList.headD '?'
  match p.colour with
  | .white => c.toUpper
  | .black => c.toLower

/-- A text filled up with blanks to three characters. -/
def padded (s : String) : String := s ++ String.ofList (List.replicate (3 - s.length) ' ')

/-- The diagram of a board. -/
def diagram (b : Board) : String :=
  let files := Bounds.span b.bounds.least.x b.bounds.greatest.x
  let ranks := Bounds.span b.bounds.least.y b.bounds.greatest.y
  let separator := "\n     +" ++ String.join (files.map fun _ => "---+")
  let cell (x y : Coord) : Char := ((b.pieceAt? ⟨x, y⟩).map symbol).getD ' '
  let rank (y : Coord) : String :=
    s!" {padded (toString (y.val + 1))} |" ++
      String.join (files.map fun x => s!" {cell x y} |") ++ separator ++ "\n"
  let label (x : Coord) : String :=
    " " ++ padded (String.ofList ((Point.fileLetter? x).toList.map Char.toUpper))
  separator ++ "\n" ++ String.join (ranks.reverse.map rank) ++ "\n      " ++
    String.join (files.map label) ++ "\n"

end Board

end VariantChess
