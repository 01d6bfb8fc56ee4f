import VariantChess.Piece.Basic
import VariantChess.Text.Blank

/-!
# Reading piece encodings

An encoding is a colour letter, a kind, a point in algebraic form and, for a piece that has not
moved, a star: `wPe2*`, `b~amazon~d8`. The kind is a chessman's letter or a custom code between
tildes. Custom codes are not empty and hold neither tildes nor white space. Whether a custom code
is known is not decided here.
-/

namespace VariantChess

/-- Why a text encodes no piece. -/
inductive EncodingError where
  /-- The text ends before its kind is complete. -/
  | empty
  /-- The first letter names no colour. -/
  | colour (letter : Char)
  /-- The second letter names no chessman. -/
  | kind (letter : Char)
  /-- A custom code has no closing tilde. -/
  | unterminated (text : String)
  /-- A custom code is empty or holds a forbidden character. -/
  | code (text : String)
  /-- A custom code is not in the piece set. -/
  | unknown (code : String)
  /-- The point cannot be read. -/
  | point (error : PointError)
  deriving DecidableEq, Repr

/-- The wording of an encoding error. -/
def EncodingError.message : EncodingError → String
  | .empty => "Piece encoding is empty or truncated"
  | .colour c => s!"Invalid colour character: '{c}', expected 'w' or 'b'"
  | .kind c => s!"Invalid piece code: '{c}', expected one of PNBRQK or ~code~"
  | .unterminated s => s!"Custom piece code is not closed with '~': {s}"
  | .code s => s!"Invalid custom piece code: '{s}'"
  | .unknown s => s!"No custom piece registered with code '{s}'"
  | .point e => s!"Invalid piece point: {e.message}"

namespace Kind

/-- Whether a character may stand in a custom code. -/
def allowed (c : Char) : Bool := c != '~' && !Text.isBlank c

/-- Whether a text may be a custom code. -/
def validCode (cs : List Char) : Bool := !cs.isEmpty && cs.all allowed

/-- Cut a text at its first tilde, which belongs to neither part. -/
def splitTilde? (cs : List Char) : Option (List Char × List Char) :=
  match cs.dropWhile (· != '~') with
  | [] => none
  | _ :: rest => some (cs.takeWhile (· != '~'), rest)

end Kind

namespace Piece

/-- Read the kind at the start of what follows the colour letter of `whole`. -/
def readKind (whole : List Char) : List Char → Except EncodingError (Kind × List Char)
  | [] => .error .empty
  | '~' :: rest =>
    match Kind.splitTilde? rest with
    | none => .error (.unterminated (String.ofList whole))
    | some (code, rest) =>
      if Kind.validCode code then .ok (.custom (String.ofList code), rest)
      else .error (.code (String.ofList code))
  | c :: rest =>
    match Chessman.ofCode? c with
    | none => .error (.kind c)
    | some m => .ok (.standard m, rest)

/-- Cut off the star that marks an unmoved piece, and say whether it was missing. -/
def splitStar (cs : List Char) : List Char × Bool :=
  if cs.getLast? = some '*' then (cs.dropLast, false) else (cs, true)

/-- Read a piece from its encoding. -/
def read : List Char → Except EncodingError Piece
  | [] => .error .empty
  | c :: rest =>
    match Colour.ofCode? c with
    | none => .error (.colour c)
    | some colour => do
      let (kind, rest) ← readKind (c :: rest) rest
      let (place, moved) := splitStar rest
      match Point.read place with
      | .error e => .error (.point e)
      | .ok point => .ok { colour, kind, point, moved }

end Piece

end VariantChess
