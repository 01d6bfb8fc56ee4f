import VariantChess.Action
import VariantChess.Piece.Encoding

/-!
# Written moves

A move is written as the kind of its mover, its two squares and a separator between them: `Pe2-e4`
for a quiet move, `~camel~a10xb13` for one that takes a piece.
-/

namespace VariantChess

/-- A written move. -/
structure MoveText where
  kind : Kind
  source : Point
  target : Point
  capture : Bool
  deriving DecidableEq, Repr

/-- Why a text is no written move. -/
inductive MoveTextError where
  /-- The text is empty. -/
  | empty
  /-- The text starts with no kind. -/
  | kind (text : String)
  /-- The squares are not separated. -/
  | separator (text : String)
  /-- A square cannot be read. -/
  | point (error : PointError)
  deriving DecidableEq, Repr

/-- The wording of a written move's error. -/
def MoveTextError.message : MoveTextError → String
  | .empty => "Move notation is empty"
  | .kind s => s!"Invalid piece code in move notation: {s}"
  | .separator s => s!"Move notation needs '-' or 'x' between the squares: {s}"
  | .point e => s!"Invalid square in move notation: {e.message}"

namespace MoveText

/-- The character between the two squares. -/
def separator (capture : Bool) : Char := if capture then 'x' else '-'

/-- The characters of a written move. -/
def text (m : MoveText) : List Char :=
  m.kind.text ++ m.source.text ++ separator m.capture :: m.target.text

instance : ToString MoveText := ⟨fun m => String.ofList m.text⟩

/-- The action that a written move describes for a colour. -/
def action (m : MoveText) (c : Colour) : Action := ⟨c, m.source, m.target⟩

/-- Read the kind at the start of a written move; a custom code may be any text without tildes. -/
def readKind : List Char → Except MoveTextError (Kind × List Char)
  | [] => .error .empty
  | '~' :: rest =>
    match Kind.splitTilde? rest with
    | none => .error (.kind (String.ofList ('~' :: rest)))
    | some (code, rest) => .ok (.custom (String.ofList code), rest)
  | c :: rest =>
    match Chessman.ofCode? c with
    | none => .error (.kind (String.ofList [c]))
    | some m => .ok (.standard m, rest)

/-- Cut the squares of a written move apart. A square is one character and the digits that follow
it; what comes next separates it from the second square. -/
def splitSquares? : List Char → Option (List Char × Bool × List Char)
  | [] => none
  | c :: rest =>
    match rest.dropWhile Char.isDigit with
    | '-' :: target => some (c :: rest.takeWhile Char.isDigit, false, target)
    | 'x' :: target => some (c :: rest.takeWhile Char.isDigit, true, target)
    | _ => none

/-- Read a written move. -/
def read (cs : List Char) : Except MoveTextError MoveText := do
  let (kind, rest) ← readKind cs
  match splitSquares? rest with
  | none => throw (.separator (String.ofList cs))
  | some (first, capture, second) =>
    let source ← (Point.read first).mapError .point
    let target ← (Point.read second).mapError .point
    return { kind, source, target, capture }

end MoveText

end VariantChess
