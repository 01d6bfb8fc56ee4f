import VariantChess.Point.Algebraic

/-!
# Pieces

A piece has a colour, a kind, a point and a mark that says whether it has moved. Its kind is one of
the six chessmen of the orthodox game or a custom kind named by a code; how a kind moves is the
business of a piece set. A kind is nothing but its name: two custom kinds are equal exactly when
their codes are, and no custom kind equals a chessman.
-/

namespace VariantChess

/-- The six chessmen of the orthodox game. -/
inductive Chessman where
  | pawn
  | knight
  | bishop
  | rook
  | queen
  | king
  deriving DecidableEq, Repr

namespace Chessman

/-- Every chessman, in table order. -/
def all : List Chessman := [.pawn, .knight, .bishop, .rook, .queen, .king]

/-- The position of a chessman in `Chessman.all`. -/
def index : Chessman → Nat
  | .pawn => 0
  | .knight => 1
  | .bishop => 2
  | .rook => 3
  | .queen => 4
  | .king => 5

/-- The chessman at a position of `Chessman.all`. -/
def ofIndex? (i : Nat) : Option Chessman := all[i]?

/-- The letter of a chessman in piece encodings. -/
def code : Chessman → Char
  | .pawn => 'P'
  | .knight => 'N'
  | .bishop => 'B'
  | .rook => 'R'
  | .queen => 'Q'
  | .king => 'K'

/-- The chessman that a letter names. -/
def ofCode? : Char → Option Chessman
  | 'P' => some .pawn
  | 'N' => some .knight
  | 'B' => some .bishop
  | 'R' => some .rook
  | 'Q' => some .queen
  | 'K' => some .king
  | _ => none

/-- The material value of a chessman in hundredths of a pawn. -/
def value : Chessman → Int
  | .pawn => 100
  | .knight => 320
  | .bishop => 330
  | .rook => 500
  | .queen => 900
  | .king => 0

@[simp] theorem ofCode?_code (m : Chessman) : ofCode? m.code = some m := by cases m <;> rfl

/-- A letter names a chessman only if it is that chessman's letter. -/
theorem eq_code_of_ofCode? {c : Char} {m : Chessman} (h : ofCode? c = some m) : c = m.code := by
  unfold ofCode? at h
  split at h <;> cases h <;> rfl

end Chessman

/-- The kind of a piece: a chessman, or a custom kind named by its code. -/
inductive Kind where
  | standard (m : Chessman)
  | custom (code : String)
  deriving DecidableEq, Repr

namespace Kind

/-- The bare code of a kind, which kind conditions compare. -/
def code : Kind → String
  | .standard m => String.ofList [m.code]
  | .custom c => c

/-- The characters that name a kind in encodings: a chessman's letter, or a code between tildes. -/
def text : Kind → List Char
  | .standard m => [m.code]
  | .custom c => '~' :: c.toList ++ ['~']

instance : ToString Kind := ⟨fun k => String.ofList k.text⟩

end Kind

/-- The identity of a piece: its place in the roster of the board that it was put on. -/
structure PieceId where
  index : Nat
  deriving DecidableEq, Repr

namespace PieceId

instance : Ord PieceId := ⟨compareOn index⟩

instance : Std.TransOrd PieceId := inferInstanceAs (Std.TransCmp (compareOn index))

instance : Std.LawfulEqOrd PieceId where
  eq_of_compare {a b} h := by
    have : a.index = b.index :=
      Std.LawfulEqOrd.eq_of_compare (show compare a.index b.index = .eq from h)
    cases a
    cases b
    exact congrArg _ this

instance : ToString PieceId := ⟨fun id => s!"#{id.index}"⟩

end PieceId

/-- A piece. A piece that was taken keeps the point on which it last stood. -/
structure Piece where
  colour : Colour
  kind : Kind
  point : Point
  moved : Bool
  deriving DecidableEq, Repr

namespace Piece

/-- Whether a piece is the king of the orthodox game. -/
def isKing (p : Piece) : Bool := p.kind = .standard .king

/-- The characters of a piece's encoding: colour, kind, point, and a star if it has not moved. -/
def text (p : Piece) : List Char :=
  p.colour.code :: p.kind.text ++ p.point.text ++ if p.moved then [] else ['*']

instance : ToString Piece := ⟨fun p => String.ofList p.text⟩

end Piece

end VariantChess
