import VariantChess.Point.Basic

/-!
# Algebraic form of points

A point is written as a file letter and a rank number counted from one: `e4`, `z26`. Files past `z`
have no letter, and such a point is written by its coordinates instead, as `(30,2)`. Only the
algebraic form is read back, with ranks `1..26`.
-/

namespace VariantChess

/-- How many files have a letter; boards reach no further on either axis. -/
def algebraicExtent : Nat := 26

namespace Point

/-- The letter of a file, for the files that have one. -/
def fileLetter? (x : Coord) : Option Char :=
  if x.val < algebraicExtent then some (Char.ofNat (97 + x.val)) else none

/-- The file that a letter names. -/
def fileOfLetter? (c : Char) : Option Coord :=
  if h : 97 ≤ c.toNat ∧ c.toNat < 97 + 26 then some ⟨c.toNat - 97, by omega⟩ else none

/-- The number of bytes of a text in UTF-8. -/
def byteLength (cs : List Char) : Nat := cs.foldr (fun c n => c.utf8Size + n) 0

/-- The characters of a point's written form. -/
def text (p : Point) : List Char :=
  match fileLetter? p.x with
  | some c => c :: Nat.toDigits 10 (p.y.val + 1)
  | none => '(' :: Nat.toDigits 10 p.x.val ++ ',' :: Nat.toDigits 10 p.y.val ++ [')']

instance : ToString Point := ⟨fun p => String.ofList p.text⟩

/-- Read a rank number in `1..26`, given as decimal digits. -/
def readRank (ds : List Char) : Except PointError Coord :=
  if h : ds.all Char.isDigit ∧ 1 ≤ Nat.ofDigitChars 10 ds 0 ∧ Nat.ofDigitChars 10 ds 0 ≤ 26 then
    .ok ⟨Nat.ofDigitChars 10 ds 0 - 1, by omega⟩
  else .error (.rank (String.ofList ds))

/-- Read the algebraic form: one file letter, then one or two bytes of rank. -/
def read : List Char → Except PointError Point
  | [] => .error (.length 0)
  | c :: ds =>
    match fileOfLetter? c with
    | none => .error (.file c)
    | some x =>
      if ds.isEmpty || 2 < byteLength ds then .error (.length (byteLength (c :: ds)))
      else (readRank ds).map fun y => ⟨x, y⟩

/-- A letter names a file exactly when the file has that letter. -/
theorem fileOfLetter?_fileLetter? {x : Coord} {c : Char} (h : fileLetter? x = some c) :
    fileOfLetter? c = some x := by
  revert h
  unfold fileLetter?
  split
  · rintro h
    cases h
    revert x
    decide
  · exact fun h => nomatch h

/-- Every point that a board can hold is read back from its written form. -/
theorem read_text (p : Point) (hx : p.x.val < 26) (hy : p.y.val < 26) : read p.text = .ok p := by
  have every : ∀ x y : Coord, x.val < 26 → y.val < 26 →
      (read (text ⟨x, y⟩)).toOption = some ⟨x, y⟩ := by decide +kernel
  have h := every p.x p.y hx hy
  cases hr : read p.text with
  | error e => simp [hr, Except.toOption] at h
  | ok q =>
    rw [hr] at h
    exact congrArg _ (Option.some.inj h)

end Point

end VariantChess
