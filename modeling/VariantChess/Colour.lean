/-!
# The two sides of a game

White moves up the ranks and black moves down. `Sides` holds one value for each colour, such as
the two threat maps of a game or the identities of the two kings.
-/

namespace VariantChess

/-- The two sides of a game. -/
inductive Colour where
  | white
  | black
  deriving DecidableEq, Repr

namespace Colour

/-- Both colours, white first. -/
def all : List Colour := [.white, .black]

/-- The position of a colour in `Colour.all`. -/
def index : Colour → Nat
  | .white => 0
  | .black => 1

/-- The colour at a position of `Colour.all`. -/
def ofIndex? (i : Nat) : Option Colour := all[i]?

/-- The opponent. -/
def other : Colour → Colour
  | .white => .black
  | .black => .white

/-- The sign of the rank direction that a colour calls forward. -/
def forward : Colour → Int
  | .white => 1
  | .black => -1

/-- The letter of a colour in piece encodings and layouts. -/
def code : Colour → Char
  | .white => 'w'
  | .black => 'b'

/-- The colour that a letter names. -/
def ofCode? : Char → Option Colour
  | 'w' => some .white
  | 'b' => some .black
  | _ => none

/-- The name of a colour in messages. -/
def name : Colour → String
  | .white => "white"
  | .black => "black"

instance : ToString Colour := ⟨name⟩

@[simp] theorem other_other (c : Colour) : c.other.other = c := by cases c <;> rfl

@[simp] theorem other_ne (c : Colour) : c.other ≠ c := by cases c <;> decide

theorem eq_or_eq_other (c d : Colour) : d = c ∨ d = c.other := by cases c <;> cases d <;> decide

@[simp] theorem forward_other (c : Colour) : c.other.forward = -c.forward := by cases c <;> rfl

theorem forward_eq (c : Colour) : c.forward = 1 ∨ c.forward = -1 := by cases c <;> decide

@[simp] theorem ofCode?_code (c : Colour) : ofCode? c.code = some c := by cases c <;> rfl

/-- A letter names a colour only if it is that colour's letter. -/
theorem eq_code_of_ofCode? {ch : Char} {c : Colour} (h : ofCode? ch = some c) : ch = c.code := by
  unfold ofCode? at h
  split at h <;> cases h <;> rfl

end Colour

/-- One value for each colour. -/
structure Sides (α : Type) where
  white : α
  black : α
  deriving DecidableEq, Repr

namespace Sides

variable {α : Type}

/-- The same value for both colours. -/
def both (a : α) : Sides α := ⟨a, a⟩

/-- The value of one colour. -/
def get (s : Sides α) : Colour → α
  | .white => s.white
  | .black => s.black

/-- Change the value of one colour. -/
def modify (s : Sides α) (c : Colour) (f : α → α) : Sides α :=
  match s, c with
  | ⟨w, b⟩, .white => ⟨f w, b⟩
  | ⟨w, b⟩, .black => ⟨w, f b⟩

/-- Replace the value of one colour. -/
def set (s : Sides α) (c : Colour) (a : α) : Sides α := s.modify c fun _ => a

@[simp] theorem get_both (a : α) (c : Colour) : (both a).get c = a := by cases c <;> rfl

@[simp] theorem get_modify_self (s : Sides α) (c : Colour) (f : α → α) :
    (s.modify c f).get c = f (s.get c) := by cases c <;> rfl

theorem get_modify_of_ne (s : Sides α) {c d : Colour} (h : d ≠ c) (f : α → α) :
    (s.modify c f).get d = s.get d := by cases c <;> cases d <;> first | rfl | exact absurd rfl h

/-- Two families agree when they agree on every colour. -/
theorem ext_get {s t : Sides α} (h : ∀ c, s.get c = t.get c) : s = t := by
  cases s; cases t
  exact congr (congrArg _ (h .white)) (h .black)

end Sides

end VariantChess
