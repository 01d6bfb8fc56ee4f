import VariantChess.Point.Algebraic

/-!
# Actions

An action is an attempted ply: a colour asks for what stands on one point to go to another. Nothing
about it has been checked.
-/

namespace VariantChess

/-- An attempted ply. -/
structure Action where
  colour : Colour
  source : Point
  target : Point
  deriving DecidableEq, Repr

instance : ToString Action := ⟨fun a => s!"{a.colour} {a.source}-{a.target}"⟩

end VariantChess
