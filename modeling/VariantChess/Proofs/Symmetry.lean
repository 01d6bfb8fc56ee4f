import Mathlib.Logic.Equiv.Basic
import VariantChess.Path
import VariantChess.Proofs.PlyStep

/-!
# Symmetries of boards

A symmetry permutes the identities of pieces, the points and the colours, such that the bounds are
mapped to themselves and offsets, lines and distances are carried along. Renaming pieces is one, and
so is turning the board around. A board is the image of another when the occupants of its points and
the records of its pieces are. Lifting, placing, moving and revising a piece respect images: either
both boards admit the change and the results are images again, or neither does. The same holds of
playing a ply and taking it back.
-/

namespace VariantChess

variable {α β γ δ ε ε' τ : Type}

/-- Both computations succeed with related results, or neither succeeds. -/
inductive Alike (R : α → β → Prop) : Except ε α → Except ε' β → Prop
  | ok {a : α} {b : β} (h : R a b) : Alike R (.ok a) (.ok b)
  | error (e : ε) (e' : ε') : Alike R (.error e) (.error e')

namespace Alike

variable {R : α → β → Prop} {Q : γ → δ → Prop} {x : Except ε α} {y : Except ε' β}

/-- Computations that both fail are alike. -/
theorem of_ne_ok (hx : ∀ a, x ≠ .ok a) (hy : ∀ b, y ≠ .ok b) : Alike R x y := by
  cases x with
  | ok a => exact absurd rfl (hx a)
  | error e =>
    cases y with
    | ok b => exact absurd rfl (hy b)
    | error e' => exact .error e e'

/-- What comes after two computations is alike if it is alike for related results. -/
theorem bind (h : Alike R x y) {f : α → Except ε γ} {f' : β → Except ε' δ}
    (hf : ∀ a b, R a b → Alike Q (f a) (f' b)) : Alike Q (x >>= f) (y >>= f') := by
  cases h with
  | ok h => exact hf _ _ h
  | error e e' => exact .error e e'

/-- What comes after two computations with equal values and related states is alike if it is alike
for any value and related states. -/
theorem bind_eq {P : α → β → Prop} {x : Except ε (τ × α)} {y : Except ε' (τ × β)}
    (h : Alike (fun r r' => r'.1 = r.1 ∧ P r.2 r'.2) x y) {f : τ × α → Except ε γ}
    {f' : τ × β → Except ε' δ} (hf : ∀ t a b, P a b → Alike Q (f (t, a)) (f' (t, b))) :
    Alike Q (x >>= f) (y >>= f') := by
  refine h.bind ?_
  rintro ⟨t, a⟩ ⟨t', b⟩ ⟨hvalue, hstate⟩
  obtain rfl : t' = t := hvalue
  exact hf t' a b hstate

theorem map (h : Alike R x y) {f : α → γ} {f' : β → δ} (hf : ∀ a b, R a b → Q (f a) (f' b)) :
    Alike Q (x.map f) (y.map f') := by
  cases h with
  | ok h => exact .ok (hf _ _ h)
  | error e e' => exact .error e e'

/-- The second computation succeeds when the first does. -/
theorem exists_of_ok {a : α} (h : Alike R x y) (hx : x = .ok a) : ∃ b, y = .ok b ∧ R a b := by
  subst hx
  cases h with
  | ok h => exact ⟨_, rfl, h⟩

end Alike

/-- A permutation of the identities of pieces, of the points and of the colours that respects the
bounds of a board and what rules measure on it. -/
structure Symmetry (bounds : Bounds) where
  id : Equiv.Perm PieceId
  point : Equiv.Perm Point
  colour : Equiv.Perm Colour
  /-- The sign by which the direction of the ranks changes. -/
  sign : Int
  /-- The points between which lines and distances are carried along. -/
  Fair : Point → Prop
  fair_of_contains : ∀ p, bounds.contains p → Fair p
  contains_point : ∀ p, bounds.contains (point p) = bounds.contains p
  forward_colour : ∀ c, (colour c).forward = sign * c.forward
  locate_point : ∀ p, Fair p → ∀ dx dy : Int,
    bounds.locate? ((point p).x.val + dx) ((point p).y.val + sign * dy) =
      (bounds.locate? (p.x.val + dx) (p.y.val + dy)).map point
  interior_point : ∀ p q, Fair p → Fair q →
    (Path.between (point p) (point q)).interior = (Path.between p q).interior.map point
  distance_point : ∀ p q, Fair p → Fair q →
    Point.distance (point p) (point q) = Point.distance p q

namespace Symmetry

variable {bounds : Bounds} (T : Symmetry bounds)

/-- The opponent is carried along with a colour. -/
theorem colour_other (c : Colour) : T.colour c.other = (T.colour c).other := by
  rcases Colour.eq_or_eq_other (T.colour c) (T.colour c.other) with h | h
  · exact absurd (T.colour.injective h) (Colour.other_ne c)
  · exact h

/-- The image of a piece. -/
def piece (q : Piece) : Piece := { q with colour := T.colour q.colour, point := T.point q.point }

/-- The image of a side effect. -/
def sideEffect : SideEffect → SideEffect
  | .relocate i source target first => .relocate (T.id i) (T.point source) (T.point target) first
  | .remove i place => .remove (T.id i) (T.point place)
  | .promote source target => .promote source target

/-- The image of a ply. -/
def ply (p : Ply) : Ply where
  piece := T.id p.piece
  source := T.point p.source
  target := T.point p.target
  captured := p.captured.map T.id
  first := p.first
  effect := p.effect.map T.sideEffect

@[simp] theorem colour_piece (q : Piece) : (T.piece q).colour = T.colour q.colour := rfl
@[simp] theorem point_piece (q : Piece) : (T.piece q).point = T.point q.point := rfl
@[simp] theorem isKing_piece (q : Piece) : (T.piece q).isKing = q.isKing := rfl
@[simp] theorem moved_piece (q : Piece) : (T.piece q).moved = q.moved := rfl

/-- The image of a ply concerns the images of its pieces. -/
theorem pieces_ply (p : Ply) : (T.ply p).pieces = p.pieces.map T.id := by
  rw [Ply.pieces, Ply.pieces, ply]
  cases p.captured <;> cases p.effect with
  | none => rfl
  | some e => cases e <;> rfl

/-- The image of a ply touches the images of its points. -/
theorem touched_ply (p : Ply) : (T.ply p).touched = p.touched.map T.point := by
  rw [Ply.touched, Ply.touched, ply]
  cases p.effect with
  | none => rfl
  | some e => cases e <;> rfl

/-- The second board is the image of the first, all of whose pieces are recorded inside the
bounds. -/
structure ImageBoard (b b' : Board) : Prop where
  bounds_eq : b.bounds = bounds
  bounds_eq' : b'.bounds = bounds
  inside : ∀ id q, b.piece? id = some q → bounds.contains q.point
  on?_eq : ∀ p, b'.on? (T.point p) = (b.on? p).map T.id
  piece?_eq : ∀ id, b'.piece? (T.id id) = (b.piece? id).map T.piece

namespace ImageBoard

variable {T} {b b' : Board} {id : PieceId}

/-- The same piece stands on a point and its image. -/
theorem on?_eq_some_iff (h : T.ImageBoard b b') {p : Point} :
    b'.on? (T.point p) = some (T.id id) ↔ b.on? p = some id := by
  rw [h.on?_eq, Option.map_eq_some_iff]
  simp

theorem on?_eq_none_iff (h : T.ImageBoard b b') {p : Point} :
    b'.on? (T.point p) = none ↔ b.on? p = none := by
  rw [h.on?_eq, Option.map_eq_none_iff]

/-- The piece on the image of a point is the image of the piece on it. -/
theorem pieceAt?_eq (h : T.ImageBoard b b') (p : Point) :
    b'.pieceAt? (T.point p) = (b.pieceAt? p).map T.piece := by
  rw [Board.pieceAt?, Board.pieceAt?, h.on?_eq, Option.bind_map, Option.map_bind]
  exact congrArg (Option.bind _) (funext h.piece?_eq)

/-- A piece and its image are on the board or not. -/
theorem has_eq (h : T.ImageBoard b b') (id : PieceId) : b'.has (T.id id) = b.has id := by
  rw [Bool.eq_iff_iff, Board.has_iff, Board.has_iff, h.piece?_eq]
  simp only [Option.map_eq_some_iff, exists_exists_and_eq_and, point_piece, h.on?_eq_some_iff]

/-- A piece and its image have corresponding owners. -/
theorem owns_eq (h : T.ImageBoard b b') (c : Colour) (id : PieceId) :
    b'.owns (T.colour c) (T.id id) = b.owns c id := by
  rw [Board.owns, Board.owns, h.piece?_eq, Option.any_map]
  simp

/-- A piece can be lifted if its image can. -/
theorem lift (h : T.ImageBoard b b') (id : PieceId) :
    Alike T.ImageBoard (b.lift id) (b'.lift (T.id id)) := by
  by_cases hlift : ∃ q, b.piece? id = some q ∧ b.on? q.point = some id
  · obtain ⟨q, hq, hon⟩ := hlift
    have hq' : b'.piece? (T.id id) = some (T.piece q) := by rw [h.piece?_eq, hq, Option.map_some]
    have hon' : b'.on? (T.piece q).point = some (T.id id) := h.on?_eq_some_iff.2 hon
    rw [Board.lift_eq_ok_iff.2 ⟨q, hq, hon, rfl⟩, Board.lift_eq_ok_iff.2 ⟨_, hq', hon', rfl⟩]
    refine .ok ⟨h.bounds_eq, h.bounds_eq', h.inside, fun p => ?_, h.piece?_eq⟩
    rw [Board.on?, Board.on?, Plane.get?_clear, Plane.get?_clear, point_piece]
    by_cases hp : q.point = p
    · rw [if_pos hp, if_pos (congrArg T.point hp), Option.map_none]
    · rw [if_neg hp, if_neg (mt (T.point.injective ·) hp)]
      exact h.on?_eq p
  · refine .of_ne_ok (fun b₁ hok => ?_) (fun b₁ hok => ?_)
    · obtain ⟨q, hq, hon, -⟩ := Board.lift_eq_ok_iff.1 hok
      exact hlift ⟨q, hq, hon⟩
    · obtain ⟨q', hq', hon', -⟩ := Board.lift_eq_ok_iff.1 hok
      rw [h.piece?_eq, Option.map_eq_some_iff] at hq'
      obtain ⟨q, hq, rfl⟩ := hq'
      exact hlift ⟨q, hq, h.on?_eq_some_iff.1 hon'⟩

/-- A piece can be placed on a point if its image can be placed on the image of the point. -/
theorem place (h : T.ImageBoard b b') (id : PieceId) (p : Point) :
    Alike T.ImageBoard (b.place id p) (b'.place (T.id id) (T.point p)) := by
  by_cases hvacant : b.on? p = none ∧ bounds.contains p
  · obtain ⟨hnone, hin⟩ := hvacant
    obtain ⟨b₁, hplace⟩ := Board.place_of_vacant id hnone (h.bounds_eq ▸ hin)
    obtain ⟨b₁', hplace'⟩ := Board.place_of_vacant (T.id id) (h.on?_eq_none_iff.2 hnone)
      (by rw [h.bounds_eq', T.contains_point, hin])
    obtain ⟨-, -, hbounds, hon, hpiece⟩ := Board.place_view hplace
    obtain ⟨-, -, hbounds', hon', hpiece'⟩ := Board.place_view hplace'
    rw [hplace, hplace']
    refine .ok ⟨hbounds.trans h.bounds_eq, hbounds'.trans h.bounds_eq', fun i q hq => ?_,
      fun r => ?_, fun i => ?_⟩
    · rw [hpiece] at hq
      split at hq
      · obtain ⟨q₀, -, rfl⟩ := Option.map_eq_some_iff.1 hq
        exact hin
      · exact h.inside i q hq
    · rw [hon', hon]
      by_cases hr : p = r
      · rw [if_pos hr, if_pos (congrArg T.point hr), Option.map_some]
      · rw [if_neg hr, if_neg (mt (T.point.injective ·) hr), h.on?_eq]
    · rw [hpiece', hpiece, h.piece?_eq]
      by_cases hi : i = id
      · rw [if_pos hi, if_pos (congrArg T.id hi), Option.map_map, Option.map_map]
        rfl
      · rw [if_neg hi, if_neg (mt (T.id.injective ·) hi)]
  · refine .of_ne_ok (fun b₁ hok => ?_) (fun b₁ hok => ?_)
    · obtain ⟨hnone, hin, -⟩ := Board.place_view hok
      exact hvacant ⟨hnone, h.bounds_eq ▸ hin⟩
    · obtain ⟨hnone, hin, -⟩ := Board.place_view hok
      rw [h.bounds_eq', T.contains_point] at hin
      exact hvacant ⟨h.on?_eq_none_iff.1 hnone, hin⟩

/-- A piece can be moved to a point if its image can be moved to the image of the point. -/
theorem move (h : T.ImageBoard b b') (id : PieceId) (p : Point) :
    Alike T.ImageBoard (b.move id p) (b'.move (T.id id) (T.point p)) :=
  (h.lift id).bind fun _ _ h₁ => h₁.place id p

/-- Revising what a record says apart from the point respects images. -/
theorem revise (h : T.ImageBoard b b') (id : PieceId) {f : Piece → Piece}
    (hpoint : ∀ q, (f q).point = q.point) (himage : ∀ q, f (T.piece q) = T.piece (f q)) :
    T.ImageBoard (b.revise id f) (b'.revise (T.id id) f) := by
  refine ⟨h.bounds_eq, h.bounds_eq', fun i q hq => ?_, h.on?_eq, fun i => ?_⟩
  · rw [Board.piece?_revise] at hq
    split at hq
    · obtain ⟨q₀, hq₀, rfl⟩ := Option.map_eq_some_iff.1 hq
      rw [hpoint]
      exact h.inside i q₀ hq₀
    · exact h.inside i q hq
  · rw [Board.piece?_revise, Board.piece?_revise, h.piece?_eq]
    by_cases hi : i = id
    · rw [if_pos hi, if_pos (congrArg T.id hi), Option.map_map, Option.map_map]
      exact congrArg (Option.map · _) (funext himage)
    · rw [if_neg hi, if_neg (mt (T.id.injective ·) hi)]

/-- Marking a piece respects images. -/
theorem mark (h : T.ImageBoard b b') (id : PieceId) (mark : Bool) :
    T.ImageBoard (b.revise id ({ · with moved := mark }))
      (b'.revise (T.id id) ({ · with moved := mark })) :=
  h.revise id (fun _ => rfl) fun _ => rfl

theorem playEffect (h : T.ImageBoard b b') (p : Ply) :
    Alike T.ImageBoard (p.playEffect b) ((T.ply p).playEffect b') := by
  rw [Ply.playEffect, Ply.playEffect, ply]
  cases p.effect with
  | none => exact .ok h
  | some e =>
    cases e with
    | relocate i source target first =>
      exact (h.move i target).map fun _ _ h₁ => h₁.mark i true
    | remove i place => exact h.lift i
    | promote source target => exact .ok (h.revise p.piece (fun _ => rfl) fun _ => rfl)

theorem takeBackEffect (h : T.ImageBoard b b') (p : Ply) :
    Alike T.ImageBoard (p.takeBackEffect b) ((T.ply p).takeBackEffect b') := by
  rw [Ply.takeBackEffect, Ply.takeBackEffect, ply]
  cases p.effect with
  | none => exact .ok h
  | some e =>
    cases e with
    | relocate i source target first =>
      exact (h.move i source).map fun _ _ h₁ => h₁.mark i !first
    | remove i place => exact h.place i place
    | promote source target => exact .ok (h.revise p.piece (fun _ => rfl) fun _ => rfl)

/-- A ply can be played if its image can. -/
theorem play (h : T.ImageBoard b b') (p : Ply) :
    Alike T.ImageBoard (p.play b) ((T.ply p).play b') := by
  rw [Ply.play_eq_bind, Ply.play_eq_bind]
  refine Alike.bind (R := T.ImageBoard) ?_ fun _ _ h₁ => (h₁.move p.piece p.target).bind fun _ _ h₂ =>
    (h₂.mark p.piece true).playEffect p
  rw [ply]
  cases p.captured with
  | none => exact .ok h
  | some i => exact h.lift i

/-- A ply can be taken back if its image can. -/
theorem takeBack (h : T.ImageBoard b b') (p : Ply) :
    Alike T.ImageBoard (p.takeBack b) ((T.ply p).takeBack b') := by
  refine (h.takeBackEffect p).bind fun _ _ h₁ => (h₁.move p.piece p.source).bind fun _ _ h₂ => ?_
  have h₃ := h₂.mark p.piece !p.first
  rw [ply]
  cases p.captured with
  | none => exact .ok h₃
  | some i => exact h₃.place i p.target

end ImageBoard

end Symmetry

end VariantChess
