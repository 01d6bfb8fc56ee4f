import Mathlib.Data.List.Perm.Basic
import VariantChess.Proofs.Symmetry
import VariantChess.Proofs.Walk

/-!
# Rules under a symmetry

A situation is the image of another when everything that a rule may look at is. A location is *found*
when it names the image point in every image situation, and *sighted* when it does so as far as the
bounds reach; a reference is *named* when it names the images of its pieces, and a condition is
*judged* when it holds in both situations or in neither. What a rule says about single locations
carries over layer by layer: a movement whose conditions are judged reaches the images of the points
that it reaches, in the same order.
-/

namespace VariantChess

/-- Mapping a list injectively keeps the places of first occurrences. -/
theorem eraseDups_map {α β : Type} [BEq α] [LawfulBEq α] [BEq β] [LawfulBEq β] {f : α → β}
    (hf : Function.Injective f) : (l : List α) → (l.map f).eraseDups = l.eraseDups.map f
  | [] => rfl
  | a :: rest => by
    have : (rest.filter fun b => !b == a).length < rest.length + 1 :=
      Nat.lt_add_one_of_le (List.length_filter_le _ rest)
    have hkeep : ((fun b => !b == f a) ∘ f) = fun b => !b == a := by
      funext b
      rw [Function.comp_apply, Bool.eq_iff_iff]
      simp [hf.eq_iff]
    rw [List.map_cons, List.eraseDups_cons, List.eraseDups_cons, List.map_cons, List.filter_map,
      hkeep, eraseDups_map hf]
termination_by l => l.length

namespace Condition

/-- Sorted lists of identities are equal exactly if the lists are permutations of each other. -/
theorem mergeSort_eq_iff {left right : List PieceId} :
    (left.mergeSort fun a b => a.index ≤ b.index) = (right.mergeSort fun a b => a.index ≤ b.index) ↔
      left.Perm right := by
  constructor
  · intro h
    exact (List.mergeSort_perm left _).symm.trans (h ▸ List.mergeSort_perm right _)
  · intro h
    have hsorted (l : List PieceId) :
        (l.mergeSort fun a b => a.index ≤ b.index).Pairwise fun a b => a.index ≤ b.index := by
      have hpairs : (l.mergeSort fun a b => a.index ≤ b.index).Pairwise
          fun a b => decide (a.index ≤ b.index) :=
        List.pairwise_mergeSort
          (fun a b c hab hbc => by simp only [decide_eq_true_eq] at hab hbc ⊢; omega)
          (fun a b => by simp only [Bool.or_eq_true, decide_eq_true_eq]; omega) l
      simpa only [decide_eq_true_eq] using hpairs
    refine List.Perm.eq_of_pairwise (fun a b _ _ hab hba => ?_) (hsorted left) (hsorted right)
      (((List.mergeSort_perm _ _).trans h).trans (List.mergeSort_perm _ _).symm)
    cases a
    cases b
    exact congrArg PieceId.mk (Nat.le_antisymm hab hba)

/-- The comparison of named pieces does not depend on how their identities are ordered. -/
theorem comparePieces_map {f : PieceId → PieceId} (hf : Function.Injective f)
    (test : Comparator) (left right : List PieceId) :
    comparePieces test (left.map f) (right.map f) = comparePieces test left right := by
  unfold comparePieces
  simp only [ne_eq, mergeSort_eq_iff, List.map_perm_map_iff hf, List.isEmpty_map]

end Condition

/-- Nobody stands outside the bounds. -/
theorem Board.on?_of_not_contains {b : Board} {p : Point} (hp : ¬b.bounds.contains p) :
    b.on? p = none := by
  rw [Option.eq_none_iff_forall_not_mem]
  exact fun i hi => hp (Board.contains_of_on? hi)

/-- Who stands on a point can be asked inside the bounds only. -/
theorem Board.bind_on?_filter (b : Board) (o : Option Point) :
    (o.filter b.bounds.contains).bind b.on? = o.bind b.on? := by
  cases o with
  | none => rfl
  | some p =>
    cases hp : b.bounds.contains p with
    | true => rw [Option.filter_some_pos hp]
    | false =>
      rw [Option.filter_some_neg (by simp [hp])]
      exact (on?_of_not_contains (by simp [hp])).symm

/-- What comes after an image is an image if it is for each value. -/
theorem bind_eq_map_bind {α β γ δ : Type} {o : Option α} {o' : Option β} {f : α → β}
    {k : α → Option γ} {k' : β → Option δ} {j : γ → δ} (ho : o' = o.map f)
    (hk : ∀ a, o = some a → k' (f a) = (k a).map j) : o'.bind k' = (o.bind k).map j := by
  subst ho
  cases o with
  | none => rfl
  | some a => exact hk a rfl

namespace Symmetry

variable {bounds : Bounds} (T : Symmetry bounds)

/-- The second situation is the image of the first. -/
structure ImageSituation (s s' : Situation) : Prop where
  board : T.ImageBoard s.board s'.board
  lastPly : s'.lastPly = s.lastPly.map T.ply
  lastPly_inside : ∀ p, s.lastPly = some p → bounds.contains p.source ∧ bounds.contains p.target
  opposing : Option.Rel (fun m m' => ∀ p, m'.threatens (T.point p) = m.threatens p)
    s.opposing s'.opposing
  piece : s'.piece = T.id s.piece
  colour : s'.colour = T.colour s.colour
  origin : s'.origin = T.point s.origin
  origin_inside : bounds.contains s.origin
  destination : s'.destination = s.destination.map T.point
  destination_inside : ∀ p, s.destination = some p → bounds.contains p

/-- A location names a point and its image, between which lines are carried along. -/
def Finds (l : Location) : Prop := ∀ s s', T.ImageSituation s s' →
  l.resolve s' = (l.resolve s).map T.point ∧ ∀ p, l.resolve s = some p → T.Fair p

/-- A location names a point inside the bounds and its image. -/
def Sights (l : Location) : Prop := ∀ s s', T.ImageSituation s s' →
  (l.resolve s').filter bounds.contains = ((l.resolve s).filter bounds.contains).map T.point

/-- A reference names some pieces and their images. -/
def Names (r : Reference) : Prop := ∀ s s', T.ImageSituation s s' →
  r.resolve s' = (r.resolve s).map T.id

/-- A condition holds in a situation and its image or in neither. -/
def Judges (c : Condition) : Prop := ∀ s s', T.ImageSituation s s' → c.holds s' = c.holds s

/-- The locations of a follow-up are sighted. -/
def CarriesOut : FollowUp → Prop
  | .relocate source target => T.Sights source ∧ T.Sights target
  | .remove place => T.Sights place
  | .promote _ => True

/-- The conditions of a movement are judged, and the locations of its follow-up sighted. -/
structure Fits (m : Movement) : Prop where
  judges : ∀ c ∈ m.conditions, T.Judges c
  carriesOut : ∀ f, m.followUp = some f → T.CarriesOut f

variable {T}

/-- Heading for a point of the board and for its image gives image situations. -/
theorem ImageSituation.heading {s s' : Situation} (h : T.ImageSituation s s') {p : Point}
    (hp : bounds.contains p) : T.ImageSituation (s.heading p) (s'.heading (T.point p)) where
  board := h.board
  lastPly := h.lastPly
  lastPly_inside := h.lastPly_inside
  opposing := h.opposing
  piece := h.piece
  colour := h.colour
  origin := h.origin
  origin_inside := h.origin_inside
  destination := rfl
  destination_inside _ hq := Option.some.inj hq ▸ hp

section Locations

variable {l : Location}

/-- What is found is sighted. -/
theorem Finds.sights (h : T.Finds l) : T.Sights l := by
  intro s s' hs
  rw [(h s s' hs).1, Option.filter_map]
  exact congrArg (Option.map _) (congrArg (Option.filter · _) (funext T.contains_point))

/-- A sighted location names a point inside the bounds and its image, or nothing inside the
bounds. -/
theorem Sights.cases (h : T.Sights l) {s s' : Situation} (hs : T.ImageSituation s s') :
    (∃ p, l.resolve s = some p ∧ l.resolve s' = some (T.point p) ∧ bounds.contains p) ∨
      (∀ p, l.resolve s = some p → ¬bounds.contains p) ∧
        ∀ p, l.resolve s' = some p → ¬bounds.contains p := by
  have hsight := h s s' hs
  cases hp : (l.resolve s).filter bounds.contains with
  | none =>
    rw [hp, Option.map_none] at hsight
    exact .inr ⟨fun p hl => Option.filter_eq_none_iff.1 hp p hl,
      fun p hl => Option.filter_eq_none_iff.1 hsight p hl⟩
  | some p =>
    rw [hp, Option.map_some] at hsight
    obtain ⟨hl, hin⟩ := Option.filter_eq_some_iff.1 hp
    exact .inl ⟨p, hl, (Option.filter_eq_some_iff.1 hsight).1, hin⟩

/-- What comes after a sighted location is an image if it is inside the bounds and if nothing comes
outside of them. -/
theorem Sights.bind_eq {γ δ : Type} (h : T.Sights l) {s s' : Situation}
    (hs : T.ImageSituation s s') {k : Point → Option γ} {k' : Point → Option δ} {j : γ → δ}
    (hin : ∀ p, bounds.contains p → k' (T.point p) = (k p).map j)
    (hout : ∀ p, ¬bounds.contains p → k p = none)
    (hout' : ∀ p, ¬bounds.contains p → k' p = none) :
    (l.resolve s').bind k' = ((l.resolve s).bind k).map j := by
  rcases h.cases hs with ⟨p, hp, hp', hcontains⟩ | ⟨hnone, hnone'⟩
  · rw [hp, hp']
    exact hin p hcontains
  · have hbind : (l.resolve s).bind k = none :=
      Option.bind_eq_none_iff.2 fun p hp => hout p (hnone p hp)
    have hbind' : (l.resolve s').bind k' = none :=
      Option.bind_eq_none_iff.2 fun p hp => hout' p (hnone' p hp)
    rw [hbind, hbind', Option.map_none]

/-- What a location is measured from is mapped, unless it is a fixed point. -/
theorem base?_eq (h : ∀ p, l.anchor ≠ .fixed p) {s s' : Situation} (hs : T.ImageSituation s s') :
    l.base? s' = (l.base? s).map T.point ∧ ∀ p, l.base? s = some p → bounds.contains p := by
  unfold Location.base?
  cases ha : l.anchor with
  | fixed p => exact absurd ha (h p)
  | origin => exact ⟨congrArg some hs.origin, fun p hp => Option.some.inj hp ▸ hs.origin_inside⟩
  | destination => exact ⟨hs.destination, hs.destination_inside⟩

/-- A location that is measured from a piece or its destination is sighted. -/
theorem sights_of_anchor (h : ∀ p, l.anchor ≠ .fixed p) : T.Sights l := by
  intro s s' hs
  obtain ⟨hbase, hin⟩ := base?_eq h hs
  rw [Location.resolve, Location.resolve, hbase]
  cases hp : l.base? s with
  | none => rfl
  | some p =>
    have hlocate := T.locate_point p (T.fair_of_contains p (hin p hp)) l.dx
      (l.dy * s.colour.forward)
    rw [hs.colour, T.forward_colour, Int.mul_left_comm]
    exact hlocate

end Locations

section References

variable {l a b : Location}

theorem names_standing (h : T.Sights l) : T.Names (.standing l) := by
  intro s s' hs
  have hsight := h s s' hs
  rw [Reference.resolve, Reference.resolve, ← Board.bind_on?_filter, ← s.board.bind_on?_filter,
    hs.board.bounds_eq, hs.board.bounds_eq', hsight]
  cases (l.resolve s).filter bounds.contains with
  | none => rfl
  | some p =>
    rw [Option.map_some, Option.bind_some, Option.bind_some, hs.board.on?_eq]
    cases s.board.on? p <;> rfl

theorem names_mover : T.Names .mover := by
  intro s s' hs
  rw [Reference.resolve, Reference.resolve, hs.piece]
  rfl

theorem names_lastMoved : T.Names .lastMoved := by
  intro s s' hs
  rw [Reference.resolve, Reference.resolve, hs.lastPly]
  cases s.lastPly with
  | none => rfl
  | some p =>
    have hhas := hs.board.has_eq p.piece
    cases hp : s.board.has p.piece <;> simp [Option.filter, ply, hp, hhas]

theorem names_path (ha : T.Finds a) (hb : T.Finds b) : T.Names (.path a b) := by
  intro s s' hs
  obtain ⟨ha', hfa⟩ := ha s s' hs
  obtain ⟨hb', hfb⟩ := hb s s' hs
  rw [Reference.resolve, Reference.resolve, ha', hb']
  cases hp : a.resolve s with
  | none => rfl
  | some p =>
    cases hq : b.resolve s with
    | none => rfl
    | some q =>
      simp only [Option.map_some]
      rw [T.interior_point p q (hfa p hp) (hfb q hq), List.filterMap_map, List.map_filterMap]
      exact congrArg (List.filterMap · _) (funext hs.board.on?_eq)

end References

section Conditions

variable {r r₁ r₂ : Reference} {l : Location}

/-- A property condition is judged if its pieces are named and the property is read alike. -/
theorem judges_property (hr : T.Names r) {prop : Property}
    (hread : ∀ q c, prop.read (T.piece q) (T.colour c) = prop.read q c) (test : Comparator)
    (expected : Option Value) : T.Judges (.property r prop test expected) := by
  intro s s' hs
  rw [Condition.holds, Condition.holds, hr s s' hs]
  cases r.resolve s with
  | nil => rfl
  | cons i rest =>
    have hone (j : PieceId) : ((s'.board.piece? (T.id j)).any fun q =>
        test.test (prop.read q s'.colour) expected) =
          (s.board.piece? j).any fun q => test.test (prop.read q s.colour) expected := by
      rw [hs.board.piece?_eq, Option.any_map, hs.colour]
      exact congrArg (Option.any · _) (funext fun q => by simp only [hread])
    simp only [List.map_cons, List.all_cons, List.all_map, hone]
    exact congrArg (_ && List.all rest ·) (funext fun j => hone j)

/-- What is read off a piece is read off its image, except for its colour. -/
theorem read_piece {prop : Property} (hprop : prop ≠ .colour) (q : Piece) (c : Colour) :
    prop.read (T.piece q) (T.colour c) = prop.read q c := by
  cases prop with
  | moved | kind => rfl
  | friendly => simp [Property.read]
  | colour => exact absurd rfl hprop

theorem judges_pieces (h₁ : T.Names r₁) (h₂ : T.Names r₂) (test : Comparator) :
    T.Judges (.pieces r₁ r₂ test) := by
  intro s s' hs
  rw [Condition.holds, Condition.holds, h₁ s s' hs, h₂ s s' hs,
    Condition.comparePieces_map T.id.injective]

theorem judges_log (query : LogQuery) (test : Comparator) (expected : Option Value) :
    T.Judges (.log query test expected) := by
  intro s s' hs
  rw [Condition.holds, Condition.holds, hs.lastPly]
  cases hp : s.lastPly with
  | none => rfl
  | some p =>
    obtain ⟨hsource, htarget⟩ := hs.lastPly_inside p hp
    have hread : query.read (T.ply p) = query.read p := by
      cases query with
      | firstMove => rfl
      | distance =>
        exact congrArg (fun n : Nat => Value.int n) (T.distance_point _ _
          (T.fair_of_contains _ hsource) (T.fair_of_contains _ htarget))
    rw [Option.map_some, Option.any_some, Option.any_some, hread]

theorem judges_threat (h : T.Finds l) (expected : Bool) : T.Judges (.threat l expected) := by
  intro s s' hs
  rw [Condition.holds, Condition.holds, (h s s' hs).1]
  have hopposing := hs.opposing
  cases hm : s.opposing with
  | none =>
    cases hm' : s'.opposing with
    | none => rfl
    | some m' =>
      rw [hm, hm'] at hopposing
      cases hopposing
  | some m =>
    cases hm' : s'.opposing with
    | none =>
      rw [hm, hm'] at hopposing
      cases hopposing
    | some m' =>
      rw [hm, hm'] at hopposing
      cases hopposing with
      | some hthreatens =>
        cases l.resolve s with
        | none => rfl
        | some p =>
          simp only [Option.map_some]
          rw [hthreatens]

theorem judges_onBoard (h : T.Sights l) (expected : Bool) : T.Judges (.onBoard l expected) := by
  intro s s' hs
  have hany (o : Option Point) (b : Bounds) : o.any b.contains = (o.filter b.contains).isSome := by
    cases o with
    | none => rfl
    | some p => cases hp : b.contains p <;> simp [Option.filter, hp]
  rw [Condition.holds, Condition.holds, hany, hany, hs.board.bounds_eq, hs.board.bounds_eq',
    h s s' hs, Option.isSome_map]

end Conditions

section Movements

variable {s s' : Situation} {m : Movement} {mode : Mode}

/-- The quadrants of a colour's image have the image of its direction. -/
theorem quadrants_colour (m : Movement) (c : Colour) :
    m.quadrants (T.colour c) = (m.quadrants c).map fun q => (q.1, T.sign * q.2) := by
  unfold Movement.quadrants
  rw [T.forward_colour]
  by_cases hone : m.oneQuadrant
  · rw [if_pos hone, if_pos hone, List.map_singleton]
    cases m.back with
    | false => rfl
    | true => rw [if_pos rfl, if_pos rfl, Int.mul_neg]
  · simp only [if_neg hone, List.map_flatMap, List.map_map, Function.comp_def, Int.mul_left_comm]

/-- A template point lands on the image of the point that it lands on. -/
theorem landing?_eq (h : T.ImageSituation s s') (q : Int × Int) (step : Point) :
    Movement.landing? s' (q.1, T.sign * q.2) step = (Movement.landing? s q step).map T.point := by
  rw [Movement.landing?, Movement.landing?, h.board.bounds_eq, h.board.bounds_eq', h.origin,
    Int.mul_assoc]
  exact T.locate_point _ (T.fair_of_contains _ h.origin_inside) _ _

/-- Whether a point can be reached and passed does not change under a symmetry. -/
theorem reaches_eq (h : T.ImageSituation s s') (m : Movement) (mode : Mode) (o : Option Piece) :
    m.reaches s' mode (o.map T.piece) = m.reaches s mode o ∧
      Movement.passes s' mode (o.map T.piece) = Movement.passes s mode o := by
  cases o with
  | none => cases mode <;> exact ⟨rfl, rfl⟩
  | some q =>
    have hcolour : T.colour q.colour = s'.colour ↔ q.colour = s.colour := by
      rw [h.colour, T.colour.apply_eq_iff_eq]
    cases mode <;> simp [Movement.reaches, Movement.passes, hcolour]

/-- An arm of the walk from the image is the image of the arm. -/
theorem arm_eq (h : T.ImageSituation s s') (m : Movement) (mode : Mode) (q : Int × Int)
    (steps : List Point) :
    m.arm s' mode (q.1, T.sign * q.2) steps = (m.arm s mode q steps).map T.point := by
  induction steps with
  | nil => rfl
  | cons step rest ih =>
    rw [Movement.arm, Movement.arm, landing?_eq h]
    cases Movement.landing? s q step with
    | none =>
      cases m.stride with
      | slide => rfl
      | jump => exact ih
    | some p =>
      obtain ⟨hreach, hpass⟩ := reaches_eq h m mode (s.board.pieceAt? p)
      simp only [Option.map_some, h.board.pieceAt?_eq, hreach, hpass, ih]
      split <;> split <;> rfl

theorem walk_eq (h : T.ImageSituation s s') (m : Movement) (mode : Mode) :
    m.walk s' mode = (m.walk s mode).map T.point := by
  rw [Movement.walk, Movement.walk, h.colour, quadrants_colour, List.flatMap_map, List.map_flatMap]
  exact congrArg (List.flatMap · _) (funext fun q => arm_eq h m mode q _)

/-- Judged conditions all hold in a situation and its image or not. -/
theorem all_holds_eq (h : T.ImageSituation s s') {cs : List Condition}
    (hcs : ∀ c ∈ cs, T.Judges c) : cs.all (·.holds s') = cs.all (·.holds s) := by
  rw [Bool.eq_iff_iff, List.all_eq_true, List.all_eq_true]
  exact forall₂_congr fun c hc => by rw [hcs c hc s s' h]

/-- A movement whose conditions are judged reaches the images of the points that it reaches. -/
theorem candidates_eq (h : T.ImageSituation s s') (hm : ∀ c ∈ m.conditions, T.Judges c)
    (mode : Mode) : m.candidates s' mode = (m.candidates s mode).map T.point := by
  unfold Movement.candidates
  split
  · rfl
  · rw [List.partition_eq_filter_filter]
    dsimp only
    rw [all_holds_eq h fun c hc => hm c (List.mem_filter.1 hc).1, walk_eq h, List.filter_map]
    split
    · rw [← eraseDups_map T.point.injective]
      refine congrArg List.eraseDups (congrArg (List.map _) (List.filter_congr fun p hp => ?_))
      have hin : bounds.contains p := h.board.bounds_eq ▸ Movement.contains_of_mem_walk hp
      exact all_holds_eq (h.heading hin) fun c hc => hm c (List.mem_filter.1 hc).1
    · rfl

end Movements

end Symmetry

end VariantChess
