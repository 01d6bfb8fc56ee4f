import VariantChess.Board.Basic

/-!
# Elementary changes of a board

A board is sound when each occupant of a point is recorded as standing there; then no piece stands
on two points. Lifting, moving and revising a piece keep a board sound, and each can be taken back
exactly. `Board.AgreeOff` says that two boards differ at most on some points and in the records of
some pieces; it is symmetric and composes, so the extent of a longer change is found leg by leg.
-/

namespace VariantChess

variable {α β ε : Type}

/-- A sequence of two computations succeeds exactly when both do. -/
theorem bind_eq_ok_iff {x : Except ε α} {f : α → Except ε β} {b : β} :
    x >>= f = .ok b ↔ ∃ a, x = .ok a ∧ f a = .ok b := by
  cases x with
  | error e => simp [bind, Except.bind]
  | ok a => simp [bind, Except.bind]

/-- A mapped computation succeeds exactly when the computation does. -/
theorem map_eq_ok_iff {x : Except ε α} {f : α → β} {b : β} :
    x.map f = .ok b ↔ ∃ a, x = .ok a ∧ f a = b := by
  cases x <;> simp [Except.map]

/-- A sequence of two computations succeeds when the first does and the second does after it. -/
theorem exists_bind_eq_ok {x : Except ε α} {f : α → Except ε β} (hx : ∃ a, x = .ok a)
    (hf : ∀ a, x = .ok a → ∃ b, f a = .ok b) : ∃ b, x >>= f = .ok b := by
  obtain ⟨a, ha⟩ := hx
  obtain ⟨b, hb⟩ := hf a ha
  exact ⟨b, bind_eq_ok_iff.2 ⟨a, ha, hb⟩⟩

/-- A mapped computation succeeds when the computation does. -/
theorem exists_map_eq_ok {x : Except ε α} (hx : ∃ a, x = .ok a) (f : α → β) :
    ∃ b, x.map f = .ok b := by
  obtain ⟨a, ha⟩ := hx
  exact ⟨f a, map_eq_ok_iff.2 ⟨a, ha, rfl⟩⟩

/-- A guarded computation succeeds exactly when the guard lets it through and it does. -/
theorem guard_eq_ok_iff {c : Prop} [Decidable c] {e : ε} {x : Except ε α} {a : α} :
    (if c then .error e else x) = .ok a ↔ ¬c ∧ x = .ok a := by
  by_cases hc : c <;> simp [hc]

namespace Board

/-- Every occupant of a point is recorded as standing there. -/
def Sound (b : Board) : Prop := ∀ p id, b.on? p = some id → ∃ q, b.piece? id = some q ∧ q.point = p

/-- Nothing stands outside the bounds. -/
theorem contains_of_on? {b : Board} {p : Point} {id : PieceId} (h : b.on? p = some id) :
    b.bounds.contains p := by
  refine b.plane.inside p ?_
  rw [on?, Plane.get?] at h
  rw [h]
  rfl

/-- The board without pieces is sound. -/
theorem sound_empty (bounds : Bounds) : (empty bounds).Sound := by
  intro p id h
  rw [on?, empty, Plane.get?_empty] at h
  cases h

/-- On a sound board a piece stands on one point at most. -/
theorem Sound.on?_inj {b : Board} (hb : b.Sound) {p r : Point} {id : PieceId}
    (hp : b.on? p = some id) (hr : b.on? r = some id) : p = r := by
  obtain ⟨q, hq, rfl⟩ := hb p id hp
  obtain ⟨q', hq', rfl⟩ := hb r id hr
  rw [hq] at hq'
  rw [Option.some.inj hq']

/-- On a sound board the pieces on the board are those that stand on some point. -/
theorem Sound.has_iff {b : Board} (hb : b.Sound) {id : PieceId} :
    b.has id ↔ ∃ p, b.on? p = some id := by
  rw [Board.has_iff]
  constructor
  · rintro ⟨q, -, hq⟩
    exact ⟨q.point, hq⟩
  · rintro ⟨p, hp⟩
    obtain ⟨q, hq, rfl⟩ := hb p id hp
    exact ⟨q, hq, hp⟩

/-- The listed identities are those of the pieces on the board. -/
theorem Sound.mem_ids {b : Board} (hb : b.Sound) {id : PieceId} : id ∈ b.ids ↔ b.has id :=
  Plane.mem_values.trans hb.has_iff.symm

/-- The occupant of a point is recorded there. -/
theorem Sound.point_eq {b : Board} (hb : b.Sound) {p : Point} {id : PieceId} {q : Piece}
    (hon : b.on? p = some id) (hq : b.piece? id = some q) : q.point = p := by
  obtain ⟨q', hq', hpoint⟩ := hb p id hon
  rw [hq] at hq'
  rw [Option.some.inj hq', hpoint]

/-- A listed piece stands where it is recorded. -/
theorem Sound.on?_point {b : Board} (hb : b.Sound) {id : PieceId} {q : Piece} (hid : id ∈ b.ids)
    (hq : b.piece? id = some q) : b.on? q.point = some id := by
  obtain ⟨p, hon⟩ := hb.has_iff.1 (hb.mem_ids.1 hid)
  rw [hb.point_eq hon hq, hon]

/-- The owner of a recorded piece is its colour. -/
theorem owns_iff_of_piece? {b : Board} {c : Colour} {id : PieceId} {q : Piece}
    (hq : b.piece? id = some q) : b.owns c id ↔ q.colour = c := by
  rw [owns, hq, Option.any_some, decide_eq_true_eq]

/-- The owner of a piece depends on its colour. -/
theorem owns_eq_of_colour {b b' : Board} {id : PieceId}
    (h : (b'.piece? id).map (·.colour) = (b.piece? id).map (·.colour)) (c : Colour) :
    b'.owns c id = b.owns c id := by
  rw [owns, owns]
  cases hb : b.piece? id <;> cases hb' : b'.piece? id <;> simp_all

/-- Boards with the same bounds, occupants and records are equal. -/
theorem ext_view {b b' : Board} (hbounds : b.bounds = b'.bounds) (hon : ∀ p, b.on? p = b'.on? p)
    (hpiece : ∀ id, b.piece? id = b'.piece? id) : b = b' := by
  have hplane : b.plane = b'.plane := Plane.ext_get? hbounds hon
  have hroster : b.roster = b'.roster := Array.ext_getElem? fun i => hpiece ⟨i⟩
  cases b
  cases b'
  exact congr (congrArg _ hplane) hroster

/-- Lifting a piece vacates its point and nothing else. -/
theorem lift_view {b b' : Board} {id : PieceId} (h : b.lift id = .ok b') :
    ∃ q, b.piece? id = some q ∧ b.on? q.point = some id ∧ b'.bounds = b.bounds ∧
      (∀ p, b'.on? p = if q.point = p then none else b.on? p) ∧
      ∀ i, b'.piece? i = b.piece? i := by
  obtain ⟨q, hq, hon, rfl⟩ := lift_eq_ok_iff.1 h
  exact ⟨q, hq, hon, rfl, fun p => Plane.get?_clear _ _ _, fun _ => rfl⟩

/-- Placing a piece occupies the point and records it, and changes nothing else. -/
theorem place_view {b b' : Board} {id : PieceId} {p : Point} (h : b.place id p = .ok b') :
    b.on? p = none ∧ b.bounds.contains p ∧ b'.bounds = b.bounds ∧
      (∀ r, b'.on? r = if p = r then some id else b.on? r) ∧
      ∀ i, b'.piece? i =
        if i = id then (b.piece? i).map ({ · with point := p }) else b.piece? i := by
  obtain ⟨hnone, plane, hput, rfl⟩ := place_eq_ok_iff.1 h
  refine ⟨hnone, Plane.put?_isSome.1 (by rw [hput]; rfl), Plane.bounds_of_put? hput,
    fun r => Plane.get?_of_put? hput r, fun i => ?_⟩
  rw [piece?_revise]
  rfl

/-- A piece can be placed on any vacant point inside the bounds. -/
theorem place_of_vacant {b : Board} {p : Point} (id : PieceId) (hon : b.on? p = none)
    (hin : b.bounds.contains p) : ∃ b', b.place id p = .ok b' := by
  obtain ⟨plane, hplane⟩ := Option.isSome_iff_exists.1 (Plane.put?_isSome (a := id).2 hin)
  exact ⟨_, place_eq_ok_iff.2 ⟨hon, plane, hplane, rfl⟩⟩

/-- Moving a piece vacates its point, occupies the new one and records it. -/
theorem move_view {b b' : Board} {id : PieceId} {p : Point} (h : b.move id p = .ok b') :
    ∃ q, b.piece? id = some q ∧ b.on? q.point = some id ∧ b.bounds.contains p ∧
      (q.point = p ∨ b.on? p = none) ∧ b'.bounds = b.bounds ∧
      (∀ r, b'.on? r = if p = r then some id else if q.point = r then none else b.on? r) ∧
      ∀ i, b'.piece? i = if i = id then some { q with point := p } else b.piece? i := by
  obtain ⟨b₁, hlift, hplace⟩ := bind_eq_ok_iff.1 h
  obtain ⟨q, hq, hon, hbounds, hon₁, hpiece₁⟩ := lift_view hlift
  obtain ⟨hnone, hin, hbounds', hon', hpiece'⟩ := place_view hplace
  refine ⟨q, hq, hon, hbounds ▸ hin, ?_, hbounds'.trans hbounds, fun r => ?_, fun i => ?_⟩
  · rw [hon₁] at hnone
    grind
  · rw [hon', hon₁]
  · rw [hpiece', hpiece₁]
    split
    · next hi => rw [hi, hq, Option.map_some]
    · rfl

/-- A piece on the board can move to any vacant point inside the bounds, and to its own. -/
theorem move_of_vacant {b : Board} {id : PieceId} {q : Piece} {p : Point}
    (hq : b.piece? id = some q) (hon : b.on? q.point = some id) (hin : b.bounds.contains p)
    (hfree : q.point = p ∨ b.on? p = none) : ∃ b', b.move id p = .ok b' := by
  have hlift : b.lift id = .ok ⟨b.plane.clear q.point, b.roster⟩ :=
    lift_eq_ok_iff.2 ⟨q, hq, hon, rfl⟩
  have hvacant : Board.on? ⟨b.plane.clear q.point, b.roster⟩ p = none := by
    rw [on?, Plane.get?_clear]
    rcases hfree with hp | hp
    · rw [if_pos hp]
    · split
      · rfl
      · exact hp
  obtain ⟨b', hplace⟩ := place_of_vacant (b := ⟨b.plane.clear q.point, b.roster⟩) id hvacant hin
  exact ⟨b', bind_eq_ok_iff.2 ⟨_, hlift, hplace⟩⟩

section Sound

variable {b b' : Board} {id : PieceId}

/-- Lifting keeps a board sound. -/
theorem Sound.lift (hb : b.Sound) (h : b.lift id = .ok b') : b'.Sound := by
  obtain ⟨q, -, -, -, hon, hpiece⟩ := lift_view h
  intro p i hi
  rw [hon] at hi
  split at hi
  · cases hi
  · rw [hpiece]
    exact hb p i hi

/-- A lifted piece stands nowhere. -/
theorem Sound.not_on?_of_lift (hb : b.Sound) (h : b.lift id = .ok b') (r : Point) :
    b'.on? r ≠ some id := by
  obtain ⟨q, -, hstand, -, hon, -⟩ := lift_view h
  intro hr
  rw [hon] at hr
  split at hr
  · cases hr
  · next hne => exact hne (hb.on?_inj hstand hr)

/-- Moving a piece brings no other piece on the board. -/
theorem not_on?_of_move {i : PieceId} {p : Point} (hi : i ≠ id) (hb : ∀ r, b.on? r ≠ some i)
    (h : b.move id p = .ok b') (r : Point) : b'.on? r ≠ some i := by
  obtain ⟨q, -, -, -, -, -, hon, -⟩ := move_view h
  intro hr
  rw [hon] at hr
  split at hr
  · exact hi (Option.some.inj hr).symm
  · split at hr
    · cases hr
    · exact hb r hr

/-- Moving keeps a board sound. -/
theorem Sound.move (hb : b.Sound) {p : Point} (h : b.move id p = .ok b') : b'.Sound := by
  obtain ⟨q, hq, hstand, -, -, -, hon, hpiece⟩ := move_view h
  intro r i hi
  rw [hon] at hi
  rw [hpiece]
  split at hi
  · next hr =>
    obtain rfl := Option.some.inj hi
    exact ⟨{ q with point := p }, by rw [if_pos rfl], hr⟩
  · split at hi
    · cases hi
    · next hr =>
      -- another occupant is not the moved piece, which stood on the vacated point only
      have hne : i ≠ id := fun e => hr (hb.on?_inj hstand (e ▸ hi))
      rw [if_neg hne]
      exact hb r i hi

/-- Revising what a record says apart from the point keeps a board sound. -/
theorem Sound.revise (hb : b.Sound) {f : Piece → Piece} (hf : ∀ q, (f q).point = q.point) :
    (b.revise id f).Sound := by
  intro p i hi
  obtain ⟨q, hq, hpoint⟩ := hb p i hi
  rw [piece?_revise]
  split
  · exact ⟨f q, by rw [hq, Option.map_some], (hf q).trans hpoint⟩
  · exact ⟨q, hq, hpoint⟩

/-- A lifted piece can be put back, which restores the board. -/
theorem place_of_lift (h : b.lift id = .ok b') {q : Piece} (hq : b.piece? id = some q) :
    b'.place id q.point = .ok b := by
  obtain ⟨q', hq', hstand, hbounds, hon, hpiece⟩ := lift_view h
  obtain rfl : q = q' := Option.some.inj (hq.symm.trans hq')
  have hin : b'.bounds.contains q.point := hbounds ▸ contains_of_on? hstand
  obtain ⟨b₂, hplace⟩ := place_of_vacant id (by rw [hon, if_pos rfl]) hin
  obtain ⟨-, -, hbounds₂, hon₂, hpiece₂⟩ := place_view hplace
  have heq : b₂ = b := by
    refine ext_view (hbounds₂.trans hbounds) (fun p => ?_) (fun i => ?_)
    · rw [hon₂, hon]
      split
      · next hp => rw [← hp, hstand]
      · rfl
    · rw [hpiece₂, hpiece]
      split
      · next hi => rw [hi, hq]; rfl
      · rfl
  rw [hplace, heq]

/-- A moved piece that is marked afterwards can move back and be marked as before, which restores
the board. -/
theorem move_back {p : Point} (h : b.move id p = .ok b') {q : Piece} (hq : b.piece? id = some q)
    (mark : Bool) :
    ∃ b₂, (b'.revise id ({ · with moved := mark })).move id q.point = .ok b₂ ∧
      b₂.revise id ({ · with moved := q.moved }) = b := by
  obtain ⟨q', hq', hstand, -, hfree, hbounds, hon, hpiece⟩ := move_view h
  obtain rfl : q = q' := Option.some.inj (hq.symm.trans hq')
  have hpiece' : (b'.revise id ({ · with moved := mark })).piece? id =
      some { q with point := p, moved := mark } := by
    rw [piece?_revise, if_pos rfl, hpiece, if_pos rfl, Option.map_some]
  obtain ⟨b₂, hmove⟩ := move_of_vacant hpiece' (p := q.point)
    (by rw [on?_revise, hon, if_pos rfl]) (hbounds ▸ contains_of_on? hstand)
    (by rw [on?_revise, hon]; grind)
  refine ⟨b₂, hmove, ?_⟩
  obtain ⟨q₂, hq₂, -, -, -, hbounds₂, hon₂, hpiece₂⟩ := move_view hmove
  obtain rfl : _ = q₂ := Option.some.inj (hpiece'.symm.trans hq₂)
  refine ext_view (hbounds₂.trans hbounds) (fun r => ?_) (fun i => ?_)
  · rw [on?_revise, hon₂, on?_revise, hon]
    grind
  · rw [piece?_revise, hpiece₂, piece?_revise, hpiece]
    split
    · next hi => rw [hi, hq]; rfl
    · rfl

/-- A revision is undone by one that gives the piece its old record. -/
theorem revise_back {f g : Piece → Piece} {q : Piece} (hq : b.piece? id = some q)
    (hg : g (f q) = q) : (b.revise id f).revise id g = b := by
  refine ext_view rfl (fun p => rfl) (fun i => ?_)
  rw [piece?_revise, piece?_revise]
  split
  · next hi => rw [hi, hq, Option.map_some, Option.map_some, hg]
  · rfl

end Sound

/-- Two boards differ at most on some points and in the records of some pieces, and no piece
differs in colour. -/
structure AgreeOff (b b' : Board) (points : List Point) (ids : List PieceId) : Prop where
  bounds : b'.bounds = b.bounds
  occupant : ∀ p, p ∉ points → b'.on? p = b.on? p
  record : ∀ id, id ∉ ids → b'.piece? id = b.piece? id
  stands : ∀ id, id ∉ ids → ∀ p, b'.on? p = some id ↔ b.on? p = some id
  colour : ∀ id, (b'.piece? id).map (·.colour) = (b.piece? id).map (·.colour)

namespace AgreeOff

variable {b b₁ b₂ : Board} {ps rs : List Point} {is js : List PieceId} {id : PieceId}

theorem refl (b : Board) : b.AgreeOff b [] [] :=
  ⟨rfl, fun _ _ => rfl, fun _ _ => rfl, fun _ _ _ => Iff.rfl, fun _ => rfl⟩

theorem symm (h : b.AgreeOff b₁ ps is) : b₁.AgreeOff b ps is :=
  ⟨h.bounds.symm, fun p hp => (h.occupant p hp).symm, fun i hi => (h.record i hi).symm,
    fun i hi p => (h.stands i hi p).symm, fun i => (h.colour i).symm⟩

/-- The extents of two changes add up. -/
theorem trans (h : b.AgreeOff b₁ ps is) (h' : b₁.AgreeOff b₂ rs js) :
    b.AgreeOff b₂ (ps ++ rs) (is ++ js) where
  bounds := h'.bounds.trans h.bounds
  occupant p hp := by
    rw [List.mem_append, not_or] at hp
    rw [h'.occupant p hp.2, h.occupant p hp.1]
  record i hi := by
    rw [List.mem_append, not_or] at hi
    rw [h'.record i hi.2, h.record i hi.1]
  stands i hi p := by
    rw [List.mem_append, not_or] at hi
    rw [h'.stands i hi.2, h.stands i hi.1]
  colour i := (h'.colour i).trans (h.colour i)

/-- An extent may be enlarged. -/
theorem mono (h : b.AgreeOff b₁ ps is) (hp : ps ⊆ rs) (hi : is ⊆ js) : b.AgreeOff b₁ rs js :=
  ⟨h.bounds, fun p hn => h.occupant p (mt (@hp p) hn), fun i hn => h.record i (mt (@hi i) hn),
    fun i hn => h.stands i (mt (@hi i) hn), h.colour⟩

/-- Lifting concerns the lifted piece and its point. -/
theorem of_lift {q : Piece} (hq : b.piece? id = some q) (h : b.lift id = .ok b₁) :
    b.AgreeOff b₁ [q.point] [id] := by
  obtain ⟨q', hq', hstand, hbounds, hon, hpiece⟩ := lift_view h
  obtain rfl : q = q' := Option.some.inj (hq.symm.trans hq')
  refine ⟨hbounds, fun p hp => ?_, fun i _ => hpiece i, fun i hi p => ?_, fun i => ?_⟩
  · rw [hon, if_neg (by simpa [eq_comm] using hp)]
  · rw [hon]
    grind
  · rw [hpiece]

/-- Moving concerns the moved piece, the point that it leaves and the one that it enters. -/
theorem of_move {q : Piece} {p : Point} (hq : b.piece? id = some q) (h : b.move id p = .ok b₁) :
    b.AgreeOff b₁ [q.point, p] [id] := by
  obtain ⟨q', hq', hstand, -, hfree, hbounds, hon, hpiece⟩ := move_view h
  obtain rfl : q = q' := Option.some.inj (hq.symm.trans hq')
  refine ⟨hbounds, fun r hr => ?_, fun i hi => ?_, fun i hi r => ?_, fun i => ?_⟩
  · rw [hon]
    grind
  · rw [hpiece, if_neg (by simpa using hi)]
  · rw [hon]
    grind
  · rw [hpiece]
    split
    · next hi => rw [hi, hq]; rfl
    · rfl

/-- Revising concerns the record of the piece. -/
theorem of_revise (b : Board) (id : PieceId) {f : Piece → Piece}
    (hf : ∀ q, (f q).colour = q.colour) : b.AgreeOff (b.revise id f) [] [id] := by
  refine ⟨rfl, fun _ _ => rfl, fun i hi => ?_, fun _ _ _ => Iff.rfl, fun i => ?_⟩
  · rw [piece?_revise, if_neg (by simpa using hi)]
  · rw [piece?_revise]
    split
    · rw [Option.map_map]
      congr 1
      exact funext hf
    · rfl

/-- A piece outside the extent is on both boards or on none. -/
theorem has_eq (h : b.AgreeOff b₁ ps is) (hi : id ∉ is) : b₁.has id = b.has id := by
  rw [Bool.eq_iff_iff, has_iff, has_iff, h.record id hi]
  simp only [h.stands id hi]

/-- Both boards give every piece the same owner. -/
theorem owns_eq (h : b.AgreeOff b₁ ps is) (c : Colour) (id : PieceId) :
    b₁.owns c id = b.owns c id := owns_eq_of_colour (h.colour id) c

end AgreeOff

end Board

end VariantChess
