import VariantChess.Game.History
import VariantChess.Game.Undo
import VariantChess.Proofs.SymmetricGames

/-!
# Relabelling pieces

A permutation of the identities of pieces is a symmetry that leaves the points and the colours alone,
and every movement fits it. So two games that differ in the identities of their pieces only, and in
the order in which sets of pieces are kept accordingly, answer alike: a change succeeds in both or in
neither, the answers that name no piece are equal, and the games still differ in the identities only.
This holds for any pieces, and whether or not the threat maps are up to date.
-/

namespace VariantChess

variable {bounds : Bounds} {σ : Equiv.Perm PieceId}

/-- The symmetry that gives pieces other identities. -/
def relabel (bounds : Bounds) (σ : Equiv.Perm PieceId) : Symmetry bounds where
  id := σ
  point := Equiv.refl Point
  colour := Equiv.refl Colour
  sign := 1
  Fair _ := True
  fair_of_contains _ _ := trivial
  contains_point _ := rfl
  forward_colour c := (Int.one_mul c.forward).symm
  locate_point p _ dx dy := by simp
  interior_point p q _ _ := by simp
  distance_point _ _ _ _ := rfl

namespace Relabel

@[simp] theorem id_relabel (i : PieceId) : (relabel bounds σ).id i = σ i := rfl

@[simp] theorem status_relabel (s : Status) : (relabel bounds σ).status s = s := by
  cases s <;> rfl

@[simp] theorem action_relabel (a : Action) : (relabel bounds σ).action a = a := rfl
@[simp] theorem rejection_relabel (e : Rejection) : (relabel bounds σ).rejection e = e := by
  cases e with
  | gameOver s => exact congrArg Rejection.gameOver (status_relabel s)
  | _ => rfl

/-- Relabelling finds every location. -/
theorem finds (l : Location) : (relabel bounds σ).Finds l := by
  intro s s' hs
  refine ⟨?_, fun _ _ => trivial⟩
  have hbase : l.base? s' = l.base? s := by
    unfold Location.base?
    cases l.anchor with
    | fixed p => rfl
    | origin => exact congrArg some hs.origin
    | destination => exact hs.destination.trans Option.map_id'
  rw [Location.resolve, Location.resolve, hbase, hs.colour]
  exact Option.map_id'.symm

/-- Relabelling names every reference. -/
theorem names (r : Reference) : (relabel bounds σ).Names r := by
  cases r with
  | standing l => exact Symmetry.names_standing (finds l).sights
  | mover => exact Symmetry.names_mover
  | lastMoved => exact Symmetry.names_lastMoved
  | path a b => exact Symmetry.names_path (finds a) (finds b)

/-- Relabelling judges every condition. -/
theorem judges (c : Condition) : (relabel bounds σ).Judges c := by
  cases c with
  | property ref prop test expected =>
    exact Symmetry.judges_property (names ref) (fun _ _ => rfl) test expected
  | pieces left right test => exact Symmetry.judges_pieces (names left) (names right) test
  | log query test expected => exact Symmetry.judges_log query test expected
  | threat place expected => exact Symmetry.judges_threat (finds place) expected
  | onBoard place expected => exact Symmetry.judges_onBoard (finds place).sights expected

/-- Every movement fits a relabelling. -/
theorem fits (m : Movement) : (relabel bounds σ).Fits m where
  judges c _ := judges c
  carriesOut f _ := by
    cases f with
    | relocate source target => exact ⟨(finds source).sights, (finds target).sights⟩
    | remove place => exact (finds place).sights
    | promote m => trivial

section Boards

variable {b b' : Board} (h : (relabel bounds σ).ImageBoard b b')
include h

/-- The relabelled pieces stand on the same points, so they are listed in the same order. -/
theorem ids_eq : b'.ids = b.ids.map σ := by
  rw [Board.ids, Board.ids, Plane.values, Plane.values, List.map_filterMap]
  have hbounds : b'.plane.bounds = b.plane.bounds := h.bounds_eq'.trans h.bounds_eq.symm
  rw [hbounds]
  exact congrArg (List.filterMap · _) (funext h.on?_eq)

theorem idsOf_eq (c : Colour) : b'.idsOf c = (b.idsOf c).map σ := by
  rw [Board.idsOf, Board.idsOf, ids_eq h, List.filter_map]
  exact congrArg (List.map σ) (congrArg (List.filter · _) (funext fun i => h.owns_eq c i))

/-- The same pieces are listed. -/
theorem pieces_eq : b'.pieces = b.pieces := by
  rw [Board.pieces, Board.pieces, ids_eq h, List.filterMap_map]
  exact congrArg (List.filterMap · _)
    (funext fun i => (h.piece?_eq i).trans Option.map_id')

theorem count_eq : b'.count = b.count := by
  have hids := congrArg List.length (ids_eq h)
  rw [List.length_map] at hids
  exact hids

end Boards

end Relabel

/-- The second game is the first with other identities of the pieces. -/
structure Relabelled (bounds : Bounds) (σ : Equiv.Perm PieceId) (g g' : Game) : Prop
    extends (relabel bounds σ).ImagePosition g g' where
  log : g'.log = (relabel bounds σ).log g.log
  log_inside : ∀ e ∈ g.log.committed ++ g.log.undone,
    bounds.contains e.ply.source ∧ bounds.contains e.ply.target
  status : g'.status = g.status
  initial : g'.initial = g.initial

/-- Equal answers, with games that differ in the identities of the pieces only. -/
def Relabels (bounds : Bounds) (σ : Equiv.Perm PieceId) {α : Type} (r r' : α × Game) : Prop :=
  r'.1 = r.1 ∧ Relabelled bounds σ r.2 r'.2

namespace Relabelled

open Relabel

variable {g g' : Game} {b b' : Board}

theorem fitsGame (g : Game) : (relabel bounds σ).FitsGame g := fun _ m _ => fits m

/-- Only the threat maps change when pieces are looked at again. -/
theorem refresh (h : Relabelled bounds σ g g') {ids ids' : List PieceId}
    (hids : ∀ i, σ i ∈ ids' ↔ i ∈ ids) : Relabelled bounds σ (g.refresh ids) (g'.refresh ids') := by
  have hposition := h.toImagePosition.refresh (fitsGame g) hids
  refine ⟨hposition, ?_, ?_, ?_, ?_⟩
  all_goals rw [Game.refresh_eq g]
  · rw [Game.refresh_eq g']
    exact h.log
  · exact h.log_inside
  · rw [Game.refresh_eq g']
    exact h.status
  · rw [Game.refresh_eq g']
    exact h.initial

theorem after (h : Relabelled bounds σ g g') (hb : (relabel bounds σ).ImageBoard b b') (p : Ply) :
    Relabelled bounds σ (g.after p b) (g'.after ((relabel bounds σ).ply p) b') := by
  have hboard : Relabelled bounds σ { g with board := b } { g' with board := b' } :=
    ⟨⟨hb, h.pieceSet, h.threats, h.kings, h.turn, h.config, h.lastPly, h.lastPly_inside⟩, h.log,
      h.log_inside, h.status, h.initial⟩
  exact hboard.refresh fun i => h.mem_affected_iff p

theorem apply (h : Relabelled bounds σ g g') (p : Ply) :
    Alike (Relabelled bounds σ) (g.apply p) (g'.apply ((relabel bounds σ).ply p)) := by
  rw [Game.apply_eq_map, Game.apply_eq_map]
  exact (h.board.play p).map fun _ _ hb => h.after hb p

theorem revert (h : Relabelled bounds σ g g') (p : Ply) :
    Alike (Relabelled bounds σ) (g.revert p) (g'.revert ((relabel bounds σ).ply p)) := by
  rw [Game.revert_eq_map, Game.revert_eq_map]
  exact (h.board.takeBack p).map fun _ _ hb => h.after hb p

/-- The same plies keep the king out of check. -/
theorem isLegal (h : Relabelled bounds σ g g') (p : Ply) :
    Alike (Relabels bounds σ) (g.isLegal p) (g'.isLegal ((relabel bounds σ).ply p)) := by
  have hcolour : ((g'.board.piece? ((relabel bounds σ).ply p).piece).map (·.colour)).getD g'.turn =
      ((g.board.piece? p.piece).map (·.colour)).getD g.turn := by
    rw [h.turn]
    have hpiece := h.board.piece?_eq p.piece
    exact hpiece ▸ by cases g.board.piece? p.piece <;> rfl
  rw [Game.isLegal, Game.isLegal, hcolour]
  refine (h.apply p).bind fun g₁ g₁' h₁ => (h₁.revert p).bind fun g₂ g₂' h₂ => .ok ⟨?_, h₂⟩
  exact congrArg not (h₁.inCheck_eq _)

section LegalPlies

variable {id : PieceId}

/-- Lists of plies that are relabelled, with games that differ in the identities only. -/
def Plies (bounds : Bounds) (σ : Equiv.Perm PieceId) (r r' : List Ply × Game) : Prop :=
  r'.1 = r.1.map (relabel bounds σ).ply ∧ Relabelled bounds σ r.2 r'.2

/-- What comes after relabelled lists is alike if it is alike for any list and its image. -/
theorem bind_plies {α β ε ε' : Type} {Q : α → β → Prop}
    {x : Except ε (List Ply × Game)} {y : Except ε' (List Ply × Game)}
    (h : Alike (Plies bounds σ) x y) {f : List Ply × Game → Except ε α}
    {f' : List Ply × Game → Except ε' β} (hf : ∀ plies g g', Relabelled bounds σ g g' →
      Alike Q (f (plies, g)) (f' (plies.map (relabel bounds σ).ply, g'))) :
    Alike Q (x >>= f) (y >>= f') := by
  refine h.bind ?_
  rintro ⟨plies, g⟩ ⟨plies', g'⟩ ⟨hplies, h₁⟩
  obtain rfl : plies' = _ := hplies
  exact hf plies g g' h₁

theorem plan?_eq (h : Relabelled bounds σ g g') (id : PieceId) (target : Point) :
    g'.plan? (σ id) target = (g.plan? id target).map (relabel bounds σ).ply :=
  h.toImagePosition.plan?_eq (fun m _ => fits m) target

theorem legalPliesTo (h : Relabelled bounds σ g g') (id : PieceId) (firstOnly : Bool)
    (targets : List Point) : Alike (Plies bounds σ) (Game.legalPliesTo id firstOnly targets g)
      (Game.legalPliesTo (σ id) firstOnly targets g') := by
  induction targets generalizing g g' with
  | nil => exact .ok ⟨rfl, h⟩
  | cons target rest ih =>
    rw [Game.legalPliesTo, Game.legalPliesTo, h.plan?_eq]
    cases g.plan? id target with
    | none => exact ih h
    | some ply =>
      refine (h.isLegal ply).bind_eq fun safe g₁ g₁' h₁ => ?_
      cases safe with
      | false => exact ih h₁
      | true =>
        cases firstOnly with
        | true => exact .ok ⟨rfl, h₁⟩
        | false => exact (ih h₁).bind fun _ _ h₂ => .ok ⟨congrArg _ h₂.1, h₂.2⟩

theorem legalPliesOf (h : Relabelled bounds σ g g') (id : PieceId) (firstOnly : Bool) :
    Alike (Plies bounds σ) (g.legalPliesOf id firstOnly) (g'.legalPliesOf (σ id) firstOnly) := by
  have hdestinations : g'.destinations (σ id) = g.destinations id :=
    (h.toImagePosition.destinations_eq fun m _ => fits m).trans (List.map_id _)
  rw [Game.legalPliesOf, Game.legalPliesOf, hdestinations]
  exact h.legalPliesTo id firstOnly _

theorem legalPliesOfAll (h : Relabelled bounds σ g g') (ids : List PieceId) :
    Alike (Plies bounds σ) (Game.legalPliesOfAll ids g) (Game.legalPliesOfAll (ids.map σ) g') := by
  induction ids generalizing g g' with
  | nil => exact .ok ⟨rfl, h⟩
  | cons id rest ih =>
    refine bind_plies (h.legalPliesOf id false) fun plies g₁ g₁' h₁ => ?_
    exact bind_plies (ih h₁) fun others g₂ g₂' h₂ => .ok ⟨List.map_append.symm, h₂⟩

theorem legalPlies (h : Relabelled bounds σ g g') (c : Colour) :
    Alike (Plies bounds σ) (g.legalPlies c) (g'.legalPlies c) := by
  rw [Game.legalPlies, Game.legalPlies, idsOf_eq h.board]
  exact h.legalPliesOfAll _

/-- The same actions are listed, in the same order. -/
theorem legalActions (h : Relabelled bounds σ g g') :
    Alike (Relabels bounds σ) g.legalActions g'.legalActions := by
  rw [Game.legalActions, Game.legalActions, h.status]
  split
  · exact .ok ⟨rfl, h⟩
  · have hturn : g'.turn = g.turn := h.turn
    rw [hturn]
    exact bind_plies (h.legalPlies g.turn) fun plies g₁ g₁' h₁ => .ok ⟨List.map_map, h₁⟩

theorem anyLegal (h : Relabelled bounds σ g g') (ids : List PieceId) :
    Alike (Relabels bounds σ) (Game.anyLegal ids g) (Game.anyLegal (ids.map σ) g') := by
  induction ids generalizing g g' with
  | nil => exact .ok ⟨rfl, h⟩
  | cons id rest ih =>
    refine bind_plies (h.legalPliesOf id true) fun plies g₁ g₁' h₁ => ?_
    dsimp only
    rw [List.isEmpty_map]
    split
    · exact ih h₁
    · exact .ok ⟨rfl, h₁⟩

theorem hasLegal (h : Relabelled bounds σ g g') (c : Colour) :
    Alike (Relabels bounds σ) (g.hasLegal c) (g'.hasLegal c) := by
  rw [Game.hasLegal, Game.hasLegal, idsOf_eq h.board]
  exact h.anyLegal _

/-- The image of a ply takes the image of the piece that the ply takes. -/
theorem taken_ply (p : Ply) : ((relabel bounds σ).ply p).taken = p.taken.map σ := by
  rw [Ply.taken, Ply.taken, Symmetry.ply]
  cases p.effect with
  | none => rfl
  | some e => cases e <;> rfl

theorem anyAnswers (h : Relabelled bounds σ g g') (targets : List Point) (attacker : PieceId)
    (ids : List PieceId) : Alike (Relabels bounds σ) (Game.anyAnswers targets attacker ids g)
      (Game.anyAnswers targets (σ attacker) (ids.map σ) g') := by
  induction ids generalizing g g' with
  | nil => exact .ok ⟨rfl, h⟩
  | cons id rest ih =>
    refine bind_plies (h.legalPliesOf id false) fun plies g₁ g₁' h₁ => ?_
    have hanswers : ((plies.map (relabel bounds σ).ply).any fun p =>
        targets.contains p.target || p.taken = some (σ attacker)) =
          plies.any fun p => targets.contains p.target || p.taken = some attacker := by
      rw [List.any_map]
      refine congrArg (List.any plies) (funext fun p =>
        congrArg (targets.contains p.target || ·) (decide_eq_decide.2 ?_))
      rw [taken_ply, Option.map_eq_some_iff]
      simp
    dsimp only
    rw [hanswers]
    split
    · exact .ok ⟨rfl, h₁⟩
    · exact ih h₁

/-- The same kings are mated. -/
theorem isMate (h : Relabelled bounds σ g g') (c : Colour) :
    Alike (Relabels bounds σ) (g.isMate c) (g'.isMate c) := by
  have hkings : g'.kings.get c = (g.kings.get c).map σ := h.kings c
  rw [Game.isMate, Game.isMate, hkings]
  cases g.kings.get c with
  | none => exact .ok ⟨rfl, h⟩
  | some king =>
    refine bind_plies (h.legalPliesOf king true) fun plies g₁ g₁' h₁ => ?_
    dsimp only
    rw [List.isEmpty_map]
    split
    · exact .ok ⟨rfl, h₁⟩
    · have hking : g₁'.king? c = g₁.king? c := (h₁.king?_eq c).trans Option.map_id'
      rw [hking]
      cases g₁.king? c with
      | none => exact .ok ⟨rfl, h₁⟩
      | some kingPoint =>
        have hperm : (((g₁.threats.get c.other).threatsAt kingPoint).members.map σ).Perm
            ((g₁'.threats.get c.other).threatsAt kingPoint).members :=
          (h₁.threats c.other).members_perm kingPoint
        dsimp only
        -- only a single attacker can be answered by the other pieces
        generalize ((g₁.threats.get c.other).threatsAt kingPoint).members = attackers at hperm
        generalize ((g₁'.threats.get c.other).threatsAt kingPoint).members = attackers' at hperm
        have hlength := hperm.length_eq
        obtain _ | ⟨attacker, _ | ⟨_, _⟩⟩ := attackers
        · obtain rfl := hperm.nil_eq
          exact .ok ⟨rfl, h₁⟩
        · obtain rfl : attackers' = [σ attacker] := List.perm_singleton.1 hperm.symm
          have hpiece : g₁'.board.piece? (σ attacker) = g₁.board.piece? attacker :=
            (h₁.board.piece?_eq attacker).trans Option.map_id'
          have hothers : (g₁'.board.idsOf c).filter (· ≠ σ king) =
              ((g₁.board.idsOf c).filter (· ≠ king)).map σ := by
            rw [idsOf_eq h₁.board, List.filter_map]
            exact congrArg (List.map σ) (congrArg (List.filter · _) (funext fun i => by simp))
          dsimp only
          rw [hpiece, hothers]
          cases g₁.board.piece? attacker with
          | none => exact .ok ⟨rfl, h₁⟩
          | some q =>
            refine (h₁.anyAnswers _ attacker _).bind fun r r' hr => .ok ⟨?_, hr.2⟩
            exact congrArg not hr.1
        · obtain _ | ⟨_, _ | ⟨_, _⟩⟩ := attackers'
          · cases hlength
          · cases hlength
          · exact .ok ⟨rfl, h₁⟩

/-- The verdicts are equal. -/
theorem verdict (h : Relabelled bounds σ g g') (mover : Colour) :
    Alike (Relabels bounds σ) (g.verdict mover) (g'.verdict mover) := by
  have hbare : g'.bareKings = g.bareKings := by
    rw [Game.bareKings, Game.bareKings, count_eq h.board, pieces_eq h.board]
  have hcheck : g'.inCheck mover.other = g.inCheck mover.other := h.inCheck_eq mover.other
  rw [Game.verdict, Game.verdict, h.config, hbare, hcheck]
  split
  · exact .ok ⟨rfl, h⟩
  · split
    · exact (h.isMate _).bind_eq fun mate g₁ g₁' h₁ => .ok ⟨rfl, h₁⟩
    · exact (h.hasLegal _).bind_eq fun free g₁ g₁' h₁ => .ok ⟨rfl, h₁⟩

end LegalPlies

end Relabelled

end VariantChess
