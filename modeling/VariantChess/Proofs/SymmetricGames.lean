import Mathlib.Algebra.GroupWithZero.Nat
import Mathlib.Data.List.Nodup
import VariantChess.Game.Start
import VariantChess.Proofs.Commit
import VariantChess.Proofs.Mobility
import VariantChess.Proofs.SymmetricRules

/-!
# Games under a symmetry

A position is the image of another when its board is, when its threat maps list the images of the
points that each piece threatens, and when its kings, the side to move and the latest ply are images.
Where the movements of the pieces fit the symmetry, a piece and its image have the same destinations
and the same plies, up to the symmetry and in the same order. The upkeep of the threat maps looks at
sets of pieces only, so it respects images although it visits the pieces in the order of their
identities; therefore playing a ply and taking it back lead from images to images.
-/

namespace VariantChess

namespace Game

/-- A ply affects its pieces, those that threaten a touched point, and the volatile ones. -/
theorem mem_affected {g : Game} {p : Ply} {id : PieceId} :
    id ∈ (g.affected p).members ↔ id ∈ p.pieces ∨
      (∃ r ∈ p.touched, ∃ c, id ∈ (g.threats.get c).threatsAt r) ∨ id ∈ g.volatilePieces := by
  rw [← OrderedSet.mem_def, affected, OrderedSet.mem_ofList, List.mem_append, List.mem_append,
    List.mem_flatMap, or_assoc]
  refine or_congr Iff.rfl (or_congr (exists_congr fun r => and_congr Iff.rfl ?_) Iff.rfl)
  rw [List.mem_append]
  constructor
  · rintro (h | h)
    · exact ⟨.white, h⟩
    · exact ⟨.black, h⟩
  · rintro ⟨c, hc⟩
    cases c with
    | white => exact .inl hc
    | black => exact .inr hc

end Game

namespace Symmetry

variable {bounds : Bounds} (T : Symmetry bounds)

/-- The image of a status. -/
def status : Status → Status
  | .check c => .check (T.colour c)
  | .won c => .won (T.colour c)
  | s => s

/-- The image of an entry of a log. -/
def entry (e : LogEntry) : LogEntry := ⟨T.ply e.ply, T.status e.status⟩

/-- The image of a log. -/
def log (l : Log) : Log := ⟨l.committed.map T.entry, l.undone.map T.entry⟩

/-- The image of an action. -/
def action (a : Action) : Action := ⟨T.colour a.colour, T.point a.source, T.point a.target⟩

/-- The image of a rejection. -/
def rejection : Rejection → Rejection
  | .gameOver s => .gameOver (T.status s)
  | .wrongTurn c => .wrongTurn (T.colour c)
  | .outside p => .outside (T.point p)
  | .noPiece p => .noPiece (T.point p)
  | .notOwn p => .notOwn (T.point p)
  | .noMovement p q => .noMovement (T.point p) (T.point q)
  | .kingInCheck => .kingInCheck

@[simp] theorem isTerminal_status (s : Status) : (T.status s).isTerminal = s.isTerminal := by
  cases s <;> rfl

/-- Both maps are coherent, and the second lists for the image of a piece the images of the points
that the first lists for the piece. -/
structure ImageThreats (m m' : ThreatMap) : Prop where
  coherent : m.Coherent
  coherent' : m'.Coherent
  mem_reach_iff : ∀ id p, T.point p ∈ m'.reach (T.id id) ↔ p ∈ m.reach id

/-- The second position is the image of the first, as far as legal plies go. -/
structure ImagePosition (g g' : Game) : Prop where
  board : T.ImageBoard g.board g'.board
  pieceSet : g'.pieceSet = g.pieceSet
  threats : ∀ c, T.ImageThreats (g.threats.get c) (g'.threats.get (T.colour c))
  kings : ∀ c, g'.kings.get (T.colour c) = (g.kings.get c).map T.id
  turn : g'.turn = T.colour g.turn
  config : g'.config = g.config
  lastPly : g'.lastPly = g.lastPly.map T.ply
  lastPly_inside : ∀ p, g.lastPly = some p → bounds.contains p.source ∧ bounds.contains p.target

/-- All pieces on record move by movements that fit the symmetry. -/
def FitsGame (g : Game) : Prop := ∀ id, ∀ m ∈ g.movementsOf id, T.Fits m

variable {T}

namespace ImageThreats

variable {m m' : ThreatMap}

/-- The image of a piece is listed at the image of a point where the piece is listed. -/
theorem mem_threatsAt_iff (h : T.ImageThreats m m') {id : PieceId} {p : Point} :
    T.id id ∈ m'.threatsAt (T.point p) ↔ id ∈ m.threatsAt p := by
  rw [h.coherent'.mem_threatsAt_iff, h.coherent.mem_threatsAt_iff, h.mem_reach_iff]

/-- The image of a point is threatened when the point is. -/
theorem threatens_eq (h : T.ImageThreats m m') (p : Point) :
    m'.threatens (T.point p) = m.threatens p := by
  rw [Bool.eq_iff_iff, h.coherent'.threatens_iff, h.coherent.threatens_iff]
  constructor
  · rintro ⟨i, hi⟩
    obtain ⟨id, rfl⟩ := T.id.surjective i
    exact ⟨id, h.mem_threatsAt_iff.1 hi⟩
  · rintro ⟨id, hid⟩
    exact ⟨T.id id, h.mem_threatsAt_iff.2 hid⟩

/-- The images of the pieces that threaten a point threaten its image. -/
theorem members_perm (h : T.ImageThreats m m') (p : Point) :
    ((m.threatsAt p).members.map T.id).Perm (m'.threatsAt (T.point p)).members := by
  refine (List.perm_ext_iff_of_nodup (List.Nodup.map T.id.injective (OrderedSet.nodup _))
    (OrderedSet.nodup _)).2 fun i => ?_
  obtain ⟨id, rfl⟩ := T.id.surjective i
  rw [List.mem_map_of_injective T.id.injective]
  exact h.mem_threatsAt_iff.symm

/-- The image of a piece threatens as many points as it does. -/
theorem size_reach_eq (h : T.ImageThreats m m') (id : PieceId) :
    (m'.reach (T.id id)).size = (m.reach id).size := by
  have hperm : ((m.reach id).members.map T.point).Perm (m'.reach (T.id id)).members := by
    refine (List.perm_ext_iff_of_nodup (List.Nodup.map T.point.injective (OrderedSet.nodup _))
      (OrderedSet.nodup _)).2 fun q => ?_
    obtain ⟨p, rfl⟩ := T.point.surjective q
    rw [List.mem_map_of_injective T.point.injective]
    exact (h.mem_reach_iff id p).symm
  rw [OrderedSet.size, OrderedSet.size, ← hperm.length_eq, List.length_map]

/-- Both maps count the same number of threats. -/
theorem mobility_eq (h : T.ImageThreats m m') : m'.mobility = m.mobility := by
  rw [ThreatMap.mobility_eq_finsum_reach, ThreatMap.mobility_eq_finsum_reach,
    ← finsum_comp_equiv T.id]
  exact finsum_congr h.size_reach_eq

end ImageThreats

namespace ImagePosition

variable {g g' : Game} {id : PieceId} {b b' : Board} {s s' : Situation}

/-- A piece and its image move by the same movements. -/
theorem movementsOf_eq (h : T.ImagePosition g g') (id : PieceId) :
    g'.movementsOf (T.id id) = g.movementsOf id := by
  rw [Game.movementsOf, Game.movementsOf, h.board.piece?_eq, h.pieceSet, Option.map_map]
  rfl

/-- The situation of a piece on record and that of its image. -/
theorem exists_situation (h : T.ImagePosition g g') {q : Piece} (hq : g.board.piece? id = some q) :
    ∃ s s', g.situation? id = some s ∧ g'.situation? (T.id id) = some s' ∧
      T.ImageSituation s s' ∧ s.board = g.board := by
  have hq' : g'.board.piece? (T.id id) = some (T.piece q) := by
    rw [h.board.piece?_eq, hq, Option.map_some]
  refine ⟨_, _, Game.situation?_eq_some_iff.2 ⟨q, hq, rfl⟩,
    Game.situation?_eq_some_iff.2 ⟨_, hq', rfl⟩, ?_, rfl⟩
  refine ⟨h.board, h.lastPly, h.lastPly_inside, .some fun p => ?_, rfl, rfl, rfl,
    h.board.inside id q hq, rfl, fun p hp => by cases hp⟩
  rw [colour_piece, ← T.colour_other]
  exact (h.threats _).threatens_eq p

/-- A piece that is not on record is in no situation, nor is its image. -/
theorem situation?_eq_none (h : T.ImagePosition g g') (hq : g.board.piece? id = none) :
    g.situation? id = none ∧ g'.situation? (T.id id) = none := by
  have hq' : g'.board.piece? (T.id id) = none := by rw [h.board.piece?_eq, hq, Option.map_none]
  rw [Game.situation?, Game.situation?, hq, hq']
  exact ⟨rfl, rfl⟩

/-- The destinations of the image of a piece are the images of its destinations. -/
theorem destinations_eq (h : T.ImagePosition g g') (hfit : ∀ m ∈ g.movementsOf id, T.Fits m) :
    g'.destinations (T.id id) = (g.destinations id).map T.point := by
  rw [Game.destinations, Game.destinations, h.movementsOf_eq]
  cases hq : g.board.piece? id with
  | none =>
    obtain ⟨hs, hs'⟩ := h.situation?_eq_none hq
    rw [hs, hs']
    rfl
  | some q =>
    obtain ⟨s, s', hs, hs', himage, -⟩ := h.exists_situation hq
    rw [hs, hs']
    dsimp only
    rw [← eraseDups_map T.point.injective, List.map_flatMap]
    refine congrArg List.eraseDups (List.flatMap_congr fun m hm => ?_)
    exact candidates_eq himage (hfit m hm).judges .moves

/-- A follow-up comes to the image of the side effect that it comes to. -/
theorem sideEffect?_eq (h : T.ImagePosition g g') (hs : T.ImageSituation s s')
    {target : Point} (htarget : bounds.contains target) {f : FollowUp} (hf : T.CarriesOut f) :
    g'.sideEffect? s' (T.point target) f = (g.sideEffect? s target f).map T.sideEffect := by
  have hheading := hs.heading htarget
  simp only [Game.sideEffect?]
  generalize s.heading target = t at hheading
  generalize s'.heading (T.point target) = t' at hheading
  have hnone {p : Point} (hp : ¬bounds.contains p) : g.board.on? p = none :=
    Board.on?_of_not_contains (h.board.bounds_eq.symm ▸ hp)
  have hnone' {p : Point} (hp : ¬bounds.contains p) : g'.board.on? p = none :=
    Board.on?_of_not_contains (h.board.bounds_eq'.symm ▸ hp)
  have hon (p : Point) : (g'.board.on? (T.point p)).filter (· ≠ t'.piece) =
      ((g.board.on? p).filter (· ≠ t.piece)).map T.id := by
    rw [h.board.on?_eq, hheading.piece, Option.filter_map]
    exact congrArg (Option.map _) (congrArg (Option.filter · _) (funext fun i => by simp))
  cases f with
  | relocate source goal =>
    refine hf.1.bind_eq hheading (fun p _ => ?_) (fun p hp => ?_) (fun p hp => ?_)
    · refine hf.2.bind_eq hheading (fun r _ => ?_) (fun r hr => ?_) (fun r hr => ?_)
      · refine bind_eq_map_bind (hon p) fun i _ => bind_eq_map_bind (h.board.piece?_eq i) ?_
        intro q _
        have hfree : ((g'.board.on? (T.point r)).all fun other =>
            other = t'.piece || other = T.id i) =
              (g.board.on? r).all fun other => other = t.piece || other = i := by
          rw [h.board.on?_eq, Option.all_map, hheading.piece]
          exact congrArg (Option.all · _) (funext fun j => by simp)
        simp only [hfree, h.board.bounds_eq, h.board.bounds_eq', T.contains_point, ne_eq,
          T.point.apply_eq_iff_eq, moved_piece]
        split <;> rfl
      · simp [h.board.bounds_eq, hr]
      · simp [h.board.bounds_eq', hr]
    · simp [hnone hp]
    · simp [hnone' hp]
  | remove place =>
    have hfilter (o : Option Point) (r : Point) (k : Point → Option SideEffect) :
        (o.filter (· ≠ r)).bind k = o.bind fun p => if p = r then none else k p := by
      cases o with
      | none => rfl
      | some p => by_cases hp : p = r <;> simp [Option.filter, hp]
    simp only [Option.bind_eq_bind, hfilter]
    refine Sights.bind_eq hf hheading (fun p _ => ?_) (fun p hp => ?_) (fun p hp => ?_)
    · by_cases hp : p = target
      · rw [if_pos hp, if_pos (congrArg T.point hp), Option.map_none]
      · rw [if_neg hp, if_neg (mt (T.point.injective ·) hp)]
        exact bind_eq_map_bind (hon p) fun i _ => rfl
    · simp [hnone hp]
    · simp [hnone' hp]
  | promote m =>
    rw [hheading.piece]
    exact bind_eq_map_bind (h.board.piece?_eq _) fun q _ => rfl

/-- A movement makes the image of the ply that it makes. -/
theorem planBy?_eq (h : T.ImagePosition g g') (hs : T.ImageSituation s s') {q : Piece}
    {m : Movement} (hboard : s.board = g.board) (hm : T.Fits m) (target : Point) :
    g'.planBy? s' (T.piece q) (T.point target) m = (g.planBy? s q target m).map T.ply := by
  have hmem : (m.candidates s' .moves).contains (T.point target) =
      (m.candidates s .moves).contains target := by
    rw [candidates_eq hs hm.judges, Bool.eq_iff_iff, List.contains_iff_mem, List.contains_iff_mem,
      List.mem_map_of_injective T.point.injective]
  have hply (effect : Option SideEffect) :
      ({ piece := s'.piece, source := (T.piece q).point, target := T.point target,
         captured := g'.board.on? (T.point target), first := !(T.piece q).moved,
         effect := effect.map T.sideEffect } : Ply) =
        T.ply { piece := s.piece, source := q.point, target, captured := g.board.on? target,
                first := !q.moved, effect } := by
    rw [hs.piece, h.board.on?_eq]
    rfl
  rw [Game.planBy?, Game.planBy?, hmem]
  split
  · next hcontains =>
    have htarget : bounds.contains target := by
      rw [← h.board.bounds_eq, ← hboard]
      exact Movement.contains_of_mem_candidates (List.contains_iff_mem.1 hcontains)
    cases hf : m.followUp with
    | none => exact congrArg some (hply none)
    | some f =>
      dsimp only
      rw [h.sideEffect?_eq hs htarget (hm.carriesOut f hf), Option.map_map, Option.map_map]
      exact congrArg (Option.map · _) (funext fun e => hply (some e))
  · rfl

/-- The plan of the image of a piece is the image of its plan. -/
theorem plan?_eq (h : T.ImagePosition g g') (hfit : ∀ m ∈ g.movementsOf id, T.Fits m)
    (target : Point) : g'.plan? (T.id id) (T.point target) = (g.plan? id target).map T.ply := by
  rw [Game.plan?, Game.plan?, h.board.piece?_eq]
  cases hq : g.board.piece? id with
  | none => rfl
  | some q =>
    obtain ⟨s, s', hs, hs', himage, hboard⟩ := h.exists_situation hq
    rw [hs, hs', Option.map_some]
    dsimp only
    rw [h.movementsOf_eq]
    generalize g.movementsOf id = ms at hfit
    induction ms with
    | nil => rfl
    | cons m rest ih =>
      rw [List.forall_mem_cons] at hfit
      rw [List.findSome?_cons, List.findSome?_cons, h.planBy?_eq himage hboard hfit.1]
      cases g.planBy? s q target m with
      | none => exact ih hfit.2
      | some ply => rfl

/-- The image of a piece threatens the images of the points that it threatens. -/
theorem reach_eq (h : T.ImagePosition g g') (hfit : ∀ m ∈ g.movementsOf id, T.Fits m) :
    g'.reach (T.id id) = (g.reach id).map T.point := by
  rw [Game.reach, Game.reach, h.movementsOf_eq]
  cases hq : g.board.piece? id with
  | none =>
    have hq' : g'.board.piece? (T.id id) = none := by rw [h.board.piece?_eq, hq, Option.map_none]
    simp only [Situation.of?, hq, hq', Option.map_none, List.map_nil]
  | some q =>
    have hq' : g'.board.piece? (T.id id) = some (T.piece q) := by
      rw [h.board.piece?_eq, hq, Option.map_some]
    simp only [Situation.of?, hq, hq', Option.map_some]
    rw [List.map_flatMap]
    refine List.flatMap_congr fun m hm => candidates_eq ?_ (hfit m hm).judges .threats
    exact ⟨h.board, h.lastPly, h.lastPly_inside, .none, rfl, rfl, rfl, h.board.inside id q hq, rfl,
      fun p hp => by cases hp⟩

/-- The image of a piece should be listed at the images of the points where it should be. -/
theorem mem_expected_iff (h : T.ImagePosition g g') (hfit : ∀ m ∈ g.movementsOf id, T.Fits m)
    (c : Colour) (p : Point) :
    T.point p ∈ g'.expected (T.colour c) (T.id id) ↔ p ∈ g.expected c id := by
  rw [Game.expected, Game.expected, h.board.owns_eq, h.board.has_eq, h.reach_eq hfit]
  split
  · rw [OrderedSet.mem_ofList, OrderedSet.mem_ofList, List.mem_map_of_injective T.point.injective]
  · simp

/-- Looking again at some pieces and at their images respects images, in whatever order. -/
theorem refresh (h : T.ImagePosition g g') (hfit : T.FitsGame g) {ids ids' : List PieceId}
    (hids : ∀ i, T.id i ∈ ids' ↔ i ∈ ids) : T.ImagePosition (g.refresh ids) (g'.refresh ids') := by
  have hthreats (c : Colour) : T.ImageThreats ((g.refresh ids).threats.get c)
      ((g'.refresh ids').threats.get (T.colour c)) := by
    refine ⟨Game.coherent_refresh (fun c => (h.threats c).coherent) ids c,
      Game.coherent_refresh (fun c => ?_) ids' _, fun i p => ?_⟩
    · obtain ⟨c, rfl⟩ := T.colour.surjective c
      exact (h.threats c).coherent'
    · simp only [Game.reach_refresh, hids, h.board.owns_eq]
      split
      · exact h.mem_expected_iff (hfit i) c p
      · exact (h.threats c).mem_reach_iff i p
  rw [Game.refresh_eq g, Game.refresh_eq g']
  exact ⟨h.board, h.pieceSet, hthreats, h.kings, h.turn, h.config, h.lastPly, h.lastPly_inside⟩

/-- The same pieces stand on the board. -/
theorem mem_ids_iff (h : T.ImagePosition g g') : T.id id ∈ g'.board.ids ↔ id ∈ g.board.ids := by
  have hmem (b : Board) (i : PieceId) : i ∈ b.ids ↔ ∃ p, b.on? p = some i := Plane.mem_values
  rw [hmem, hmem]
  constructor
  · rintro ⟨p', hp'⟩
    obtain ⟨p, rfl⟩ := T.point.surjective p'
    exact ⟨p, h.board.on?_eq_some_iff.1 hp'⟩
  · rintro ⟨p, hp⟩
    exact ⟨T.point p, h.board.on?_eq_some_iff.2 hp⟩

/-- Positions whose threat maps are computed from nothing are images when everything else is. -/
theorem rebuild (hboard : T.ImageBoard g.board g'.board) (hset : g'.pieceSet = g.pieceSet)
    (hkings : ∀ c, g'.kings.get (T.colour c) = (g.kings.get c).map T.id)
    (hturn : g'.turn = T.colour g.turn) (hconfig : g'.config = g.config)
    (hlast : g'.lastPly = g.lastPly.map T.ply)
    (hinside : ∀ p, g.lastPly = some p → bounds.contains p.source ∧ bounds.contains p.target)
    (hfit : T.FitsGame g) : T.ImagePosition g.rebuild g'.rebuild := by
  have hcleared : T.ImagePosition { g with threats := .both .empty }
      { g' with threats := .both .empty } := by
    refine ⟨hboard, hset, fun c => ?_, hkings, hturn, hconfig, hlast, hinside⟩
    rw [Sides.get_both, Sides.get_both]
    exact ⟨.of_empty, .of_empty, fun _ _ => by simp⟩
  exact hcleared.refresh hfit fun _ => hcleared.mem_ids_iff

/-- Games that are set up on images of boards are images, if their kings are. -/
theorem setUp (hb : T.ImageBoard b b') {set : PieceSet} {config : GameConfig} {turn : Colour}
    (hkings : ∀ c, Game.findKing b' (T.colour c) = (Game.findKing b c).map T.id)
    (hfit : T.FitsGame (Game.setUp set config b turn)) :
    T.ImagePosition (Game.setUp set config b turn) (Game.setUp set config b' (T.colour turn)) := by
  refine rebuild hb rfl (fun c => ?_) rfl rfl rfl (fun p hp => by cases hp) fun id => ?_
  · rw [Game.get_findKing, Game.get_findKing]
    exact hkings c
  · rw [Game.setUp, Game.rebuild, FitsGame, Game.refresh_eq] at hfit
    exact hfit id

/-- The same pieces are volatile. -/
theorem mem_volatilePieces_iff (h : T.ImagePosition g g') :
    T.id id ∈ g'.volatilePieces ↔ id ∈ g.volatilePieces := by
  rw [Game.volatilePieces, Game.volatilePieces, List.mem_filter, List.mem_filter, h.mem_ids_iff,
    Game.hasVolatile, Game.hasVolatile, h.movementsOf_eq]

/-- The pieces that a ply affects are the same. -/
theorem mem_affected_iff (h : T.ImagePosition g g') (p : Ply) :
    T.id id ∈ (g'.affected (T.ply p)).members ↔ id ∈ (g.affected p).members := by
  rw [Game.mem_affected, Game.mem_affected, T.pieces_ply, T.touched_ply,
    List.mem_map_of_injective T.id.injective, h.mem_volatilePieces_iff]
  refine or_congr Iff.rfl (or_congr ⟨?_, ?_⟩ Iff.rfl)
  · rintro ⟨p', hp', c', hc'⟩
    obtain ⟨r, hr, rfl⟩ := List.mem_map.1 hp'
    obtain ⟨c, rfl⟩ := T.colour.surjective c'
    exact ⟨r, hr, c, (h.threats c).mem_threatsAt_iff.1 hc'⟩
  · rintro ⟨r, hr, c, hc⟩
    exact ⟨T.point r, List.mem_map_of_mem hr, T.colour c, (h.threats c).mem_threatsAt_iff.2 hc⟩

/-- Playing a ply on images and looking at the affected pieces leads to images. -/
theorem after (h : T.ImagePosition g g') (hb : T.ImageBoard b b')
    (hfit : T.FitsGame { g with board := b }) (p : Ply) :
    T.ImagePosition (g.after p b) (g'.after (T.ply p) b') := by
  have hplayed : T.ImagePosition { g with board := b } { g' with board := b' } :=
    ⟨hb, h.pieceSet, h.threats, h.kings, h.turn, h.config, h.lastPly, h.lastPly_inside⟩
  exact hplayed.refresh hfit fun _ => h.mem_affected_iff p

/-- The kings are recorded on images. -/
theorem king?_eq (h : T.ImagePosition g g') (c : Colour) :
    g'.king? (T.colour c) = (g.king? c).map T.point := by
  rw [Game.king?, Game.king?, h.kings, Option.bind_map, Option.map_map, Option.map_bind,
    Option.map_bind]
  refine congrArg (Option.bind _) (funext fun i => ?_)
  rw [Function.comp_apply, Function.comp_apply, h.board.piece?_eq, Option.map_map]
  rfl

/-- The kings are in check or not on both boards. -/
theorem inCheck_eq (h : T.ImagePosition g g') (c : Colour) :
    g'.inCheck (T.colour c) = g.inCheck c := by
  rw [Game.inCheck, Game.inCheck, h.king?_eq, Option.any_map, ← T.colour_other]
  exact congrArg (Option.any · _) (funext fun p => (h.threats _).threatens_eq p)

/-- The image of an action is vetted as the action is, with the image of its ply or of its
rejection. -/
theorem vet_eq (h : T.ImagePosition g g') (hstatus : g'.status = T.status g.status)
    (hfit : T.FitsGame g) (a : Action) :
    g'.vet (T.action a) = ((g.vet a).map T.ply).mapError T.rejection := by
  have hbounds : g'.board.bounds = g.board.bounds := h.board.bounds_eq'.trans h.board.bounds_eq.symm
  have hinside (p : Point) : g.board.bounds.contains (T.point p) = g.board.bounds.contains p := by
    rw [h.board.bounds_eq, T.contains_point]
  have hover : g'.status.isTerminal = g.status.isTerminal := by rw [hstatus, isTerminal_status]
  have howns (id : PieceId) : g'.board.owns g'.turn (T.id id) = g.board.owns g.turn id := by
    rw [h.turn, h.board.owns_eq]
  have hturn : T.colour a.colour ≠ g'.turn ↔ a.colour ≠ g.turn := by
    rw [h.turn]
    exact not_congr T.colour.apply_eq_iff_eq
  rw [Game.vet, Game.vet, hover, hstatus, hbounds]
  simp only [bind, Except.bind, pure, Except.pure, throw, throwThe, MonadExceptOf.throw, hturn,
    action, hinside]
  -- each test is the same on both sides, and fails with the image of the rejection
  split
  · rfl
  · split
    · rfl
    · split
      · rfl
      · split
        · rfl
        · rw [h.board.on?_eq]
          cases g.board.on? a.source with
          | none => rfl
          | some id =>
            simp only [Option.map_some, howns, h.plan?_eq (hfit id)]
            split
            · rfl
            · cases g.plan? id a.target <;> rfl

/-- A vetted ply starts and ends inside the bounds. -/
theorem inside_of_vet (h : T.ImagePosition g g') {a : Action} {ply : Ply}
    (hvet : g.vet a = .ok ply) : bounds.contains ply.source ∧ bounds.contains ply.target := by
  obtain ⟨-, -, -, htarget, id, -, -, hplan⟩ := Game.vet_eq_ok_iff.1 hvet
  obtain ⟨owner, howner, hsource⟩ := Game.source_of_plan? hplan
  rw [hsource, Game.target_of_plan? hplan]
  exact ⟨h.board.inside id owner howner, h.board.bounds_eq ▸ htarget⟩

end ImagePosition

end Symmetry

end VariantChess
