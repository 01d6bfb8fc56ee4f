import VariantChess.Proofs.PlyStep
import VariantChess.Proofs.ThreatIndex
import VariantChess.Proofs.Walk

/-!
# Threat maps kept up to date

A game is fresh when both of its threat maps list for every piece exactly what it threatens, and
steady when they do so for every piece whose threats the log cannot change. A fresh game stays
steady under any change of its log, and refreshing the volatile pieces makes a steady game fresh.
Playing a ply and taking one back turn a steady game into a fresh one: a piece that is not looked at
again keeps its record, and threatens no point that the ply touches.

The maps of a fresh game are determined by the board and the latest ply. In particular computing
them from nothing gives the same maps.
-/

namespace VariantChess

namespace Game

variable {g h : Game} {c : Colour} {id : PieceId}

/-- The points that the threat map of a colour should list for a piece. -/
def expected (g : Game) (c : Colour) (id : PieceId) : OrderedSet Point :=
  if g.board.owns c id && g.board.has id then .ofList (g.reach id) else .empty

/-- Both threat maps are coherent and list for every piece what it threatens. -/
structure Fresh (g : Game) : Prop where
  coherent : ∀ c, (g.threats.get c).Coherent
  reach_eq : ∀ c id, (g.threats.get c).reach id = g.expected c id

/-- Both threat maps are coherent and list what they should, apart from the listings of volatile
pieces in the map of their own colour. -/
structure Steady (g : Game) : Prop where
  coherent : ∀ c, (g.threats.get c).Coherent
  reach_eq : ∀ c id, (id ∈ g.volatilePieces → ¬g.board.owns c id) →
    (g.threats.get c).reach id = g.expected c id

/-- Every piece of the roster moves by regular movements. -/
def Regular (g : Game) : Prop := ∀ id, ∀ m ∈ g.movementsOf id, m.Regular

/-- Pieces move by the same movements in games with the same board and the same pieces. -/
theorem movementsOf_eq_of_same (hboard : h.board = g.board) (hset : h.pieceSet = g.pieceSet)
    (id : PieceId) : h.movementsOf id = g.movementsOf id := by
  rw [movementsOf, movementsOf, hboard, hset]

/-- Being regular depends on the board and the pieces only. -/
theorem Regular.of_same (hreg : g.Regular) (hboard : h.board = g.board)
    (hset : h.pieceSet = g.pieceSet) : h.Regular := by
  intro id m hm
  rw [movementsOf_eq_of_same hboard hset] at hm
  exact hreg id m hm

/-- The volatile pieces depend on the board and the pieces only. -/
theorem volatilePieces_eq_of_same (hboard : h.board = g.board) (hset : h.pieceSet = g.pieceSet) :
    h.volatilePieces = g.volatilePieces := by
  rw [volatilePieces, volatilePieces, hboard]
  congr 1
  funext id
  rw [hasVolatile, hasVolatile, movementsOf_eq_of_same hboard hset]

/-- A fresh game is steady. -/
theorem Fresh.steady (hg : g.Fresh) : g.Steady := ⟨hg.coherent, fun c id _ => hg.reach_eq c id⟩

/-- In a fresh game a point is listed for a piece when the piece is on the board, has the colour of
the map and threatens the point. -/
theorem Fresh.mem_reach_iff (hg : g.Fresh) {p : Point} :
    p ∈ (g.threats.get c).reach id ↔ g.board.owns c id ∧ g.board.has id ∧ p ∈ g.reach id := by
  rw [hg.reach_eq, expected]
  by_cases howns : g.board.owns c id <;> by_cases hhas : g.board.has id <;> simp [howns, hhas]

/-- In a fresh game a piece is listed at a point when the point is listed for the piece. -/
theorem Fresh.mem_threatsAt_iff (hg : g.Fresh) {p : Point} :
    id ∈ (g.threats.get c).threatsAt p ↔ g.board.owns c id ∧ g.board.has id ∧ p ∈ g.reach id := by
  rw [(hg.coherent c).mem_threatsAt_iff, hg.mem_reach_iff]

/-- Games with the same board, the same pieces and the same latest ply have the same reach. -/
theorem reach_eq_of_same (hboard : h.board = g.board) (hset : h.pieceSet = g.pieceSet)
    (hply : h.lastPly = g.lastPly) (id : PieceId) : h.reach id = g.reach id := by
  rw [reach, reach, movementsOf_eq_of_same hboard hset, hboard, hply]

/-- The maps of a fresh game are determined by its board, its pieces and its latest ply. -/
theorem Fresh.threats_eq (hg : g.Fresh) (hh : h.Fresh) (hboard : h.board = g.board)
    (hset : h.pieceSet = g.pieceSet) (hply : h.lastPly = g.lastPly) : h.threats = g.threats := by
  refine Sides.ext_get fun c => (hh.coherent c).ext_reach (hg.coherent c) fun id => ?_
  rw [hh.reach_eq, hg.reach_eq, expected, expected, reach_eq_of_same hboard hset hply, hboard]

section Refresh

/-- Refreshing a piece changes nothing but the threats. -/
theorem refreshPiece_eq (g : Game) (id : PieceId) :
    g.refreshPiece id = { g with threats := (g.refreshPiece id).threats } := by
  rw [refreshPiece]
  split <;> rfl

/-- Refreshing keeps both maps coherent. -/
theorem coherent_refreshPiece (hg : ∀ c, (g.threats.get c).Coherent) (id : PieceId) (c : Colour) :
    ((g.refreshPiece id).threats.get c).Coherent := by
  rw [refreshPiece]
  split
  · exact hg c
  · next owner _ =>
    by_cases hc : c = owner.colour
    · rw [hc, Sides.get_modify_self]
      exact (hg _).assign id _
    · rw [Sides.get_modify_of_ne _ hc]
      exact hg c

/-- Refreshing a piece gives it the expected listing in the map of its colour and leaves every other
listing alone. -/
theorem reach_refreshPiece (g : Game) (id i : PieceId) (c : Colour) :
    ((g.refreshPiece id).threats.get c).reach i =
      if i = id ∧ g.board.owns c id then g.expected c i else (g.threats.get c).reach i := by
  rw [refreshPiece]
  cases howner : g.board.piece? id with
  | none => simp [Board.owns, howner]
  | some owner =>
    have howns : g.board.owns c id = decide (owner.colour = c) := by
      rw [Board.owns, howner, Option.any_some]
    by_cases hc : c = owner.colour
    · subst hc
      simp only [Sides.get_modify_self, ThreatMap.reach_assign, howns, decide_true, and_true]
      split
      · next hi =>
        rw [hi, expected, howns]
        by_cases hhas : g.board.has id <;> simp [hhas, OrderedSet.ofList]
      · rfl
    · rw [Sides.get_modify_of_ne _ hc, howns, if_neg fun h => hc (by simpa [eq_comm] using h.2)]

/-- Refreshing several pieces changes nothing but the threats. -/
theorem refresh_eq (g : Game) (ids : List PieceId) :
    g.refresh ids = { g with threats := (g.refresh ids).threats } := by
  induction ids generalizing g with
  | nil => rfl
  | cons id rest ih =>
    rw [refresh, List.foldl_cons, ← refresh, ih, refreshPiece_eq]

/-- Refreshing several pieces gives each of them the expected listing in the map of its colour and
leaves every other listing alone. -/
theorem reach_refresh (g : Game) (ids : List PieceId) (i : PieceId) (c : Colour) :
    ((g.refresh ids).threats.get c).reach i =
      if i ∈ ids ∧ g.board.owns c i then g.expected c i else (g.threats.get c).reach i := by
  induction ids generalizing g with
  | nil => simp [refresh]
  | cons id rest ih =>
    rw [refresh, List.foldl_cons, ← refresh, ih, reach_refreshPiece, refreshPiece_eq]
    change (if i ∈ rest ∧ g.board.owns c i then g.expected c i else _) = _
    simp only [List.mem_cons]
    grind

/-- Refreshing keeps both maps coherent. -/
theorem coherent_refresh (hg : ∀ c, (g.threats.get c).Coherent) (ids : List PieceId) (c : Colour) :
    ((g.refresh ids).threats.get c).Coherent := by
  induction ids generalizing g with
  | nil => exact hg c
  | cons id rest ih => exact ih (coherent_refreshPiece hg id)

/-- Refreshing makes a game fresh when it reaches every listing that may be wrong. -/
theorem fresh_refresh {ids : List PieceId} (hg : ∀ c, (g.threats.get c).Coherent)
    (hids : ∀ c i, (i ∈ ids → ¬g.board.owns c i) → (g.threats.get c).reach i = g.expected c i) :
    (g.refresh ids).Fresh := by
  refine ⟨coherent_refresh hg ids, fun c i => ?_⟩
  have hexpected : (g.refresh ids).expected c i = g.expected c i := by
    rw [refresh_eq]
    rfl
  rw [reach_refresh, hexpected]
  split
  · rfl
  · next hi => exact hids c i fun hmem howns => hi ⟨hmem, howns⟩

/-- Refreshing the volatile pieces makes a steady game fresh. -/
theorem Steady.refreshVolatile (hg : g.Steady) : g.refreshVolatile.Fresh :=
  fresh_refresh hg.coherent hg.reach_eq

/-- Maps computed from nothing are fresh. -/
theorem fresh_rebuild (g : Game) : g.rebuild.Fresh := by
  refine fresh_refresh (fun c => ?_) (fun c i hi => ?_)
  · rw [Sides.get_both]
    exact ThreatMap.Coherent.of_empty
  · rw [Sides.get_both, ThreatMap.reach_empty, expected]
    split
    · next hboth =>
      rw [Bool.and_eq_true, Board.has_iff] at hboth
      obtain ⟨howns, q, -, hq⟩ := hboth
      exact absurd howns (hi (Plane.mem_values.2 ⟨q.point, hq⟩))
    · rfl

/-- A fresh game that differs from another at most in its threat maps equals it. -/
theorem Fresh.eq_of_frame (hg : g.Fresh) (hh : h.Fresh)
    (hframe : h = { g with threats := h.threats }) : h = g := by
  have hthreats : h.threats = g.threats :=
    hg.threats_eq hh (by rw [hframe]) (by rw [hframe]) (by rw [hframe]; rfl)
  rw [hframe, hthreats]

/-- Computing both maps of a fresh game from nothing gives the same game. -/
theorem Fresh.rebuild_eq (hg : g.Fresh) : g.rebuild = g :=
  hg.eq_of_frame (fresh_rebuild g) (by rw [rebuild, refresh_eq])

/-- Refreshing the volatile pieces of a fresh game changes nothing. -/
theorem Fresh.refreshVolatile_eq (hg : g.Fresh) : g.refreshVolatile = g :=
  hg.eq_of_frame hg.steady.refreshVolatile (by rw [refreshVolatile, refresh_eq])

end Refresh

section Change

/-- A piece that is not volatile has no volatile movement. -/
theorem isVolatile_eq_false (hid : id ∉ g.volatilePieces) (hon : g.board.has id) {m : Movement}
    (hm : m ∈ g.movementsOf id) : m.isVolatile = false := by
  obtain ⟨q, -, hq⟩ := Board.has_iff.1 hon
  have hids : id ∈ g.board.ids := Plane.mem_values.2 ⟨q.point, hq⟩
  rw [volatilePieces, List.mem_filter, not_and, hasVolatile, List.any_eq_true] at hid
  exact Bool.eq_false_iff.2 fun hv => hid hids ⟨m, hm, hv⟩

/-- Pieces with the same record and no volatile movement threaten the same points in two games that
agree on these points. -/
theorem mem_reach_iff_of_calm (hreg : g.Regular)
    (hcalm : ∀ m ∈ g.movementsOf id, m.isVolatile = false) (hset : h.pieceSet = g.pieceSet)
    (hbounds : h.board.bounds = g.board.bounds) {id' : PieceId}
    (hrecord : h.board.piece? id' = g.board.piece? id)
    (hsame : ∀ p ∈ g.reach id, h.board.pieceAt? p = g.board.pieceAt? p) (p : Point) :
    p ∈ h.reach id' ↔ p ∈ g.reach id := by
  have hmoves : h.movementsOf id' = g.movementsOf id := by
    rw [movementsOf, movementsOf, hrecord, hset]
  rw [reach, reach, hmoves] at *
  rw [Situation.of?, Situation.of?, hrecord] at *
  cases howner : g.board.piece? id with
  | none => rfl
  | some owner =>
    simp only [howner, Option.map_some, List.mem_flatMap] at hsame ⊢
    refine exists_congr fun m => and_congr_right fun hm => ?_
    have hplace : Situation.SamePlace
        ⟨g.board, g.lastPly, none, id, owner.colour, owner.point, none⟩
        ⟨h.board, h.lastPly, none, id', owner.colour, owner.point, none⟩ := ⟨hbounds, rfl, rfl, rfl⟩
    exact Movement.mem_candidates_threats_iff (hreg id m hm) (hcalm m hm) hplace
      (fun r hr => hsame r ⟨m, hm, hr⟩) p

/-- A steady game stays steady when its log changes. -/
theorem Steady.of_same (hg : g.Steady) (hreg : g.Regular) (hboard : h.board = g.board)
    (hset : h.pieceSet = g.pieceSet) (hthreats : h.threats = g.threats) : h.Steady := by
  refine ⟨fun c => hthreats ▸ hg.coherent c, fun c id hid => ?_⟩
  rw [hboard, volatilePieces_eq_of_same hboard hset] at hid
  rw [hthreats, hg.reach_eq c id hid, expected, expected, hboard]
  by_cases hboth : g.board.owns c id && g.board.has id
  · rw [if_pos hboth, if_pos hboth]
    rw [Bool.and_eq_true] at hboth
    refine OrderedSet.ext_mem fun p => ?_
    rw [OrderedSet.mem_ofList, OrderedSet.mem_ofList]
    have hcalm : ∀ m ∈ g.movementsOf id, m.isVolatile = false := fun m hm =>
      isVolatile_eq_false (fun hmem => hid hmem hboth.1) hboth.2 hm
    refine (mem_reach_iff_of_calm hreg hcalm hset ?_ ?_ ?_ p).symm
    · rw [hboard]
    · rw [hboard]
    · intro r _
      rw [hboard]
  · rw [if_neg hboth, if_neg hboth]

/-- A steady game whose board changes within the extent of a ply becomes fresh when the affected
pieces are refreshed. -/
theorem Steady.fresh_of_change (hg : g.Steady) (hreg : g.Regular) {ply : Ply} {b : Board}
    (hagree : g.board.AgreeOff b ply.touched ply.pieces)
    (hsame : ∀ p, p ∉ ply.touched → b.pieceAt? p = g.board.pieceAt? p) :
    (refresh { g with board := b } (g.affected ply).members).Fresh := by
  refine fresh_refresh hg.coherent fun c i hi => ?_
  change i ∈ g.affected ply → ¬b.owns c i at hi
  change (g.threats.get c).reach i = expected { g with board := b } c i
  rw [expected]
  change _ = if b.owns c i && b.has i then OrderedSet.ofList (reach { g with board := b } i) else _
  rw [hagree.owns_eq] at hi ⊢
  by_cases howns : g.board.owns c i
  · have hout : i ∉ g.affected ply := fun hmem => hi hmem howns
    rw [affected, OrderedSet.mem_ofList, List.mem_append, List.mem_append, not_or, not_or] at hout
    obtain ⟨⟨hpieces, htouched⟩, hvolatile⟩ := hout
    have hreach := hg.reach_eq c i fun hmem => absurd hmem hvolatile
    rw [expected] at hreach
    rw [hagree.has_eq hpieces, hreach]
    by_cases hon : g.board.has i
    · rw [howns, hon] at hreach ⊢
      simp only [Bool.and_self, if_true] at hreach ⊢
      -- a piece that threatens a touched point would have been looked at again
      have hclear : ∀ p ∈ g.reach i, p ∉ ply.touched := by
        intro p hp hpt
        have hmem : i ∈ (g.threats.get c).threatsAt p := by
          rw [(hg.coherent c).mem_threatsAt_iff, hreach, OrderedSet.mem_ofList]
          exact hp
        refine htouched (List.mem_flatMap.2 ⟨p, hpt, List.mem_append.2 ?_⟩)
        cases c with
        | white => exact .inl hmem
        | black => exact .inr hmem
      refine OrderedSet.ext_mem fun p => ?_
      rw [OrderedSet.mem_ofList, OrderedSet.mem_ofList]
      exact (mem_reach_iff_of_calm (h := { g with board := b }) hreg
        (fun m hm => isVolatile_eq_false hvolatile hon hm) rfl hagree.bounds
        (hagree.record i hpieces) (fun r hr => hsame r (hclear r hr)) p).symm
    · simp [hon]
  · have hreach := hg.reach_eq c i fun _ => howns
    rw [expected] at hreach
    rw [hreach]
    simp [howns]

/-- Playing a ply on a steady game gives a fresh one. -/
theorem Steady.fresh_of_step (hg : g.Steady) (hreg : g.Regular) (hb : g.board.Sound) {ply : Ply}
    {b : Board} (hstep : ply.Step g.board b) :
    (refresh { g with board := b } (g.affected ply).members).Fresh :=
  hg.fresh_of_change hreg hstep.agreeOff fun _ hp => hstep.pieceAt?_eq hb hp

/-- Taking a ply back on a steady game gives a fresh one. -/
theorem Steady.fresh_of_step_back (hg : g.Steady) (hreg : g.Regular) {ply : Ply} {b : Board}
    (hb : b.Sound) (hstep : ply.Step b g.board) :
    (refresh { g with board := b } (g.affected ply).members).Fresh :=
  hg.fresh_of_change hreg hstep.agreeOff.symm fun _ hp => (hstep.pieceAt?_eq hb hp).symm

end Change

end Game

end VariantChess
