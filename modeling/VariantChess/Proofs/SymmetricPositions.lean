import VariantChess.Proofs.PlainSearch
import VariantChess.Proofs.SymmetricGames

/-!
# Standard positions under a symmetry

Where the movements of the chessmen fit a symmetry, standard positions that are images of each other
have the same legal plies up to the symmetry. A piece and its image have them in the same order; the
pieces of a colour are visited in point order, which a symmetry need not respect, so the plies of a
colour and of its image are the same up to a permutation. Verdicts, material and mobility do not
depend on the order, so they correspond, and committing corresponding plies leads to images again.
-/

namespace VariantChess

namespace Symmetry

variable {bounds : Bounds} {T : Symmetry bounds} {g g' k k' : Game} {id : PieceId} {p : Ply}

/-- The chessmen move by movements that fit the symmetry. -/
def FitsChessmen (T : Symmetry bounds) : Prop := ∀ c : Chessman, ∀ m ∈ c.movements, T.Fits m

/-- A symmetry that chessmen fit is fit by games of chessmen. -/
theorem FitsChessmen.fitsGame (hT : T.FitsChessmen) (hkinds : g.board.Standard) :
    T.FitsGame g := by
  intro id m hm
  cases hq : g.board.piece? id with
  | none =>
    rw [Game.movementsOf, hq] at hm
    cases hm
  | some q =>
    obtain ⟨chessman, hkind⟩ := hkinds id q hq
    rw [Game.movementsOf_eq_of_piece? hq, hkind] at hm
    exact hT chessman m hm

namespace ImagePosition

section Boards

variable (h : T.ImagePosition g g')
include h

/-- Games in the same positions are images as well. -/
theorem of_samePosition (hk : g.SamePosition k) (hk' : g'.SamePosition k') :
    T.ImagePosition k k' := by
  obtain ⟨hboard, hset, hthreats, hkings, hturn, hconfig, hlast, hinside⟩ := h
  refine ⟨?_, ?_, fun c => ?_, fun c => ?_, ?_, ?_, ?_, ?_⟩
  · rw [hk.board, hk'.board]
    exact hboard
  · rw [hk.pieceSet, hk'.pieceSet, hset]
  · rw [hk.threats, hk'.threats]
    exact hthreats c
  · rw [hk.kings, hk'.kings]
    exact hkings c
  · rw [hk.turn, hk'.turn, hturn]
  · rw [hk.config, hk'.config, hconfig]
  · rw [hk.lastPly, hk'.lastPly, hlast]
  · rw [hk.lastPly]
    exact hinside

variable (hk : g.Kept) (hk' : g'.Kept)
include hk hk'

/-- The images of the pieces on the board are on the board. -/
theorem ids_perm : (g.board.ids.map T.id).Perm g'.board.ids := by
  refine (List.perm_ext_iff_of_nodup (hk.sound.nodup_ids.map T.id.injective)
    hk'.sound.nodup_ids).2 fun i => ?_
  obtain ⟨id, rfl⟩ := T.id.surjective i
  rw [List.mem_map_of_injective T.id.injective, h.mem_ids_iff]

theorem idsOf_perm (c : Colour) :
    ((g.board.idsOf c).map T.id).Perm (g'.board.idsOf (T.colour c)) := by
  have hperm := (h.ids_perm hk hk').filter (g'.board.owns (T.colour c))
  have howns : g'.board.owns (T.colour c) ∘ T.id = g.board.owns c :=
    funext fun i => h.board.owns_eq c i
  rwa [List.filter_map, howns] at hperm

theorem pieces_perm : (g.board.pieces.map T.piece).Perm g'.board.pieces := by
  have hperm := (h.ids_perm hk hk').filterMap g'.board.piece?
  have hpiece : g'.board.piece? ∘ T.id = fun i => (g.board.piece? i).map T.piece :=
    funext h.board.piece?_eq
  rwa [List.filterMap_map, hpiece, ← List.map_filterMap] at hperm

/-- Nothing but kings is left on both boards, or on neither. -/
theorem bareKings_eq : g'.bareKings = g.bareKings := by
  have hcount : g'.board.count = g.board.count := by
    have hlength := (h.ids_perm hk hk').length_eq
    rw [List.length_map] at hlength
    exact hlength.symm
  have hall : g'.board.pieces.all Piece.isKing = g.board.pieces.all Piece.isKing := by
    rw [← (h.pieces_perm hk hk').all_eq, List.all_map]
    rfl
  rw [Game.bareKings, Game.bareKings, hcount, hall]

/-- A side and its image have the same material and mobility. -/
theorem sideScore_eq (c : Colour) : g'.sideScore (T.colour c) = g.sideScore c := by
  have hmobility : (g'.threats.get (T.colour c)).mobility = (g.threats.get c).mobility :=
    (h.threats c).mobility_eq
  have hsum (k : Game) (d : Colour) : k.material d =
      ((k.board.pieces.filter (·.colour = d)).map fun q => k.pieceSet.value q.kind).foldr
        (· + ·) 0 := by
    rw [Game.material, List.foldr_map]
  have hmaterial : g'.material (T.colour c) = g.material c := by
    have hperm := (h.pieces_perm hk hk').filter (·.colour = T.colour c)
    have hcolour : (fun q : Piece => decide (q.colour = T.colour c)) ∘ T.piece =
        fun q => decide (q.colour = c) :=
      funext fun q => decide_eq_decide.2 T.colour.apply_eq_iff_eq
    rw [List.filter_map, hcolour] at hperm
    rw [hsum, hsum, ← (hperm.map _).foldr_op_eq, List.map_map, h.pieceSet]
    rfl
  rw [Game.sideScore, Game.sideScore, hmaterial, hmobility]

end Boards

variable (h : T.ImagePosition g g') (hT : T.FitsChessmen) (hkinds : g.board.Standard)
include h hT hkinds

/-- A ply and its image are safe or not. -/
theorem isSafe_eq (hr : p.Records g.board) : g'.isSafe (T.ply p) = g.isSafe p := by
  have hcolour : ((g'.board.piece? (T.ply p).piece).map (·.colour)).getD g'.turn =
      T.colour (((g.board.piece? p.piece).map (·.colour)).getD g.turn) := by
    have hpiece : g'.board.piece? (T.ply p).piece = (g.board.piece? p.piece).map T.piece :=
      h.board.piece?_eq p.piece
    rw [hpiece, h.turn]
    cases g.board.piece? p.piece <;> rfl
  have hplay := h.board.play p
  rw [Game.isSafe, Game.isSafe, Game.apply_eq_map, Game.apply_eq_map, hcolour]
  cases hb : p.play g.board with
  | error e =>
    rw [hb] at hplay
    generalize (T.ply p).play g'.board = r at hplay
    cases hplay
    rfl
  | ok b =>
    obtain ⟨b', hb', himage⟩ := hplay.exists_of_ok hb
    have hfit : T.FitsGame { g with board := b } :=
      hT.fitsGame (Game.standard_of_step hkinds ⟨hr, hb⟩)
    rw [hb']
    exact congrArg not ((h.after himage hfit p).inCheck_eq _)

/-- The image of a piece has the images of its legal plies, in the same order. -/
theorem legalOf_eq (hk : g.Kept) (id : PieceId) :
    g'.legalOf (T.id id) = (g.legalOf id).map T.ply := by
  have hfit := hT.fitsGame hkinds
  rw [Game.legalOf, Game.legalOf, h.destinations_eq (hfit id), Game.legalTo, Game.legalTo,
    List.filterMap_map, List.map_filterMap]
  refine congrArg (List.filterMap · _) (funext fun target => ?_)
  rw [Function.comp_apply, h.plan?_eq (hfit id), Option.filter_map]
  cases hplan : g.plan? id target with
  | none => rfl
  | some ply =>
    have hsafe := h.isSafe_eq hT hkinds (Game.records_of_plan? hk.sound hplan)
    cases hs : g.isSafe ply <;> simp [Option.filter, hs, hsafe]

/-- The legal plies of the image of a colour are the images of its legal plies. -/
theorem legal_perm (hk : g.Kept) (hk' : g'.Kept) (c : Colour) :
    ((g.legal c).map T.ply).Perm (g'.legal (T.colour c)) := by
  rw [Game.legal, Game.legal, List.map_flatMap]
  have hperm := (h.idsOf_perm hk hk' c).flatMap_right g'.legalOf
  rw [List.flatMap_map] at hperm
  simpa only [h.legalOf_eq hT hkinds hk] using hperm

/-- Positions that are images have corresponding verdicts, when they are standard. -/
theorem judged_eq (hg : g.Standard) (hg' : g'.Standard) (hk : g.Kept) (hk' : g'.Kept) :
    g'.judged g'.turn.other = T.status (g.judged g.turn.other) := by
  have hturn : g'.turn = T.colour g.turn := h.turn
  have hcheck : g'.inCheck g'.turn = g.inCheck g.turn := hturn ▸ h.inCheck_eq g.turn
  have hlegal : (g'.legal g'.turn).isEmpty = (g.legal g.turn).isEmpty := by
    rw [hturn, ← (h.legal_perm hT hkinds hk hk' g.turn).isEmpty_eq, List.isEmpty_map]
  rw [Game.judged, Game.judged, Colour.other_other, Colour.other_other, h.config,
    h.bareKings_eq hk hk', hcheck, hlegal]
  split
  · rfl
  · split
    · next hchecked =>
      rw [hg.crowned.mated_eq hk hchecked fun king => hg.king_mem_ids hk,
        hg'.crowned.mated_eq hk' (hcheck.trans hchecked) fun king => hg'.king_mem_ids hk', hlegal,
        hturn, ← T.colour_other]
      split <;> rfl
    · split <;> rfl

/-- Committing a vetted ply and its image leads to images. -/
theorem follows {a : Action} {status status' : Status} (hvet : g.vet a = .ok p)
    (hf : g.Follows p status k) (hf' : g'.Follows (T.ply p) status' k') : T.ImagePosition k k' := by
  have hboard : T.ImageBoard k.board k'.board := by
    obtain ⟨b', hb', himage⟩ := (h.board.play p).exists_of_ok hf.step.play
    obtain rfl := Except.ok.inj (hb'.symm.trans hf'.step.play)
    exact himage
  have hposition := rebuild hboard (hf'.pieceSet.trans (h.pieceSet.trans hf.pieceSet.symm))
    (fun c => by rw [hf.kings, hf'.kings, h.kings])
    (by rw [hf.turn, hf'.turn, h.turn, T.colour_other])
    (hf'.config.trans (h.config.trans hf.config.symm)) (by rw [hf.lastPly, hf'.lastPly]; rfl)
    (fun q hq => by
      rw [hf.lastPly] at hq
      obtain rfl := Option.some.inj hq
      exact h.inside_of_vet hvet)
    (hT.fitsGame (Game.standard_of_step hkinds hf.step))
  rwa [hf.kept.fresh.rebuild_eq, hf'.kept.fresh.rebuild_eq] at hposition

end ImagePosition

end Symmetry

end VariantChess
