import VariantChess.Proofs.Rewinding
import VariantChess.Proofs.Run

/-!
# The extent of the threat maps

A piece is assigned what its movements threaten, in the map of its colour, and no movement leaves
the board. Playing a ply or taking it back changes neither the bounds nor the colour of a record,
whatever the ply. So the threat maps store only pieces of their own colour and points of the board,
for any pieces and whether or not the maps are up to date.
-/

namespace VariantChess

namespace Board

/-- The boards have the same bounds, and their records have the same colours. -/
structure SameOutline (b b' : Board) : Prop where
  bounds : b'.bounds = b.bounds
  colour : ∀ id, (b'.piece? id).map (·.colour) = (b.piece? id).map (·.colour)

namespace SameOutline

variable {b b₁ b₂ : Board} {id : PieceId} {p : Point}

theorem refl (b : Board) : b.SameOutline b := ⟨rfl, fun _ => rfl⟩

theorem trans (h : b.SameOutline b₁) (h' : b₁.SameOutline b₂) : b.SameOutline b₂ :=
  ⟨h'.bounds.trans h.bounds, fun id => (h'.colour id).trans (h.colour id)⟩

theorem of_lift (h : b.lift id = .ok b₁) : b.SameOutline b₁ := by
  obtain ⟨-, -, -, hbounds, -, hpiece⟩ := lift_view h
  exact ⟨hbounds, fun i => by rw [hpiece]⟩

theorem of_place (h : b.place id p = .ok b₁) : b.SameOutline b₁ := by
  obtain ⟨-, -, hbounds, -, hpiece⟩ := place_view h
  refine ⟨hbounds, fun i => ?_⟩
  rw [hpiece]
  split
  · rw [Option.map_map]
    rfl
  · rfl

theorem of_move (h : b.move id p = .ok b₁) : b.SameOutline b₁ := by
  obtain ⟨_, hlift, hplace⟩ := bind_eq_ok_iff.1 h
  exact (of_lift hlift).trans (of_place hplace)

theorem of_revise (b : Board) (id : PieceId) {f : Piece → Piece}
    (hf : ∀ q, (f q).colour = q.colour) : b.SameOutline (b.revise id f) := by
  refine ⟨rfl, fun i => ?_⟩
  rw [piece?_revise]
  split
  · rw [Option.map_map]
    exact congrFun (congrArg Option.map (funext hf)) _
  · rfl

end SameOutline

end Board

namespace Ply

variable {p : Ply} {b b' : Board}

theorem sameOutline_playEffect (h : p.playEffect b = .ok b') : b.SameOutline b' := by
  rw [playEffect] at h
  split at h
  · obtain rfl := Except.ok.inj h
    exact .refl _
  · obtain ⟨_, hmove, rfl⟩ := map_eq_ok_iff.1 h
    exact (Board.SameOutline.of_move hmove).trans (.of_revise _ _ fun _ => rfl)
  · exact .of_lift h
  · obtain rfl := Except.ok.inj h
    exact .of_revise _ _ fun _ => rfl

/-- Playing a ply keeps the outline of a board. -/
theorem sameOutline_play (h : p.play b = .ok b') : b.SameOutline b' := by
  obtain ⟨b₁, b₂, hlift, hmove, heffect⟩ := play_eq_ok_iff.1 h
  have hlifted : b.SameOutline b₁ := by
    split at hlift
    · exact .of_lift hlift
    · obtain rfl := Except.ok.inj hlift
      exact .refl _
  have harrived := (hlifted.trans (.of_move hmove)).trans
    (.of_revise _ p.piece (f := ({ · with moved := true })) fun _ => rfl)
  exact harrived.trans (sameOutline_playEffect heffect)

theorem sameOutline_takeBackEffect (h : p.takeBackEffect b = .ok b') : b.SameOutline b' := by
  rw [takeBackEffect] at h
  split at h
  · obtain rfl := Except.ok.inj h
    exact .refl _
  · obtain ⟨_, hmove, rfl⟩ := map_eq_ok_iff.1 h
    exact (Board.SameOutline.of_move hmove).trans (.of_revise _ _ fun _ => rfl)
  · exact .of_place h
  · obtain rfl := Except.ok.inj h
    exact .of_revise _ _ fun _ => rfl

/-- Taking a ply back keeps the outline of a board. -/
theorem sameOutline_takeBack (h : p.takeBack b = .ok b') : b.SameOutline b' := by
  obtain ⟨b₁, heffect, hrest⟩ := bind_eq_ok_iff.1 h
  obtain ⟨b₂, hmove, hplace⟩ := bind_eq_ok_iff.1 hrest
  have hback := ((sameOutline_takeBackEffect heffect).trans (.of_move hmove)).trans
    (.of_revise _ p.piece (f := ({ · with moved := !p.first })) fun _ => rfl)
  refine hback.trans ?_
  dsimp only at hplace
  split at hplace
  · exact .of_place hplace
  · obtain rfl := Except.ok.inj hplace
    exact .refl _

end Ply

/-- What a map stores after a piece has been assigned points is these points or what it stored. -/
theorem ThreatMap.get?_assign {m : ThreatMap} {id i : PieceId} {ps : List Point}
    {s : OrderedSet Point} (h : (m.assign id ps).byPiece.get? i = some s) :
    i = id ∧ s = .ofList ps ∨ m.byPiece.get? i = some s := by
  have hclear (hs : (m.clear id).byPiece.get? i = some s) : m.byPiece.get? i = some s := by
    rw [clear, OrderedMap.get?_erase] at hs
    split at hs
    · cases hs
    · exact hs
  rw [assign] at h
  split at h
  · exact .inr (hclear h)
  · rw [OrderedMap.get?_insert] at h
    split at h
    · next hi => exact .inl ⟨hi, (Option.some.inj h).symm⟩
    · exact .inr (hclear h)

namespace Game

variable {b₀ : Board} {g h : Game} {id : PieceId} {ply : Ply}

/-- What a piece threatens is on the board. -/
theorem contains_of_mem_reach {p : Point} (hp : p ∈ g.reach id) : g.board.bounds.contains p := by
  rw [reach, Situation.of?] at hp
  cases howner : g.board.piece? id with
  | none =>
    rw [howner] at hp
    cases hp
  | some owner =>
    rw [howner] at hp
    obtain ⟨m, -, hp⟩ := List.mem_flatMap.1 hp
    exact Movement.contains_of_mem_candidates hp

/-- The board has the outline of the given one, and the threat maps store only pieces of their
colour and points of the board. -/
structure Within (b₀ : Board) (g : Game) : Prop where
  outline : b₀.SameOutline g.board
  stored : ∀ c id s, (g.threats.get c).byPiece.get? id = some s →
    b₀.owns c id ∧ ∀ p ∈ s, b₀.bounds.contains p

namespace Within

/-- Only the board and the threat maps count. -/
theorem of_same (hg : Within b₀ g) (hboard : h.board = g.board) (hthreats : h.threats = g.threats) :
    Within b₀ h :=
  ⟨hboard ▸ hg.outline, hthreats ▸ hg.stored⟩

/-- The board may change within its outline. -/
theorem of_outline (hg : Within b₀ g) {b : Board} (hb : g.board.SameOutline b) :
    Within b₀ { g with board := b } :=
  ⟨hg.outline.trans hb, hg.stored⟩

theorem refreshPiece (hg : Within b₀ g) (id : PieceId) : Within b₀ (g.refreshPiece id) := by
  refine ⟨by rw [refreshPiece_eq]; exact hg.outline, fun c i s hs => ?_⟩
  rw [Game.refreshPiece] at hs
  split at hs
  · exact hg.stored c i s hs
  · next owner howner =>
    by_cases hc : c = owner.colour
    · subst hc
      rw [Sides.get_modify_self] at hs
      rcases ThreatMap.get?_assign hs with ⟨rfl, rfl⟩ | hs
      · refine ⟨?_, fun p hp => ?_⟩
        · rw [← Board.owns_eq_of_colour (hg.outline.colour i)]
          exact Board.owns_iff.2 ⟨owner, howner, rfl⟩
        · rw [OrderedSet.mem_ofList] at hp
          rw [← hg.outline.bounds]
          split at hp
          · exact contains_of_mem_reach hp
          · cases hp
      · exact hg.stored _ i s hs
    · rw [Sides.get_modify_of_ne _ hc] at hs
      exact hg.stored c i s hs

theorem refresh (hg : Within b₀ g) (ids : List PieceId) : Within b₀ (g.refresh ids) := by
  induction ids generalizing g with
  | nil => exact hg
  | cons id rest ih => exact ih (hg.refreshPiece id)

theorem apply (hg : Within b₀ g) (happly : g.apply ply = .ok h) : Within b₀ h := by
  rw [apply_eq_map] at happly
  obtain ⟨b, hplay, rfl⟩ := map_eq_ok_iff.1 happly
  exact (hg.of_outline (Ply.sameOutline_play hplay)).refresh _

theorem revert (hg : Within b₀ g) (hrevert : g.revert ply = .ok h) : Within b₀ h := by
  rw [revert_eq_map] at hrevert
  obtain ⟨b, hback, rfl⟩ := map_eq_ok_iff.1 hrevert
  exact (hg.of_outline (Ply.sameOutline_takeBack hback)).refresh _

/-- Trying plies keeps the board within its outline and the threat maps within theirs. -/
theorem tries : Tries fun g h => Within b₀ g → Within b₀ h where
  refl _ hg := hg
  trans hgh hhk hg := hhk (hgh hg)
  isLegal _ hlegal hg := by
    obtain ⟨g₁, happly, hrest⟩ := bind_eq_ok_iff.1 hlegal
    obtain ⟨g₂, hrevert, hanswer⟩ := bind_eq_ok_iff.1 hrest
    obtain ⟨rfl, rfl⟩ := Prod.mk.inj (Except.ok.inj hanswer)
    exact (hg.apply happly).revert hrevert

theorem commit {status : Status} (hg : Within b₀ g) (hcommit : g.commit ply = .ok (status, h)) :
    Within b₀ h := by
  rw [commit_eq_bind] at hcommit
  obtain ⟨⟨verdict, g₁⟩, hverdict, hanswer⟩ := bind_eq_ok_iff.1 hcommit
  obtain ⟨rfl, rfl⟩ := Prod.mk.inj (Except.ok.inj hanswer)
  have hpushed : Within b₀ { g with log := g.log.push ⟨ply, .ongoing⟩ } := hg.of_same rfl rfl
  have hlogged : Within b₀ (g.logged ply) := (hpushed.refresh _).of_same rfl rfl
  exact (tries.verdict hverdict hlogged).of_same rfl rfl

theorem update (hg : Within b₀ g) {a : Action} {r : Except Rejection Status}
    (hupdate : g.update a = .ok (r, h)) : Within b₀ h := by
  rw [Game.update] at hupdate
  split at hupdate
  · obtain ⟨rfl, rfl⟩ := Prod.mk.inj (Except.ok.inj hupdate)
    exact hg
  · obtain ⟨g₁, happly, hrest⟩ := bind_eq_ok_iff.1 hupdate
    have hg₁ := hg.apply happly
    split at hrest
    · obtain ⟨g₂, hrevert, hanswer⟩ := bind_eq_ok_iff.1 hrest
      obtain ⟨rfl, rfl⟩ := Prod.mk.inj (Except.ok.inj hanswer)
      exact hg₁.revert hrevert
    · obtain ⟨⟨status, g₂⟩, hcommit, hanswer⟩ := bind_eq_ok_iff.1 hrest
      obtain ⟨rfl, rfl⟩ := Prod.mk.inj (Except.ok.inj hanswer)
      exact hg₁.commit hcommit

theorem undo (hg : Within b₀ g) {n : Nat} {save : Bool} {answer : Status}
    (hundo : g.undo n save = .ok (answer, h)) : Within b₀ h := by
  obtain ⟨⟨count, k⟩, hplies, -⟩ := bind_eq_ok_iff.1 hundo
  have hk : Within b₀ k := by
    refine undoPlies_induction (P := fun _ => Within b₀) (k := 0) ?back ?forget hg hplies
    case back =>
      intro _ g h e rest undone hg _ _ hrevert
      have hpopped : Within b₀ { g with log := ⟨rest, undone⟩ } := hg.of_same rfl rfl
      exact (hpopped.revert hrevert).of_same rfl rfl
    case forget => exact fun hg _ => hg.of_same rfl rfl
  rw [undo_eq hplies] at hundo
  split at hundo
  · obtain ⟨-, rfl⟩ := Prod.mk.inj (Except.ok.inj hundo)
    exact hk
  · obtain ⟨-, rfl⟩ := Prod.mk.inj (Except.ok.inj hundo)
    exact (hk.refresh _).of_same rfl rfl

theorem redo (hg : Within b₀ g) {n : Nat} {answer : Status}
    (hredo : g.redo n = .ok (answer, h)) : Within b₀ h := by
  obtain ⟨⟨count, k⟩, hplies, hrest⟩ := bind_eq_ok_iff.1 hredo
  have hk : Within b₀ k := by
    refine redoPlies_induction (P := fun _ => Within b₀) (k := 0) ?again hg hplies
    intro _ g h e rest hg _ happly
    have hpushed : Within b₀ { g with log := ⟨e :: g.log.committed, rest⟩ } := hg.of_same rfl rfl
    exact (hpushed.apply happly).of_same rfl rfl
  dsimp only at hrest
  split at hrest
  · obtain ⟨-, rfl⟩ := Prod.mk.inj (Except.ok.inj hrest)
    exact hk
  · obtain ⟨-, rfl⟩ := Prod.mk.inj (Except.ok.inj hrest)
    exact hk.refresh _

end Within

/-- The elementary operations keep a game within the outline of a board. -/
theorem preserved_within (b₀ : Board) : Preserved (Within b₀) where
  update hg hupdate := hg.update hupdate
  undo hg hundo := hg.undo hundo
  redo hg hredo := hg.redo hredo
  legalActions hg h' := Within.tries.legalActions h' hg
  moveMap hg h' := Within.tries.moveMap h' hg

variable {set : PieceSet} {layout : List Char} {config : GameConfig} {g₀ : Game}

/-- A game that starts is within the outline of the board that is read from its layout. -/
theorem within_of_start (hstart : start set layout config = .ok g₀) : ∃ board turn,
    Board.read set config.bounds layout = .ok (board, turn) ∧ Within board g₀ := by
  rw [start] at hstart
  split at hstart
  · cases hstart
  · next board turn hread =>
    split at hstart
    · cases hstart
    · next verdict g hverdict =>
      obtain rfl := Except.ok.inj hstart
      refine ⟨board, turn, hread, (Within.tries.verdict hverdict ?_).of_same rfl rfl⟩
      refine Within.refresh ⟨.refl board, fun c id s hs => ?_⟩ _
      rw [Sides.get_both] at hs
      cases hs

end Game

end VariantChess
