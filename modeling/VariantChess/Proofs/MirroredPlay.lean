import VariantChess.Proofs.Deepening
import VariantChess.Proofs.Mirror
import VariantChess.Proofs.SymmetricPlay
import VariantChess.Proofs.TokenOrder

/-!
# Play in the mirror

A game of chessmen and the game from the mirrored layout are twins, so mirrored operations keep them
in step. The mirror exchanges the sides, so the static score changes its sign; the greatest of some
scores becomes the least of the negated ones, so the plain score changes its sign at every depth.
-/

namespace VariantChess

open Search

namespace Score

variable {m : Bool} {values values' : List Score}

theorem neg_sub (a b : Score) : -(a - b) = b - a := congrArg mk (Int.neg_sub _ _)

/-- The better of two negated scores is that of the scores for the other side. -/
theorem better_neg (m : Bool) (a b : Score) : better (!m) (-a) (-b) = -better m a b := by
  have hneg {a b : Score} (h : a ≤ b) : -b ≤ -a := Int.neg_le_neg h
  cases m with
  | true =>
    rcases le_total a b with h | h
    · exact (min_eq_right (hneg h)).trans (congrArg _ (max_eq_right h).symm)
    · exact (min_eq_left (hneg h)).trans (congrArg _ (max_eq_left h).symm)
  | false =>
    rcases le_total a b with h | h
    · exact (max_eq_left (hneg h)).trans (congrArg _ (min_eq_left h).symm)
    · exact (max_eq_right (hneg h)).trans (congrArg _ (min_eq_right h).symm)

/-- The best of the negated scores, in whatever order, is that of the scores for the other side. -/
theorem best?_neg (m : Bool) (h : (values.map fun v => -v).Perm values') :
    best? (!m) values' = (best? m values).map fun v => -v := by
  cases values with
  | nil =>
    obtain rfl := h.nil_eq
    rw [best?_nil, best?_nil, Option.map_none]
  | cons v rest =>
    obtain ⟨best, hbest⟩ : ∃ best, best? m (v :: rest) = some best := ⟨_, best?_cons m v rest⟩
    obtain ⟨hmem, hall⟩ := best?_eq_some_iff.1 hbest
    rw [hbest, Option.map_some, best?_eq_some_iff]
    refine ⟨h.mem_iff.1 (List.mem_map_of_mem hmem), fun x hx => ?_⟩
    obtain ⟨y, hy, rfl⟩ := List.mem_map.1 (h.mem_iff.2 hx)
    rw [better_neg, hall y hy]

end Score

namespace Symmetry.InStep

variable {bounds : Bounds} {σ : Equiv.Perm PieceId} {g₀ g₀' g g' : Game}
  (h₀ : (mirror bounds σ).Twins g₀ g₀') (h : (mirror bounds σ).InStep g₀ g₀' g g')
include h₀ h

/-- The static score changes its sign in the mirror. -/
theorem evaluate_neg : g'.evaluate = -g.evaluate := by
  have hposition := h.position h₀
  have hwhite : g'.sideScore .black = g.sideScore .white :=
    hposition.sideScore_eq (h.kept h₀) (h.kept' h₀) .white
  have hblack : g'.sideScore .white = g.sideScore .black :=
    hposition.sideScore_eq (h.kept h₀) (h.kept' h₀) .black
  have hundecided : g'.sideScore .white - g'.sideScore .black =
      -(g.sideScore .white - g.sideScore .black) := by rw [hwhite, hblack, Score.neg_sub]
  rw [Game.evaluate, Game.evaluate, h.status h₀]
  cases g.status with
  | won c => cases c <;> rfl
  | stalemate => rfl
  | pending | ongoing | check | unchanged => exact hundecided

/-- The plain score changes its sign in the mirror, where the other side chooses. -/
theorem plainScore_neg (depth : Nat) (maximising : Bool) :
    ∃ v, Game.plainScore depth maximising g = .ok v ∧
      Game.plainScore depth (!maximising) g' = .ok (-v) := by
  induction depth generalizing maximising g g' with
  | zero => exact ⟨_, rfl, congrArg Except.ok (h.evaluate_neg h₀)⟩
  | succ depth ih =>
    obtain ⟨scored, hlisted, hscored⟩ :=
      h.reached.exists_plainScored h₀.opening h₀.standard depth (!maximising)
    obtain ⟨actions, actions', hactions, hlisted', hperm⟩ := h.legalActions h₀
    obtain ⟨rfl, -⟩ := Prod.mk.inj (Except.ok.inj (hactions.symm.trans hlisted))
    -- the actions of the mirrored game, listed with the negated scores
    let image (p : Action × Score) : Action × Score := ((mirror bounds σ).action p.1, -p.2)
    have himage : ((scored.map image).map Prod.fst).Perm actions' := by
      rw [List.map_map] at hperm ⊢
      exact hperm
    obtain ⟨scored', rfl, hvalues⟩ := exists_perm_map himage
    have hscored' : ∀ p ∈ scored',
        Game.scoreAfter (Game.plainScore depth maximising) g' p.1 = .ok p.2 := by
      intro p' hp'
      obtain ⟨p, hp, rfl⟩ := List.mem_map.1 (hvalues.mem_iff.2 hp')
      obtain ⟨status, k, hupdate, -, hv⟩ := hscored p hp
      obtain ⟨r, k₁, k', hupdate₁, hupdate', hstep⟩ := h.update h₀ p.1
      obtain ⟨rfl, rfl⟩ := Prod.mk.inj (Except.ok.inj (hupdate.symm.trans hupdate₁))
      obtain ⟨v, hv₁, hv'⟩ := ih hstep (!maximising)
      obtain rfl := Except.ok.inj (hv.symm.trans hv₁)
      rw [Bool.not_not] at hv'
      exact bind_eq_ok_iff.2 ⟨_, hupdate', hv'⟩
    have hbest : Score.best? (!maximising) (scored'.map (·.2)) =
        (Score.best? maximising (scored.map (·.2))).map fun v => -v := by
      refine Score.best?_neg maximising ?_
      have hneg := hvalues.map Prod.snd
      rw [List.map_map] at hneg ⊢
      exact hneg
    refine ⟨_, Game.plainScore_succ hlisted fun p hp => hscored.scoreAfter_eq hp, ?_⟩
    rw [Game.plainScore_succ hlisted' (by rwa [Bool.not_not]), hbest, h.evaluate_neg h₀]
    cases Score.best? maximising (scored.map (·.2)) <;> rfl

end Symmetry.InStep

/-- Images of pieces may be part of one layout when the pieces may be. -/
theorem Piece.Compatible.image {bounds : Bounds} (T : Symmetry bounds) {q r : Piece}
    (h : q.Compatible r) : (T.piece q).Compatible (T.piece r) :=
  ⟨mt (T.point.injective ·) h.1, fun hkings =>
    h.2 ⟨hkings.1, hkings.2.1, T.colour.injective hkings.2.2⟩⟩

namespace Board

variable {set : PieceSet} {bounds : Bounds} {layout layout' : List Char} {b b' : Board}
  {turn : Colour}

/-- The second layout lists the other side to move and the mirrored pieces, in any order. -/
def Mirrors (set : PieceSet) (bounds : Bounds) (layout layout' : List Char) : Prop :=
  ∃ turn pieces pieces', Lists set layout turn pieces ∧ Lists set layout' turn.other pieces' ∧
    (pieces.map (mirror bounds 1).piece).Perm pieces'

/-- Every accepted layout has a mirrored one. -/
theorem exists_mirrors (h : Board.read set bounds layout = .ok (b, turn)) :
    ∃ layout', Mirrors set bounds layout layout' := by
  obtain ⟨hlists, hinside, -⟩ := exists_read_iff.1 ⟨b, h, rfl⟩
  have hwritten : ∀ q ∈ b.roster.toList.map (mirror bounds 1).piece, q.kind.Written ∧
      set.knows q.kind ∧ q.point.x.val < 26 ∧ q.point.y.val < 26 := by
    intro q hq
    obtain ⟨r, hr, rfl⟩ := List.mem_map.1 hq
    obtain ⟨hkind, hknows⟩ := hlists.written hr
    have hpoint : bounds.contains ((mirror bounds 1).piece r).point :=
      ((mirror bounds 1).contains_point r.point).trans (hinside r hr)
    obtain ⟨⟨-, hx⟩, -, hy⟩ := Bounds.contains_iff.1 hpoint
    exact ⟨hkind, hknows, hx.trans_lt bounds.x_lt, hy.trans_lt bounds.y_lt⟩
  obtain ⟨layout', hlists'⟩ := exists_layout turn.other hwritten
  exact ⟨layout', turn, _, _, hlists, hlists', .rfl⟩

/-- A mirrored layout is read to the image of the board, for some naming of the pieces. -/
theorem read_of_mirrors (hmirrors : Mirrors set bounds layout layout')
    (h : Board.read set bounds layout = .ok (b, turn)) :
    ∃ b' σ, Board.read set bounds layout' = .ok (b', turn.other) ∧
      (mirror bounds σ).ImageBoard b b' := by
  obtain ⟨turn₁, pieces, pieces', hlists₁, hlists', hperm⟩ := hmirrors
  obtain ⟨hlists, hinside, hcompatible⟩ := exists_read_iff.1 ⟨b, h, rfl⟩
  obtain ⟨rfl, rfl⟩ := hlists.unique hlists₁
  obtain ⟨b', hread', rfl⟩ := exists_read_iff.2 ⟨hlists', fun q hq => by
      obtain ⟨r, hr, rfl⟩ := List.mem_map.1 (hperm.mem_iff.2 hq)
      exact ((mirror bounds 1).contains_point r.point).trans (hinside r hr),
    (hperm.pairwise_iff Piece.Compatible.symm).1
      (hcompatible.map _ fun _ _ hqr => hqr.image (mirror bounds 1))⟩
  obtain ⟨σ, hpiece⟩ := exists_perm_piece? hperm
  exact ⟨b', σ, hread', imageBoard_of_read h hread' hpiece⟩

end Board

namespace Game

variable {set : PieceSet} {config : GameConfig} {layout layout' : List Char} {board : Board}
  {turn : Colour} {g₀ : Game}

/-- Mirrored layouts start games that are twins. -/
theorem start_of_mirrors (hstart : start set layout config = .ok g₀)
    (hread : Board.read set config.bounds layout = .ok (board, turn)) (hkinds : board.Standard)
    (hcalm : g₀.kingAttacked g₀.turn.other = false)
    (hmirrors : Board.Mirrors set config.bounds layout layout') :
    ∃ g₀' σ, start set layout' config = .ok g₀' ∧ (mirror config.bounds σ).Twins g₀ g₀' := by
  obtain ⟨board', σ, hread', himage⟩ := Board.read_of_mirrors hmirrors hread
  have hfits : (mirror config.bounds σ).FitsChessmen := fun _ _ hm => Chessman.fits hm
  have h₀ := opening_of_start hstart hread (regular_setUp set config turn hkinds)
  rw [← h₀.kept.inCheck_eq] at hcalm
  obtain ⟨g₀', hstart', htwins⟩ :=
    Symmetry.exists_twin hfits himage hstart hread hread' hkinds hcalm
  exact ⟨g₀', σ, hstart', htwins⟩

end Game

/-- The second game is the mirror image of the first, in what it shows and in what it answers: the
sides and the ends of the ranks are exchanged, and the scores have changed their signs. -/
structure MirrorImage (bounds : Bounds) (g g' : Game) : Prop where
  turn : g'.turn = g.turn.other
  status : g'.status = (mirror bounds 1).status g.status
  pieces : (g.board.pieces.map (mirror bounds 1).piece).Perm g'.board.pieces
  king : ∀ c, g'.king? c.other = (g.king? c).map bounds.flip
  threatens : ∀ c p q,
    g'.view.threatens c.other (bounds.flip p) (bounds.flip q) = g.view.threatens c p q
  update : ∀ a, ∃ r h h', g.update a = .ok (r, h) ∧
    g'.update ((mirror bounds 1).action a) = .ok ((mirror bounds 1).result r, h')
  undo : ∀ n save, ∃ answer h h', g.undo n save = .ok (answer, h) ∧
    g'.undo n save = .ok ((mirror bounds 1).status answer, h')
  redo : ∀ n, ∃ answer h h', g.redo n = .ok (answer, h) ∧
    g'.redo n = .ok ((mirror bounds 1).status answer, h')
  legalActions : ∃ actions actions', g.legalActions = .ok (actions, g) ∧
    g'.legalActions = .ok (actions', g') ∧
      (actions.map (mirror bounds 1).action).Perm actions'
  evaluate : g'.evaluate = -g.evaluate
  plainScore : ∀ depth maximising, ∃ v, g.plainScore depth maximising = .ok v ∧
    g'.plainScore depth (!maximising) = .ok (-v)

/-- Games that are in step in the mirror are mirror images. -/
theorem Symmetry.InStep.mirrorImage {bounds : Bounds} {σ : Equiv.Perm PieceId}
    {g₀ g₀' g g' : Game} (h₀ : (mirror bounds σ).Twins g₀ g₀')
    (h : (mirror bounds σ).InStep g₀ g₀' g g') : MirrorImage bounds g g' where
  turn := (h.position h₀).turn
  status := (h.status h₀ :)
  pieces := (h.position h₀).pieces_perm (h.kept h₀) (h.kept' h₀)
  king := (h.position h₀).king?_eq
  threatens c p q := (h.position h₀).board.records_eq
    (fun _ => ((h.position h₀).threats c).mem_threatsAt_iff) p
  update a := by
    obtain ⟨r, k, k', hg, hg', -⟩ := h.update h₀ a
    exact ⟨r, k, k', hg, hg'⟩
  undo n save := by
    obtain ⟨answer, k, k', hg, hg', -⟩ := h.undo h₀ n save
    exact ⟨answer, k, k', hg, hg'⟩
  redo n := by
    obtain ⟨answer, k, k', hg, hg', -⟩ := h.redo h₀ n
    exact ⟨answer, k, k', hg, hg'⟩
  legalActions := (h.legalActions h₀ :)
  evaluate := h.evaluate_neg h₀
  plainScore := h.plainScore_neg h₀

namespace Game

variable {set : PieceSet} {config : GameConfig} {layout : List Char} {board : Board} {turn : Colour}
  {g₀ : Game}

/-- Play of chessmen is the same in the mirror. A layout in which the side not to move is out of
check has mirrored layouts, all of which are accepted. Mirrored actions on the mirrored game, undone
and redone alike, lead to mirror images at any time. -/
theorem mirror_of_run (hstart : start set layout config = .ok g₀)
    (hread : Board.read set config.bounds layout = .ok (board, turn)) (hkinds : board.Standard)
    (hcalm : g₀.kingAttacked g₀.turn.other = false) :
    (∃ layout', Board.Mirrors set config.bounds layout layout') ∧
      ∀ layout', Board.Mirrors set config.bounds layout layout' →
        ∃ g₀', start set layout' config = .ok g₀' ∧
          ∀ ops : List Operation, (∀ o ∈ ops, o.lookahead = none) →
            ∃ g g', g₀.run ops = .ok g ∧
              g₀'.run (ops.map (mirror config.bounds 1).operation) = .ok g' ∧
                MirrorImage config.bounds g g' := by
  refine ⟨Board.exists_mirrors hread, fun layout' hmirrors => ?_⟩
  obtain ⟨g₀', σ, hstart', h₀⟩ := start_of_mirrors hstart hread hkinds hcalm hmirrors
  refine ⟨g₀', hstart', fun ops hops => ?_⟩
  obtain ⟨g, g', hrun, hrun', hstep⟩ := h₀.inStep.run h₀ hops
  exact ⟨g, g', hrun, hrun', hstep.mirrorImage h₀⟩

/-- A rook gives check from the last rank and, in the mirror, from the first. -/
theorem mirror_of_run_small : ∃ g₀ g₀' g g',
    start .orthodox "w wKa1 wRb1 bKc3".toList smallConfig = .ok g₀ ∧
      start .orthodox "b bKa3 bRb3 wKc1".toList smallConfig = .ok g₀' ∧
      g₀.run [.update ⟨.white, .ofCoords 1 0, .ofCoords 1 2⟩, .undo 1 true, .redo 1] = .ok g ∧
      g₀'.run [.update ⟨.black, .ofCoords 1 2, .ofCoords 1 0⟩, .undo 1 true, .redo 1] = .ok g' ∧
      g.status = .check .black ∧ MirrorImage smallConfig.bounds g g' := by
  obtain ⟨g₀, g, board, turn, hstart, hread, hkinds, hcalm, hrun, hcheck⟩ :=
    exists_calm_run "w wKa1 wRb1 bKc3".toList smallConfig
      [.update ⟨.white, .ofCoords 1 0, .ofCoords 1 2⟩, .undo 1 true, .redo 1]
      (fun g => g.status = .check .black) (by decide +kernel)
  have hmirrors : Board.Mirrors .orthodox smallConfig.bounds "w wKa1 wRb1 bKc3".toList
      "b bKa3 bRb3 wKc1".toList :=
    ⟨.white,
      [⟨.white, .standard .king, .ofCoords 0 0, true⟩,
        ⟨.white, .standard .rook, .ofCoords 1 0, true⟩,
        ⟨.black, .standard .king, .ofCoords 2 2, true⟩],
      [⟨.black, .standard .king, .ofCoords 0 2, true⟩,
        ⟨.black, .standard .rook, .ofCoords 1 2, true⟩,
        ⟨.white, .standard .king, .ofCoords 2 0, true⟩],
      ⟨_, rfl, rfl⟩, ⟨_, rfl, rfl⟩, by decide⟩
  obtain ⟨-, hmirror⟩ := mirror_of_run hstart hread hkinds hcalm
  obtain ⟨g₀', hstart', himages⟩ := hmirror _ hmirrors
  obtain ⟨g₁, g', hrun₁, hrun', himage⟩ := himages
    [.update ⟨.white, .ofCoords 1 0, .ofCoords 1 2⟩, .undo 1 true, .redo 1] (by decide)
  obtain rfl := Except.ok.inj (hrun.symm.trans hrun₁)
  exact ⟨g₀, g₀', g, g', hstart, hstart', hrun, hrun', of_decide_eq_true hcheck, himage⟩

end Game

end VariantChess
