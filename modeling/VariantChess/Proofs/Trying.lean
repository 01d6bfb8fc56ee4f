import VariantChess.Game.Verdict
import VariantChess.Proofs.BoardChange

/-!
# Looking at plies by trying them

Legal plies, the lists and maps made of them and the verdict on a position are found by planning a
ply, playing it and taking it back. So a relation between games that holds between a game and what
is left of it when a planned ply is tried holds between a game and what is left of it when any of
these has been found, whatever the pieces and whether or not the threat maps are up to date.
-/

namespace VariantChess

namespace Game

variable {g h : Game} {id : PieceId}

/-- A relation between games that holds between a game and what trying a planned ply leaves of
it. -/
structure Tries (R : Game → Game → Prop) : Prop where
  refl : ∀ g, R g g
  trans : ∀ {g h k}, R g h → R h k → R g k
  isLegal : ∀ {g h id target ply safe}, g.plan? id target = some ply →
    g.isLegal ply = .ok (safe, h) → R g h

namespace Tries

variable {R : Game → Game → Prop} (hR : Tries R)
include hR

theorem legalPliesTo {firstOnly : Bool} {targets : List Point} {plies : List Ply}
    (h' : Game.legalPliesTo id firstOnly targets g = .ok (plies, h)) : R g h := by
  induction targets generalizing g h plies with
  | nil =>
    obtain ⟨rfl, rfl⟩ := Prod.mk.inj (Except.ok.inj h')
    exact hR.refl g
  | cons target rest ih =>
    rw [Game.legalPliesTo] at h'
    cases hplan : g.plan? id target with
    | none =>
      rw [hplan] at h'
      exact ih h'
    | some ply =>
      rw [hplan] at h'
      obtain ⟨⟨safe, g₁⟩, htry, hrest⟩ := bind_eq_ok_iff.1 h'
      have hg₁ : R g g₁ := hR.isLegal hplan htry
      cases safe with
      | false => exact hR.trans hg₁ (ih hrest)
      | true =>
        cases firstOnly with
        | true =>
          obtain ⟨rfl, rfl⟩ := Prod.mk.inj (Except.ok.inj hrest)
          exact hg₁
        | false =>
          obtain ⟨⟨others, g₂⟩, hothers, hanswer⟩ := bind_eq_ok_iff.1 hrest
          obtain ⟨rfl, rfl⟩ := Prod.mk.inj (Except.ok.inj hanswer)
          exact hR.trans hg₁ (ih hothers)

theorem legalPliesOfAll {ids : List PieceId} {plies : List Ply}
    (h' : Game.legalPliesOfAll ids g = .ok (plies, h)) : R g h := by
  induction ids generalizing g h plies with
  | nil =>
    obtain ⟨rfl, rfl⟩ := Prod.mk.inj (Except.ok.inj h')
    exact hR.refl g
  | cons id rest ih =>
    obtain ⟨⟨first, g₁⟩, hfirst, hrest⟩ := bind_eq_ok_iff.1 h'
    obtain ⟨⟨others, g₂⟩, hothers, hanswer⟩ := bind_eq_ok_iff.1 hrest
    obtain ⟨rfl, rfl⟩ := Prod.mk.inj (Except.ok.inj hanswer)
    exact hR.trans (hR.legalPliesTo hfirst) (ih hothers)

theorem legalActions {actions : List Action} (h' : g.legalActions = .ok (actions, h)) : R g h := by
  rw [Game.legalActions] at h'
  split at h'
  · obtain ⟨rfl, rfl⟩ := Prod.mk.inj (Except.ok.inj h')
    exact hR.refl g
  · obtain ⟨⟨plies, g₁⟩, hplies, hanswer⟩ := bind_eq_ok_iff.1 h'
    obtain ⟨rfl, rfl⟩ := Prod.mk.inj (Except.ok.inj hanswer)
    exact hR.legalPliesOfAll hplies

theorem moveMap {c : Colour} {moves : MoveMap} (h' : g.moveMap c = .ok (moves, h)) : R g h := by
  obtain ⟨⟨plies, g₁⟩, hplies, hanswer⟩ := bind_eq_ok_iff.1 h'
  obtain ⟨rfl, rfl⟩ := Prod.mk.inj (Except.ok.inj hanswer)
  exact hR.legalPliesOfAll hplies

theorem anyLegal {ids : List PieceId} {answer : Bool}
    (h' : Game.anyLegal ids g = .ok (answer, h)) : R g h := by
  induction ids generalizing g h with
  | nil =>
    obtain ⟨rfl, rfl⟩ := Prod.mk.inj (Except.ok.inj h')
    exact hR.refl g
  | cons id rest ih =>
    obtain ⟨⟨plies, g₁⟩, hfirst, hrest⟩ := bind_eq_ok_iff.1 h'
    have hg₁ : R g g₁ := hR.legalPliesTo hfirst
    dsimp only at hrest
    split at hrest
    · exact hR.trans hg₁ (ih hrest)
    · obtain ⟨rfl, rfl⟩ := Prod.mk.inj (Except.ok.inj hrest)
      exact hg₁

theorem anyAnswers {targets : List Point} {attacker : PieceId} {ids : List PieceId}
    {answer : Bool} (h' : Game.anyAnswers targets attacker ids g = .ok (answer, h)) : R g h := by
  induction ids generalizing g h with
  | nil =>
    obtain ⟨rfl, rfl⟩ := Prod.mk.inj (Except.ok.inj h')
    exact hR.refl g
  | cons id rest ih =>
    obtain ⟨⟨plies, g₁⟩, hfirst, hrest⟩ := bind_eq_ok_iff.1 h'
    have hg₁ : R g g₁ := hR.legalPliesTo hfirst
    dsimp only at hrest
    split at hrest
    · obtain ⟨rfl, rfl⟩ := Prod.mk.inj (Except.ok.inj hrest)
      exact hg₁
    · exact hR.trans hg₁ (ih hrest)

theorem isMate {defender : Colour} {answer : Bool}
    (h' : g.isMate defender = .ok (answer, h)) : R g h := by
  rw [Game.isMate] at h'
  split at h'
  · obtain ⟨rfl, rfl⟩ := Prod.mk.inj (Except.ok.inj h')
    exact hR.refl g
  · obtain ⟨⟨escapes, g₁⟩, hescapes, hrest⟩ := bind_eq_ok_iff.1 h'
    have hg₁ : R g g₁ := hR.legalPliesTo hescapes
    dsimp only at hrest
    -- the search for answers is reached in one of the cases only
    split at hrest
    · obtain ⟨rfl, rfl⟩ := Prod.mk.inj (Except.ok.inj hrest)
      exact hg₁
    · split at hrest
      · obtain ⟨rfl, rfl⟩ := Prod.mk.inj (Except.ok.inj hrest)
        exact hg₁
      · split at hrest
        · split at hrest
          · obtain ⟨rfl, rfl⟩ := Prod.mk.inj (Except.ok.inj hrest)
            exact hg₁
          · obtain ⟨⟨answered, g₂⟩, hanswered, hanswer⟩ := bind_eq_ok_iff.1 hrest
            obtain ⟨rfl, rfl⟩ := Prod.mk.inj (Except.ok.inj hanswer)
            exact hR.trans hg₁ (hR.anyAnswers hanswered)
        · obtain ⟨rfl, rfl⟩ := Prod.mk.inj (Except.ok.inj hrest)
          exact hg₁

/-- The verdict is found by trying plies only. -/
theorem verdict {mover : Colour} {status : Status}
    (h' : g.verdict mover = .ok (status, h)) : R g h := by
  rw [Game.verdict] at h'
  split at h'
  · obtain ⟨rfl, rfl⟩ := Prod.mk.inj (Except.ok.inj h')
    exact hR.refl g
  · split at h'
    · obtain ⟨⟨mate, g₁⟩, hmate, hanswer⟩ := bind_eq_ok_iff.1 h'
      obtain ⟨rfl, rfl⟩ := Prod.mk.inj (Except.ok.inj hanswer)
      exact hR.isMate hmate
    · obtain ⟨⟨free, g₁⟩, hfree, hanswer⟩ := bind_eq_ok_iff.1 h'
      obtain ⟨rfl, rfl⟩ := Prod.mk.inj (Except.ok.inj hanswer)
      exact hR.anyLegal hfree

end Tries

end Game

end VariantChess
