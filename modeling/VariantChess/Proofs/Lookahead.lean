import VariantChess.Perft
import VariantChess.Search
import VariantChess.Proofs.BoardChange

/-!
# Commits that nest

A search commits an action, looks at the position that it leads to and takes it back before it turns
to the next one, and a count does the same. Take a relation between games that holds between a game
and what is left of it when its actions are listed, when an action is rejected, and when an action is
accepted and taken back again, whatever the relation allows in between. It holds then between a game
and what a search or a count of any depth leaves of it, by induction on the depth and, at each depth,
along the list of actions.
-/

namespace VariantChess

/-- A relation between games in which commits and take-backs nest. -/
structure Nesting (R : Game → Game → Prop) : Prop where
  refl : ∀ g, R g g
  trans : ∀ {g h k}, R g h → R h k → R g k
  legalActions : ∀ {g h actions}, g.legalActions = .ok (actions, h) → R g h
  rejected : ∀ {g h a e}, g.update a = .ok (.error e, h) → R g h
  accepted : ∀ {g h k l a status answer}, g.update a = .ok (.ok status, h) → R h k →
    k.undo 1 false = .ok (answer, l) → R g l

namespace Nesting

variable {R : Game → Game → Prop} (hR : Nesting R)

section Search

open Search

/-- Scoring a position leaves a game that is related to the one it was given. -/
def Scores (R : Game → Game → Prop) (scorer : Scorer) : Prop :=
  ∀ {w s value s'}, scorer w s = .ok (value, s') → R s.game s'.game

variable {scorer : Scorer} {s s' : Search} {w : Window}
include hR

theorem tryAction (hscorer : Scores R scorer) {a : Action} {value : Option Score}
    (h : Search.tryAction scorer w a s = .ok (value, s')) : R s.game s'.game := by
  obtain ⟨⟨result, game⟩, hupdate, hrest⟩ := bind_eq_ok_iff.1 h
  cases result with
  | error e =>
    obtain ⟨rfl, rfl⟩ := Prod.mk.inj (Except.ok.inj hrest)
    exact hR.rejected hupdate
  | ok status =>
    obtain ⟨⟨score, s₁⟩, hscore, hrest⟩ := bind_eq_ok_iff.1 hrest
    obtain ⟨⟨answer, game'⟩, hundo, hanswer⟩ := bind_eq_ok_iff.1 hrest
    obtain ⟨rfl, rfl⟩ := Prod.mk.inj (Except.ok.inj hanswer)
    exact hR.accepted hupdate (hscorer hscore) hundo

theorem scoreActions (hscorer : Scores R scorer) {maximising : Bool} {actions : List Action}
    {best value : Score}
    (h : Search.scoreActions scorer maximising actions best w s = .ok (value, s')) :
    R s.game s'.game := by
  induction actions generalizing best w s with
  | nil =>
    obtain ⟨rfl, rfl⟩ := Prod.mk.inj (Except.ok.inj h)
    exact hR.refl _
  | cons a rest ih =>
    obtain ⟨⟨score, s₁⟩, htry, hrest⟩ := bind_eq_ok_iff.1 h
    have hs₁ := hR.tryAction hscorer htry
    cases score with
    | none => exact hR.trans hs₁ (ih hrest)
    | some score =>
      dsimp only at hrest
      split at hrest
      · obtain ⟨rfl, rfl⟩ := Prod.mk.inj (Except.ok.inj hrest)
        exact hs₁
      · exact hR.trans hs₁ (ih hrest)

/-- A search of any depth and in any window commits and takes back, level by level. -/
theorem alphaBeta (depth : Nat) (maximising : Bool) :
    Scores R (Search.alphaBeta depth maximising) := by
  induction depth generalizing maximising with
  | zero =>
    intro w s value s' h
    obtain ⟨rfl, rfl⟩ := Prod.mk.inj (Except.ok.inj h)
    exact hR.refl _
  | succ depth ih =>
    intro w s value s' h
    rw [Search.alphaBeta] at h
    dsimp only at h
    split at h
    · obtain ⟨rfl, rfl⟩ := Prod.mk.inj (Except.ok.inj h)
      exact hR.refl _
    · obtain ⟨⟨actions, game⟩, hactions, hrest⟩ := bind_eq_ok_iff.1 h
      have hgame := hR.legalActions hactions
      dsimp only at hrest
      split at hrest
      · obtain ⟨rfl, rfl⟩ := Prod.mk.inj (Except.ok.inj hrest)
        exact hgame
      · exact hR.trans hgame (hR.scoreActions (ih !maximising) hrest)

theorem chooseAction (hscorer : Scores R scorer) {greater : Bool} {actions : List Action}
    {best choice : Option (Action × Score)}
    (h : Search.chooseAction scorer greater actions best w s = .ok (choice, s')) :
    R s.game s'.game := by
  induction actions generalizing best w s with
  | nil =>
    obtain ⟨rfl, rfl⟩ := Prod.mk.inj (Except.ok.inj h)
    exact hR.refl _
  | cons a rest ih =>
    obtain ⟨⟨score, s₁⟩, htry, hrest⟩ := bind_eq_ok_iff.1 h
    have hs₁ := hR.tryAction hscorer htry
    cases score with
    | none => exact hR.trans hs₁ (ih hrest)
    | some score =>
      dsimp only at hrest
      split at hrest
      · exact hR.trans hs₁ (ih hrest)
      · exact hR.trans hs₁ (ih hrest)

theorem nextBest {depth : Nat} {greater : Bool} {choice : Option (Action × Score)}
    (h : s.nextBest depth greater = .ok (choice, s')) : R s.game s'.game := by
  obtain ⟨⟨actions, game⟩, hactions, hrest⟩ := bind_eq_ok_iff.1 h
  exact hR.trans (hR.legalActions hactions) (hR.chooseAction (hR.alphaBeta _ _) hrest)

theorem deepen {maximising : Bool} {depths : List Nat} {best value : Score}
    (h : Search.deepen maximising depths best s = .ok (value, s')) : R s.game s'.game := by
  induction depths generalizing best s with
  | nil =>
    obtain ⟨rfl, rfl⟩ := Prod.mk.inj (Except.ok.inj h)
    exact hR.refl _
  | cons depth deeper ih =>
    obtain ⟨⟨score, s₁⟩, hscore, hrest⟩ := bind_eq_ok_iff.1 h
    have hs₁ := hR.alphaBeta depth maximising hscore
    dsimp only at hrest
    split at hrest
    · obtain ⟨rfl, rfl⟩ := Prod.mk.inj (Except.ok.inj hrest)
      exact hs₁
    · exact hR.trans hs₁ (ih hrest)

end Search

section Perft

variable {g h : Game} {n : Nat}
include hR

theorem sumOver {count : Game → Except Fault (Nat × Game)} {actions : List Action}
    (hcount : ∀ {g h n}, count g = .ok (n, h) → R g h)
    (hsum : Game.sumOver count actions g = .ok (n, h)) : R g h := by
  induction actions generalizing g n with
  | nil =>
    obtain ⟨rfl, rfl⟩ := Prod.mk.inj (Except.ok.inj hsum)
    exact hR.refl _
  | cons a rest ih =>
    obtain ⟨⟨result, g₁⟩, hupdate, hrest⟩ := bind_eq_ok_iff.1 hsum
    cases result with
    | error e => exact hR.trans (hR.rejected hupdate) (ih hrest)
    | ok status =>
      obtain ⟨⟨below, g₂⟩, hbelow, hrest⟩ := bind_eq_ok_iff.1 hrest
      obtain ⟨⟨answer, g₃⟩, hundo, hrest⟩ := bind_eq_ok_iff.1 hrest
      obtain ⟨⟨others, g₄⟩, hothers, hanswer⟩ := bind_eq_ok_iff.1 hrest
      obtain ⟨rfl, rfl⟩ := Prod.mk.inj (Except.ok.inj hanswer)
      exact hR.trans (hR.accepted hupdate (hcount hbelow) hundo) (ih hothers)

/-- A count of any depth commits and takes back, level by level. -/
theorem perft (depth : Nat) (h' : Game.perft depth g = .ok (n, h)) : R g h := by
  induction depth generalizing g h n with
  | zero =>
    obtain ⟨rfl, rfl⟩ := Prod.mk.inj (Except.ok.inj h')
    exact hR.refl _
  | succ depth ih =>
    obtain ⟨⟨actions, g₁⟩, hactions, hrest⟩ := bind_eq_ok_iff.1 h'
    have hg₁ := hR.legalActions hactions
    dsimp only at hrest
    split at hrest
    · obtain ⟨rfl, rfl⟩ := Prod.mk.inj (Except.ok.inj hrest)
      exact hg₁
    · exact hR.trans hg₁ (hR.sumOver ih hrest)

theorem perftByRoot {depth : Nat} (h' : Game.perftByRoot depth g = .ok (n, h)) : R g h := by
  obtain ⟨⟨actions, g₁⟩, hactions, hrest⟩ := bind_eq_ok_iff.1 h'
  have hg₁ := hR.legalActions hactions
  dsimp only at hrest
  split at hrest
  · obtain ⟨rfl, rfl⟩ := Prod.mk.inj (Except.ok.inj hrest)
    exact hg₁
  · exact hR.trans hg₁ (hR.sumOver (hR.perft _) hrest)

end Perft

end Nesting

end VariantChess
