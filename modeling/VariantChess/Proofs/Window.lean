import Mathlib.Order.Lattice
import Mathlib.Order.MinMax
import VariantChess.Search

/-!
# Scores inside a window

Scores are linearly ordered by their number of centipawns. A pruned search need not find the exact
score of a position; it has to find the right score inside the window that it was given. Two scores
agree inside a window when they are equal once they are clamped to it. Clamping commutes with the
better of two scores, so the best of several scores agrees with the best of others that agree with
them one by one, although the window of each depends on those before. Once the window is closed the
remaining scores do not change the clamped optimum.
-/

namespace VariantChess

namespace Score

instance : LinearOrder Score where
  le_refl a := Int.le_refl a.centipawns
  le_trans _ _ _ hab hbc := Int.le_trans hab hbc
  lt_iff_le_not_ge _ _ := Int.lt_iff_le_and_not_ge
  le_antisymm a b hab hba := by
    cases a
    cases b
    exact congrArg Score.mk (Int.le_antisymm hab hba)
  le_total a b := Int.le_total a.centipawns b.centipawns
  toDecidableLE := inferInstance
  toDecidableLT := inferInstance
  toDecidableEq := inferInstance

end Score

open Search

section Better

@[simp] theorem better_true (a b : Score) : better true a b = max a b := rfl

@[simp] theorem better_false (a b : Score) : better false a b = min a b := rfl

theorem better_self (m : Bool) (a : Score) : better m a a = a := by
  cases m with
  | true => exact max_self a
  | false => exact min_self a

theorem better_comm (m : Bool) (a b : Score) : better m a b = better m b a := by
  cases m with
  | true => exact max_comm a b
  | false => exact min_comm a b

theorem better_assoc (m : Bool) (a b c : Score) :
    better m (better m a b) c = better m a (better m b c) := by
  cases m with
  | true => exact max_assoc a b c
  | false => exact min_assoc a b c

theorem better_eq_or (m : Bool) (a b : Score) : better m a b = a ∨ better m a b = b := by
  cases m with
  | true => exact max_choice a b
  | false => exact min_choice a b

/-- The score at the start of a fold is no better than its result. -/
theorem better_foldl (m : Bool) (a : Score) (values : List Score) :
    better m a (values.foldl (better m) a) = values.foldl (better m) a := by
  induction values generalizing a with
  | nil => exact better_self m a
  | cons value rest ih =>
    rw [List.foldl_cons, ← ih (better m a value), ← better_assoc, ← better_assoc, better_self]

end Better

namespace Window

variable {w : Window} {m : Bool} {a b best value : Score}

/-- The score nearest to the given one that the window holds. -/
def clamp (w : Window) (value : Score) : Score := max w.alpha (min value w.beta)

/-- A window is open when its ends leave room for a score. -/
theorem isClosed_eq_false_iff : w.isClosed = false ↔ w.alpha < w.beta := by
  rw [isClosed, decide_eq_false_iff_not, not_le]

theorem isClosed_iff : w.isClosed = true ↔ w.beta ≤ w.alpha := by
  rw [isClosed, decide_eq_true_eq]

/-- A window is narrowed by two scores as by the better of them. -/
theorem narrow_narrow (w : Window) (m : Bool) (a b : Score) :
    (w.narrow m a).narrow m b = w.narrow m (better m a b) := by
  cases m with
  | true => simp [narrow, max_assoc]
  | false => simp [narrow, min_assoc]

/-- Clamping commutes with the better of two scores. -/
theorem clamp_better (w : Window) (m : Bool) (a b : Score) :
    w.clamp (better m a b) = better m (w.clamp a) (w.clamp b) := by
  cases m with
  | true => rw [better_true, better_true, clamp, clamp, clamp, min_max_distrib_right,
      sup_sup_distrib_left]
  | false => rw [better_false, better_false, clamp, clamp, clamp, inf_inf_distrib_right,
      max_min_distrib_left]

/-- Scores that agree inside a window still do when both are improved by the same scores. -/
theorem clamp_foldl (values : List Score) (h : w.clamp a = w.clamp b) :
    w.clamp (values.foldl (better m) a) = w.clamp (values.foldl (better m) b) := by
  induction values generalizing a b with
  | nil => exact h
  | cons value rest ih =>
    apply ih
    rw [clamp_better, clamp_better, h]

/-- What a narrowed window that is still open makes of a score. -/
theorem clamp_narrow (hopen : (w.narrow m best).isClosed = false) (value : Score) :
    (w.narrow m best).clamp value = w.clamp (better m best value) := by
  rw [isClosed_eq_false_iff] at hopen
  cases m with
  | true =>
    have hbest : best ≤ w.beta := (le_max_right _ _).trans hopen.le
    rw [better_true, clamp, clamp, narrow, if_pos rfl, min_max_distrib_right, min_eq_left hbest,
      max_assoc]
  | false =>
    change max w.alpha (min value (min w.beta best)) = max w.alpha (min (min best value) w.beta)
    rw [min_comm best, min_assoc, min_comm best]

/-- Once one side is sure of a score that the other does not allow, no further score counts. -/
theorem clamp_better_of_closed (hopen : w.isClosed = false)
    (hclosed : (w.narrow m best).isClosed = true) (value : Score) :
    w.clamp (better m best value) = w.clamp best := by
  rw [isClosed_eq_false_iff] at hopen
  rw [isClosed_iff] at hclosed
  cases m with
  | true =>
    have hbest : w.beta ≤ best := (le_max_iff.1 hclosed).resolve_left hopen.not_ge
    have hmore : w.beta ≤ max best value := hbest.trans (le_max_left _ _)
    rw [better_true, clamp, clamp, min_eq_right hbest, min_eq_right hmore]
  | false =>
    have hbest : best ≤ w.alpha := (min_le_iff.1 hclosed).resolve_left hopen.not_ge
    have hless : min best value ≤ w.alpha := (min_le_left _ _).trans hbest
    rw [better_false, clamp, clamp, max_eq_left ((min_le_left _ _).trans hbest),
      max_eq_left ((min_le_left _ _).trans hless)]

/-- The remaining scores do not count when the window is closed. -/
theorem clamp_foldl_of_closed (hopen : w.isClosed = false)
    (hclosed : (w.narrow m best).isClosed = true) (values : List Score) :
    w.clamp (values.foldl (better m) best) = w.clamp best := by
  induction values with
  | nil => rfl
  | cons value rest ih =>
    rw [List.foldl_cons, clamp_foldl rest (clamp_better_of_closed hopen hclosed value), ih]

/-- Scores that agree inside an open window exceed its lower end together. -/
theorem alpha_lt_iff (hopen : w.isClosed = false) (h : w.clamp a = w.clamp b) :
    w.alpha < a ↔ w.alpha < b := by
  rw [isClosed_eq_false_iff] at hopen
  have hclamp : ∀ value, w.alpha < w.clamp value ↔ w.alpha < value := by
    intro value
    rw [clamp, lt_max_iff, lt_min_iff]
    simp [hopen]
  rw [← hclamp, h, hclamp]

/-- Scores that agree inside an open window fall short of its upper end together. -/
theorem lt_beta_iff (hopen : w.isClosed = false) (h : w.clamp a = w.clamp b) :
    a < w.beta ↔ b < w.beta := by
  rw [isClosed_eq_false_iff] at hopen
  have hclamp : ∀ value, w.clamp value < w.beta ↔ value < w.beta := by
    intro value
    rw [clamp, max_lt_iff, min_lt_iff]
    simp [hopen]
  rw [← hclamp, h, hclamp]

/-- A score that agrees with one inside the window is that score. -/
theorem eq_of_clamp_eq (hopen : w.isClosed = false) (h : w.clamp a = w.clamp b)
    (halpha : w.alpha < b) (hbeta : b < w.beta) : a = b := by
  have ha : w.clamp a = a := by
    rw [clamp, min_eq_left ((lt_beta_iff hopen h).2 hbeta).le,
      max_eq_right ((alpha_lt_iff hopen h).2 halpha).le]
  rw [← ha, h, clamp, min_eq_left hbeta.le, max_eq_right halpha.le]

end Window

end VariantChess
