import VariantChess.Proofs.Walk

/-!
# The reach of a movement, point by point

A movement is evaluated quadrant by quadrant, with conditions judged up front where they can be, with
slides that end early and with repeats dropped. None of this is part of what a rule means. A rule
means that some template point, reflected into some quadrant, falls on the point; that a slide is
open up to there; that the point may be reached as it is occupied; and that all conditions hold with
the point as the destination. The candidates are exactly these points, each listed once, in the order
in which the walk meets them first.
-/

namespace VariantChess

/-- The values of a list that pass a test are kept in the order of their first occurrences. -/
theorem pairwise_idxOf_eraseDups_filter {α : Type} [BEq α] [LawfulBEq α] (l : List α)
    (f : α → Bool) : (l.filter f).eraseDups.Pairwise fun a b => l.idxOf a < l.idxOf b := by
  -- the values equal to the head are filtered from the rest, so the test is not fixed
  induction l generalizing f with
  | nil => exact .nil
  | cons a rest ih =>
    have hbehind : ∀ g : α → Bool, g a = false →
        (rest.filter g).eraseDups.Pairwise fun b c => (a :: rest).idxOf b < (a :: rest).idxOf c := by
      intro g hg
      have hne : ∀ b ∈ (rest.filter g).eraseDups, a ≠ b := by
        intro b hb hab
        have hgb : g b := (List.mem_filter.1 (List.mem_eraseDups.1 hb)).2
        rw [← hab, hg] at hgb
        cases hgb
      refine (ih g).imp_of_mem fun {b c} hb hc hlt => ?_
      rw [List.idxOf_cons_ne rest (hne b hb), List.idxOf_cons_ne rest (hne c hc)]
      exact Nat.succ_lt_succ hlt
    cases hfa : f a with
    | false =>
      rw [List.filter_cons_of_neg (by simp [hfa])]
      exact hbehind f hfa
    | true =>
      rw [List.filter_cons_of_pos hfa, List.eraseDups_cons, List.filter_filter]
      refine List.pairwise_cons.2 ⟨fun b hb => ?_, hbehind _ (by simp)⟩
      have hne : b ≠ a := by
        have hkept := (List.mem_filter.1 (List.mem_eraseDups.1 hb)).2
        simpa using (Bool.and_eq_true_iff.1 hkept).1
      rw [List.idxOf_cons_self, List.idxOf_cons_ne rest hne.symm]
      exact Nat.succ_pos _

namespace Movement

/-- A template point, reflected into a quadrant, is a point of the board. -/
def Reflects (m : Movement) (s : Situation) (q : Int × Int) (k : Nat) (p : Point) : Prop :=
  ∃ step, m.template.points[k]? = some step ∧
    (p.x.val : Int) = s.origin.x.val + q.1 * step.x.val ∧
    (p.y.val : Int) = s.origin.y.val + q.2 * step.y.val ∧ s.board.bounds.contains p

/-- What a slide may go on past: an empty point, or the opposing king if threats are asked for. -/
def Passable (s : Situation) (mode : Mode) (p : Point) : Prop :=
  s.board.pieceAt? p = none ∨ mode = .threats ∧ ∃ king, s.board.pieceAt? p = some king ∧
    king.colour ≠ s.colour ∧ king.isKing

/-- What a movement may end on: an empty point if the movement goes there in this mode, a hostile
piece, or any piece if threats are asked for. -/
def EndsOn (m : Movement) (s : Situation) (mode : Mode) (p : Point) : Prop :=
  s.board.pieceAt? p = none ∧ (mode = .moves ∧ m.isMove ∨ mode = .threats ∧ m.isAttack) ∨
    ∃ piece, s.board.pieceAt? p = some piece ∧ m.isAttack ∧
      (piece.colour ≠ s.colour ∨ mode = .threats)

/-- What it means that a rule admits a point, by one template point of one quadrant. -/
structure Admits (m : Movement) (s : Situation) (mode : Mode) (q : Int × Int) (k : Nat)
    (p : Point) : Prop where
  reflects : m.Reflects s q k p
  unblocked : m.stride = .slide → ∀ j < k, ∃ r, m.Reflects s q j r ∧ Passable s mode r
  endsOn : m.EndsOn s mode p
  holds : ∀ c ∈ m.conditions, c.holds (s.heading p)

variable {m : Movement} {s : Situation} {mode : Mode} {q : Int × Int} {k : Nat} {p : Point}

theorem reflects_iff : m.Reflects s q k p ↔
    ∃ step, m.template.points[k]? = some step ∧ landing? s q step = some p := by
  refine exists_congr fun step => and_congr_right fun _ => ?_
  rw [landing?, Bounds.locate?, Option.filter_eq_some_iff, Point.locate?_eq_some_iff]
  constructor
  · rintro ⟨hx, hy, hin⟩
    exact ⟨⟨hx.symm, hy.symm⟩, hin⟩
  · rintro ⟨⟨hx, hy⟩, hin⟩
    exact ⟨hx.symm, hy.symm, hin⟩

theorem passes_iff : passes s mode (s.board.pieceAt? p) ↔ Passable s mode p := by
  rw [Passable]
  cases s.board.pieceAt? p with
  | none => simp [passes]
  | some piece => simp [passes, and_assoc]

theorem reaches_iff : m.reaches s mode (s.board.pieceAt? p) ↔ m.EndsOn s mode p := by
  rw [EndsOn]
  cases s.board.pieceAt? p with
  | none => cases mode <;> simp [reaches]
  | some piece => cases mode <;> simp [reaches]

/-- When threats are asked for, only an attack ends on a point. -/
theorem EndsOn.isAttack (h : m.EndsOn s .threats p) : m.isAttack := by
  rcases h with ⟨-, ⟨hmode, -⟩ | ⟨-, ha⟩⟩ | ⟨-, -, ha, -⟩
  · cases hmode
  · exact ha
  · exact ha

/-- The walk of an arm reaches the points of its template that are not blocked. -/
theorem mem_arm_iff : p ∈ m.arm s mode q m.template.points ↔
    ∃ k, m.Reflects s q k p ∧ m.EndsOn s mode p ∧
      (m.stride = .slide → ∀ j < k, ∃ r, m.Reflects s q j r ∧ Passable s mode r) := by
  rw [mem_arm]
  constructor
  · rintro ⟨k, step, hk, hland, hreach, hpass⟩
    refine ⟨k, reflects_iff.2 ⟨step, hk, hland⟩, reaches_iff.1 hreach, fun hs j hj => ?_⟩
    have hlt : j < m.template.points.length :=
      Nat.lt_trans hj (List.getElem?_eq_some_iff.1 hk).1
    obtain ⟨r, hr, hpassable⟩ := hpass hs j hj _ (List.getElem?_eq_getElem hlt)
    exact ⟨r, reflects_iff.2 ⟨_, List.getElem?_eq_getElem hlt, hr⟩, passes_iff.1 hpassable⟩
  · rintro ⟨k, hreflects, hends, hpassable⟩
    obtain ⟨step, hk, hland⟩ := reflects_iff.1 hreflects
    refine ⟨k, step, hk, hland, reaches_iff.2 hends, fun hs j hj step' hj' => ?_⟩
    obtain ⟨r, hr, hpass⟩ := hpassable hs j hj
    obtain ⟨_, hj'', hr'⟩ := reflects_iff.1 hr
    obtain rfl := Option.some.inj (hj'.symm.trans hj'')
    exact ⟨r, hr', passes_iff.2 hpass⟩

/-- The candidates are kept from the walk by some test, and repeats are dropped. -/
theorem exists_candidates_eq (m : Movement) (s : Situation) (mode : Mode) :
    ∃ f, m.candidates s mode = ((m.walk s mode).filter f).eraseDups := by
  have hnone : ((m.walk s mode).filter fun _ => false).eraseDups = [] := by
    rw [List.filter_false]
    rfl
  rw [candidates]
  split
  · exact ⟨_, hnone.symm⟩
  · dsimp only
    split
    · exact ⟨_, rfl⟩
    · exact ⟨_, hnone.symm⟩

/-- The candidates are the points that the rule admits; judging some conditions up front and ending
slides early makes no difference. -/
theorem mem_candidates_iff_admits : p ∈ m.candidates s mode ↔
    ∃ q ∈ m.quadrants s.colour, ∃ k, m.Admits s mode q k p := by
  rw [mem_candidates, mem_walk]
  constructor
  · rintro ⟨-, ⟨q, hq, harm⟩, hholds⟩
    obtain ⟨k, hreflects, hends, hpassable⟩ := mem_arm_iff.1 harm
    exact ⟨q, hq, k, hreflects, hpassable, hends, hholds⟩
  · rintro ⟨q, hq, k, hadmits⟩
    refine ⟨?_, ⟨q, hq, mem_arm_iff.2 ⟨k, hadmits.reflects, hadmits.endsOn, hadmits.unblocked⟩⟩,
      hadmits.holds⟩
    rintro rfl
    exact hadmits.endsOn.isAttack

/-- The candidates of a movement are exactly the points that the rule admits, without repeats and in
the order of their first occurrences in the walk. -/
theorem candidates_exact (m : Movement) (s : Situation) (mode : Mode) :
    (∀ p, p ∈ m.candidates s mode ↔ ∃ q ∈ m.quadrants s.colour, ∃ k, m.Admits s mode q k p) ∧
      (m.candidates s mode).Nodup ∧
      (m.candidates s mode).Pairwise fun p r =>
        (m.walk s mode).idxOf p < (m.walk s mode).idxOf r := by
  obtain ⟨f, hf⟩ := exists_candidates_eq m s mode
  refine ⟨fun p => mem_candidates_iff_admits, ?_, ?_⟩
  · rw [hf]
    exact nodup_eraseDups _
  · rw [hf]
    exact pairwise_idxOf_eraseDups_filter _ f

end Movement

end VariantChess
