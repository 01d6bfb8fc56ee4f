import VariantChess.Proofs.Progress
import VariantChess.Proofs.ScoreRange
import VariantChess.Proofs.SearchLog
import VariantChess.Proofs.Window

/-!
# The plain search

The plain search looks at every legal action: it scores each game that an action leads to, one ply
less deep and for the other side, and takes the greatest or the least of the scores. It knows no
window, and it does not take anything back, since every action starts from the same game. Games of
chessmen never fault, so the plain search has a score for each of them, at any depth. That score is
the static score of some game that play can lead to, which bounds it; and it does not depend on what
can be redone.
-/

namespace VariantChess

/-- The best of some scores for the side that chooses. -/
def Score.best? (maximising : Bool) (values : List Score) : Option Score :=
  if maximising then values.max? else values.min?

namespace Game

/-- The score of the game that an action leads to. -/
def scoreAfter (score : Game → Except Fault Score) (g : Game) (a : Action) :
    Except Fault Score := do
  let (_, h) ← g.update a
  score h

/-- The score of a position searched to a depth without leaving out any action. -/
def plainScore : Nat → Bool → Game → Except Fault Score
  | 0, _, g => .ok g.evaluate
  | depth + 1, maximising, g =>
    if g.status.isTerminal then .ok g.evaluate
    else do
      let (actions, g) ← g.legalActions
      let values ← actions.mapM (scoreAfter (plainScore depth !maximising) g)
      return (Score.best? maximising values).getD g.evaluate

end Game

section Lists

variable {ε α β τ : Type}

/-- Computing a value for every entry of a list gives the values of the entries, in order. -/
theorem mapM_map_eq_ok {f : α → Except ε β} {l : List τ} {entry : τ → α} {value : τ → β}
    (h : ∀ t ∈ l, f (entry t) = .ok (value t)) : (l.map entry).mapM f = .ok (l.map value) := by
  induction l with
  | nil => rfl
  | cons t rest ih =>
    rw [List.forall_mem_cons] at h
    rw [List.map_cons, List.map_cons, List.mapM_cons, h.1, ih h.2]
    rfl

/-- Entries that each have a value can be listed with their values. -/
theorem exists_pairs {R : α → β → Prop} {l : List α} (h : ∀ a ∈ l, ∃ b, R a b) :
    ∃ pairs : List (α × β), pairs.map (·.1) = l ∧ ∀ p ∈ pairs, R p.1 p.2 := by
  induction l with
  | nil => exact ⟨[], rfl, by simp⟩
  | cons a rest ih =>
    rw [List.forall_mem_cons] at h
    obtain ⟨b, hb⟩ := h.1
    obtain ⟨pairs, hpairs, hall⟩ := ih h.2
    exact ⟨(a, b) :: pairs, by rw [List.map_cons, hpairs], List.forall_mem_cons.2 ⟨hb, hall⟩⟩

end Lists

namespace Score

theorem best?_nil (m : Bool) : best? m [] = none := by
  cases m <;> rfl

/-- The best of some scores is found by improving on the first one. -/
theorem best?_cons (m : Bool) (v : Score) (values : List Score) :
    best? m (v :: values) = some (values.foldl (Search.better m) v) := by
  cases m <;> rfl

/-- The best of some scores is one of them. -/
theorem mem_of_best? {maximising : Bool} {values : List Score} {v : Score}
    (h : best? maximising values = some v) : v ∈ values := by
  rw [best?] at h
  cases maximising with
  | true => exact List.max?_mem h
  | false => exact List.min?_mem h

end Score

namespace Game

variable {g₀ g h : Game} {a : Action} {status : Status} {actions : List Action} {depth : Nat}
  {maximising : Bool}

/-- The plain search of a position takes the best of the scores that its actions lead to. -/
theorem plainScore_succ {τ : Type} {l : List τ} {action : τ → Action} {value : τ → Score}
    (hlisted : g.legalActions = .ok (l.map action, g))
    (hscored : ∀ t ∈ l, scoreAfter (plainScore depth !maximising) g (action t) = .ok (value t)) :
    plainScore (depth + 1) maximising g =
      .ok ((Score.best? maximising (l.map value)).getD g.evaluate) := by
  rw [plainScore]
  split
  · next hover =>
    rw [legalActions, if_pos hover] at hlisted
    obtain ⟨hnil, -⟩ := Prod.mk.inj (Except.ok.inj hlisted)
    obtain rfl := List.map_eq_nil_iff.1 hnil.symm
    cases maximising <;> rfl
  · exact bind_eq_ok_iff.2 ⟨_, hlisted, bind_eq_ok_iff.2 ⟨_, mapM_map_eq_ok hscored, rfl⟩⟩

/-- The actions of a game on a line can be listed, and each of them is accepted. -/
theorem Reached.exists_listed (h₀ : g₀.Opening) (hg₀ : g₀.Standard) (hg : Reached g₀ g) :
    ∃ actions, g.legalActions = .ok (actions, g) ∧
      ∀ a ∈ actions, ∃ status h, g.update a = .ok (.ok status, h) ∧ Reached g₀ h := by
  have hP := unfailing_reached h₀ hg₀
  obtain ⟨⟨actions, g'⟩, hlisted⟩ := hP.exists_legalActions hg
  obtain ⟨rfl, -⟩ := (hg.kept h₀).legalActions_eq_ok hlisted
  refine ⟨actions, hlisted, fun a ha => ?_⟩
  obtain ⟨⟨r, h⟩, hupdate⟩ := hP.exists_update hg a
  obtain ⟨status, rfl⟩ := (hg.kept h₀).accepted_of_legalActions hlisted ha hupdate
  exact ⟨status, h, hupdate, hg.update h₀ hupdate⟩

/-- Each of the actions is accepted and leads to a game on a line that has the listed score. -/
def Scored (g₀ g : Game) (score : Game → Except Fault Score) (scored : List (Action × Score)) :
    Prop :=
  ∀ p ∈ scored, ∃ status h, g.update p.1 = .ok (.ok status, h) ∧ Reached g₀ h ∧ score h = .ok p.2

/-- A listed score is the one that its action leads to. -/
theorem Scored.scoreAfter_eq {score : Game → Except Fault Score} {scored : List (Action × Score)}
    (h : Scored g₀ g score scored) {p : Action × Score} (hp : p ∈ scored) :
    scoreAfter score g p.1 = .ok p.2 := by
  obtain ⟨status, k, hupdate, -, hscore⟩ := h p hp
  exact bind_eq_ok_iff.2 ⟨_, hupdate, hscore⟩

/-- The actions of a game can be listed with their scores when the games that they lead to have
scores. -/
theorem Reached.exists_scored (h₀ : g₀.Opening) (hg₀ : g₀.Standard) (hg : Reached g₀ g)
    (score : Game → Except Fault Score) (hscore : ∀ h, Reached g₀ h → ∃ v, score h = .ok v) :
    ∃ scored, g.legalActions = .ok (scored.map (·.1), g) ∧ Scored g₀ g score scored := by
  obtain ⟨actions, hlisted, haccepted⟩ := hg.exists_listed h₀ hg₀
  obtain ⟨scored, rfl, hscored⟩ := exists_pairs (l := actions)
    (R := fun a v => ∃ status h, g.update a = .ok (.ok status, h) ∧ Reached g₀ h ∧
      score h = .ok v) fun a ha => by
    obtain ⟨status, h, hupdate, hh⟩ := haccepted a ha
    obtain ⟨v, hv⟩ := hscore h hh
    exact ⟨v, status, h, hupdate, hh, hv⟩
  exact ⟨scored, hlisted, hscored⟩

/-- A game of chessmen has a plain score at any depth, and it is the static score of a game that
play leads to. -/
theorem Reached.exists_plainScore (h₀ : g₀.Opening) (hg₀ : g₀.Standard) (hg : Reached g₀ g)
    (depth : Nat) (maximising : Bool) :
    ∃ h, plainScore depth maximising g = .ok h.evaluate ∧ Reached g₀ h := by
  induction depth generalizing maximising g with
  | zero => exact ⟨g, rfl, hg⟩
  | succ depth ih =>
    obtain ⟨scored, hlisted, hscored⟩ := hg.exists_scored h₀ hg₀
      (plainScore depth !maximising) fun h hh => by
      obtain ⟨k, hk, -⟩ := ih hh !maximising
      exact ⟨_, hk⟩
    rw [plainScore_succ hlisted fun p hp => hscored.scoreAfter_eq hp]
    cases hbest : Score.best? maximising (scored.map (·.2)) with
    | none => exact ⟨g, rfl, hg⟩
    | some v =>
      -- the best of the scores is one of them, so it comes from a leaf below one of the actions
      obtain ⟨p, hp, rfl⟩ := List.mem_map.1 (Score.mem_of_best? hbest)
      obtain ⟨status, h, -, hh, hv⟩ := hscored p hp
      obtain ⟨k, hk, hreached⟩ := ih hh !maximising
      obtain hpk := Except.ok.inj (hv.symm.trans hk)
      exact ⟨k, by rw [Option.getD_some, hpk], hreached⟩

/-- The actions of a game of chessmen can be listed with the plain scores that they lead to. -/
theorem Reached.exists_plainScored (h₀ : g₀.Opening) (hg₀ : g₀.Standard) (hg : Reached g₀ g)
    (depth : Nat) (maximising : Bool) : ∃ scored, g.legalActions = .ok (scored.map (·.1), g) ∧
      Scored g₀ g (plainScore depth maximising) scored := by
  apply hg.exists_scored h₀ hg₀
  intro h hh
  obtain ⟨k, hk, -⟩ := hh.exists_plainScore h₀ hg₀ depth maximising
  exact ⟨_, hk⟩

/-- The plain score of a game of chessmen lies between the sentinels of a search. -/
theorem Reached.plainScore_inRange (h₀ : g₀.Opening) (hg₀ : g₀.Standard) (hg : Reached g₀ g)
    {v : Score} (hv : plainScore depth maximising g = .ok v) : v.InRange := by
  obtain ⟨h, hscore, hh⟩ := hg.exists_plainScore h₀ hg₀ depth maximising
  obtain rfl := Except.ok.inj (hscore.symm.trans hv)
  exact (hh.kept h₀).evaluate_inRange (hh.standard h₀ hg₀).kinds

/-- What a search leaves of a game has the same actions. -/
theorem Leaves.legalActions_eq_ok (h₀ : g₀.Opening) (hg₀ : g₀.Standard) (hg : Reached g₀ g)
    (hgh : g.Leaves h) (hlisted : g.legalActions = .ok (actions, g)) :
    h.legalActions = .ok (actions, h) := by
  have hh := hgh.reached hg
  obtain ⟨actions', hlisted', -⟩ := hh.exists_listed h₀ hg₀
  have hstatus : h.status = g.status := by rcases hgh with rfl | rfl <;> rfl
  rw [hlisted', ((hh.kept h₀).legalActions_eq_ok hlisted').2,
    ((hg.kept h₀).legalActions_eq_ok hlisted).2, hgh.samePosition.legal_eq, hgh.samePosition.turn,
    hstatus]

/-- What a search leaves of a game has the same plain scores. -/
theorem Leaves.plainScore_eq (h₀ : g₀.Opening) (hg₀ : g₀.Standard) (hg : Reached g₀ g)
    (hgh : g.Leaves h) (depth : Nat) (maximising : Bool) :
    plainScore depth maximising h = plainScore depth maximising g := by
  have hevaluate : h.evaluate = g.evaluate := by rcases hgh with rfl | rfl <;> rfl
  cases depth with
  | zero => rw [plainScore, plainScore, hevaluate]
  | succ depth =>
    obtain ⟨scored, hlisted, hscored⟩ := hg.exists_plainScored h₀ hg₀ depth !maximising
    have hleft : Scored g₀ h (plainScore depth !maximising) scored := by
      intro p hp
      obtain ⟨status, k, hupdate, hk, hv⟩ := hscored p hp
      exact ⟨status, k, hgh.update_eq_ok hupdate, hk, hv⟩
    rw [plainScore_succ hlisted fun p hp => hscored.scoreAfter_eq hp,
      plainScore_succ (hgh.legalActions_eq_ok h₀ hg₀ hg hlisted) fun p hp =>
        hleft.scoreAfter_eq hp, hevaluate]

end Game

end VariantChess
