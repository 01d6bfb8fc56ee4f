import VariantChess.Proofs.PlainSearch

/-!
# What a count counts

A count commits an action, counts what follows, takes the action back and goes on with the next one;
at the last ply it takes the number of listed actions instead. In a game of chessmen the number that
it comes to is the number of sequences of that length in which every action is accepted after the
ones before it. Both sides are compared through one list, which holds each of these sequences once:
it is built from the branches of a position, and the count adds up the branches one by one.
-/

namespace VariantChess

namespace Game

/-- Actions that are accepted one after the other lead from a game to another one. -/
inductive Accepts : Game → List Action → Game → Prop
  | nil (g : Game) : Accepts g [] g
  | cons {g h k : Game} {a : Action} {rest : List Action} {status : Status} :
    g.update a = .ok (.ok status, h) → Accepts h rest k → Accepts g (a :: rest) k

/-- A list of all sequences of a length that are accepted action by action, each of them once. -/
structure Continuations (g : Game) (depth : Nat) (lines : List (List Action)) : Prop where
  nodup : lines.Nodup
  mem_iff : ∀ line, line ∈ lines ↔ line.length = depth ∧ ∃ k, g.Accepts line k

/-- The count to a depth comes to a number in the game and in whatever a count leaves of it. -/
def Counts (g : Game) (depth n : Nat) : Prop :=
  ∀ h, g.Leaves h → ∃ k, h.perft depth = .ok (n, k)

/-- Each of some actions is accepted, and the sequences listed with it fit the game that it leads
to. -/
def Branches (g : Game) (fits : Game → List (List Action) → Prop)
    (branches : List (Action × List (List Action))) : Prop :=
  ∀ b ∈ branches, ∃ status h, g.update b.1 = .ok (.ok status, h) ∧ fits h b.2

variable {g₀ g h : Game} {a : Action} {rest : List Action} {depth n : Nat}
  {branches : List (Action × List (List Action))}

theorem Branches.mono {fits fits' : Game → List (List Action) → Prop}
    (hbranch : g.Branches fits branches) (himp : ∀ h lines, fits h lines → fits' h lines) :
    g.Branches fits' branches := by
  intro b hb
  obtain ⟨status, h, hupdate, hfits⟩ := hbranch b hb
  exact ⟨status, h, hupdate, himp h b.2 hfits⟩

theorem accepts_cons_iff : (∃ k, g.Accepts (a :: rest) k) ↔
    ∃ status h, g.update a = .ok (.ok status, h) ∧ ∃ k, h.Accepts rest k := by
  constructor
  · rintro ⟨k, haccepts⟩
    cases haccepts with
    | cons hupdate hrest => exact ⟨_, _, hupdate, k, hrest⟩
  · rintro ⟨status, h, hupdate, k, hrest⟩
    exact ⟨k, .cons hupdate hrest⟩

/-- The one sequence without actions is accepted. -/
theorem continuations_zero (g : Game) : g.Continuations 0 [[]] where
  nodup := List.nodup_singleton _
  mem_iff line := by
    rw [List.mem_singleton]
    constructor
    · rintro rfl
      exact ⟨rfl, g, .nil g⟩
    · rintro ⟨hlength, -⟩
      exact List.length_eq_zero_iff.1 hlength

/-- The sequences with one more action are those that start with an accepted action and go on from
the game that it leads to. -/
theorem continuations_succ (hnodup : (branches.map (·.1)).Nodup)
    (hall : ∀ a status h, g.update a = .ok (.ok status, h) → a ∈ branches.map (·.1))
    (hbranch : g.Branches (Continuations · depth) branches) :
    g.Continuations (depth + 1) (branches.flatMap fun b => b.2.map (b.1 :: ·)) where
  nodup := by
    rw [List.nodup_flatMap]
    constructor
    · intro b hb
      obtain ⟨status, h, -, hlines⟩ := hbranch b hb
      exact hlines.nodup.map List.cons_injective
    · refine (List.pairwise_map.1 hnodup).imp fun {b c} hne line hb hc => ?_
      obtain ⟨_, -, rfl⟩ := List.mem_map.1 hb
      obtain ⟨_, -, heq⟩ := List.mem_map.1 hc
      exact hne (List.cons.inj heq).1.symm
  mem_iff line := by
    rw [List.mem_flatMap]
    constructor
    · rintro ⟨b, hb, hline⟩
      obtain ⟨rest, hrest, rfl⟩ := List.mem_map.1 hline
      obtain ⟨status, h, hupdate, hlines⟩ := hbranch b hb
      obtain ⟨hlength, haccepts⟩ := (hlines.mem_iff rest).1 hrest
      exact ⟨congrArg (· + 1) hlength, accepts_cons_iff.2 ⟨status, h, hupdate, haccepts⟩⟩
    · rintro ⟨hlength, haccepts⟩
      obtain ⟨a, rest, rfl⟩ := List.exists_cons_of_length_eq_add_one hlength
      obtain ⟨status, h, hupdate, hgoes⟩ := accepts_cons_iff.1 haccepts
      obtain ⟨b, hb, rfl⟩ := List.mem_map.1 (hall a status h hupdate)
      obtain ⟨_, _, hupdate', hlines⟩ := hbranch b hb
      obtain ⟨-, rfl⟩ := Prod.mk.inj (Except.ok.inj (hupdate.symm.trans hupdate'))
      have hrest : rest ∈ b.2 := (hlines.mem_iff rest).2 ⟨Nat.succ.inj hlength, hgoes⟩
      exact ⟨b, hb, List.mem_map.2 ⟨rest, hrest, rfl⟩⟩

/-- An action that is accepted is listed. -/
theorem Kept.mem_of_accepted (hk : g.Kept) {actions : List Action}
    (hlisted : g.legalActions = .ok (actions, h)) {status : Status} {k : Game}
    (hupdate : g.update a = .ok (.ok status, k)) : a ∈ actions := by
  obtain ⟨hover, ha⟩ := (hk.update_ok_iff hupdate).1 ⟨status, rfl⟩
  rw [(hk.legalActions_eq_ok hlisted).2, if_neg (by simp [hover])]
  exact ha

/-- No action is listed twice. -/
theorem Kept.nodup_of_legalActions (hk : g.Kept) {actions : List Action}
    (hlisted : g.legalActions = .ok (actions, h)) : actions.Nodup := by
  rw [(hk.legalActions_eq_ok hlisted).2]
  split
  · exact List.nodup_nil
  · exact hk.nodup_actions g.turn

/-- Without a ply to go the count is one. -/
theorem Counts.eq_one (h : g.Counts 0 n) : n = 1 := by
  obtain ⟨k, hk⟩ := h g (.refl g)
  exact (Prod.mk.inj (Except.ok.inj hk)).1.symm

/-- Counting below some accepted actions adds up the counts of the games that they lead to. -/
theorem Reached.sumOver_eq_ok (h₀ : g₀.Opening) (hg : Reached g₀ g)
    (hbranch : g.Branches (fun h lines => h.Counts depth lines.length) branches)
    (hleaves : g.Leaves h) :
    ∃ k, sumOver (perft depth) (branches.map (·.1)) h =
      .ok ((branches.map (·.2.length)).sum, k) := by
  induction branches generalizing h with
  | nil => exact ⟨h, rfl⟩
  | cons b branches ih =>
    rw [Branches, List.forall_mem_cons] at hbranch
    obtain ⟨⟨status, g₁, hupdate, hcounts⟩, hothers⟩ := hbranch
    have hupdate' := hleaves.update_eq_ok hupdate
    obtain ⟨g₂, hbelow⟩ := hcounts g₁ (.refl g₁)
    have hleft : g₁.Leaves g₂ := (nesting_leaves h₀).perft depth hbelow (hg.update h₀ hupdate)
    -- the game is settled once an action has been taken back, which is the case for the others
    obtain ⟨answer, hundo⟩ := (hleaves.reached hg).undo_eq_settled h₀ hupdate' hleft
    obtain ⟨k, hsum⟩ := ih hothers (hleaves.trans (.inr rfl))
    exact ⟨k, bind_eq_ok_iff.2 ⟨_, hupdate', bind_eq_ok_iff.2 ⟨_, hbelow,
      bind_eq_ok_iff.2 ⟨_, hundo, bind_eq_ok_iff.2 ⟨_, hsum, rfl⟩⟩⟩⟩⟩

/-- The count of one more ply adds up the counts of the games that the listed actions lead to; when
it takes the number of actions instead, each of them counts as one. -/
theorem Reached.counts_succ (h₀ : g₀.Opening) (hg₀ : g₀.Standard) (hg : Reached g₀ g)
    (hlisted : g.legalActions = .ok (branches.map (·.1), g))
    (hbranch : g.Branches (fun h lines => h.Counts depth lines.length) branches) :
    g.Counts (depth + 1) (branches.map (·.2.length)).sum := by
  intro h hleaves
  have hlisted' := hleaves.legalActions_eq_ok h₀ hg₀ hg hlisted
  rw [perft]
  cases depth with
  | zero =>
    have hone : ∀ b ∈ branches, b.2.length = 1 := by
      intro b hb
      obtain ⟨_, _, -, hcounts⟩ := hbranch b hb
      exact hcounts.eq_one
    have hsum : (branches.map (·.2.length)).sum = (branches.map (·.1)).length := by
      rw [List.map_congr_left hone]
      simp
    rw [hsum]
    exact ⟨h, bind_eq_ok_iff.2 ⟨_, hlisted', rfl⟩⟩
  | succ depth =>
    obtain ⟨k, hsum⟩ := hg.sumOver_eq_ok h₀ hbranch hleaves
    exact ⟨k, bind_eq_ok_iff.2 ⟨_, hlisted', hsum⟩⟩

/-- The accepted sequences of a game of chessmen can be listed, and the count comes to their
number. -/
theorem Reached.exists_counted (h₀ : g₀.Opening) (hg₀ : g₀.Standard) (hg : Reached g₀ g)
    (depth : Nat) : ∃ lines, g.Continuations depth lines ∧ g.Counts depth lines.length := by
  induction depth generalizing g with
  | zero => exact ⟨[[]], continuations_zero g, fun h _ => ⟨h, rfl⟩⟩
  | succ depth ih =>
    have hk := hg.kept h₀
    obtain ⟨actions, hlisted, haccepted⟩ := hg.exists_listed h₀ hg₀
    obtain ⟨branches, rfl, hpairs⟩ := exists_pairs (l := actions)
      (R := fun a lines => ∃ status h, g.update a = .ok (.ok status, h) ∧
        h.Continuations depth lines ∧ h.Counts depth lines.length) fun a ha => by
      obtain ⟨status, h, hupdate, hh⟩ := haccepted a ha
      obtain ⟨lines, hlines⟩ := ih hh
      exact ⟨lines, status, h, hupdate, hlines⟩
    have hbranch : g.Branches
        (fun h lines => h.Continuations depth lines ∧ h.Counts depth lines.length) branches :=
      hpairs
    refine ⟨_, continuations_succ (hk.nodup_of_legalActions hlisted)
      (fun a status h hupdate => hk.mem_of_accepted hlisted hupdate)
      (hbranch.mono fun _ _ h => h.1), ?_⟩
    have hlength : (branches.flatMap fun b => b.2.map (b.1 :: ·)).length =
        (branches.map (·.2.length)).sum := by
      simp only [List.length_flatMap, List.length_map]
    rw [hlength]
    exact hg.counts_succ h₀ hg₀ hlisted (hbranch.mono fun _ _ h => h.2)

/-- Counting root action by root action is the same computation, at least one ply deep. -/
theorem perftByRoot_eq (hdepth : 1 ≤ depth) (g : Game) : perftByRoot depth g = perft depth g := by
  obtain ⟨d, rfl⟩ := Nat.exists_eq_add_of_le' hdepth
  have hlast : d + 1 ≤ 1 ↔ d = 0 := by omega
  simp only [perftByRoot, perft, Nat.add_sub_cancel, hlast]

variable {set : PieceSet} {layout : List Char} {config : GameConfig} {board : Board}
  {turn : Colour} {ops : List Operation}

/-- In every game of a run a count succeeds at any depth, comes to the number of sequences of that
length in which every action is accepted after the ones before it, and leaves the game as it was but
for what could be redone. So does the count by root actions, at least one ply deep. The game starts
from any layout of chessmen on any board, with the side that is not to move out of check. -/
theorem perft_of_run (hstart : start set layout config = .ok g₀)
    (hread : Board.read set config.bounds layout = .ok (board, turn)) (hkinds : board.Standard)
    (hcalm : g₀.kingAttacked g₀.turn.other = false) (hrun : g₀.run ops = .ok g) (depth : Nat) :
    ∃ lines, g.Continuations depth lines ∧
      (∃ h, g.perft depth = .ok (lines.length, h) ∧
        h = { g with log := ⟨g.log.committed, h.log.undone⟩ }) ∧
      (1 ≤ depth → ∃ h, g.perftByRoot depth = .ok (lines.length, h) ∧
        h = { g with log := ⟨g.log.committed, h.log.undone⟩ }) := by
  have hreg := regular_setUp set config turn hkinds
  have h₀ := opening_of_start hstart hread hreg
  have hg₀ := standard_of_start hstart hread hkinds ((h₀.kept.inCheck_eq _).trans hcalm)
  have hg := h₀.reached_of_run hrun
  obtain ⟨lines, hlines, hcounts⟩ := hg.exists_counted h₀ hg₀ depth
  obtain ⟨h, hperft⟩ := hcounts g (.refl g)
  have hframe : h = { g with log := ⟨g.log.committed, h.log.undone⟩ } := by
    rcases (nesting_leaves h₀).perft depth hperft hg with rfl | rfl <;> rfl
  refine ⟨lines, hlines, ⟨h, hperft, hframe⟩, fun hdepth => ⟨h, ?_, hframe⟩⟩
  rw [perftByRoot_eq hdepth, hperft]

/-- A king alone has a single move against a king and a rook, which have four replies to it; the
count to two plies is four. -/
theorem perft_of_run_small : ∃ g₀ g board turn lines h,
    start .orthodox "b wKa1 wRb1 bKc3".toList smallConfig = .ok g₀ ∧
      Board.read .orthodox smallConfig.bounds "b wKa1 wRb1 bKc3".toList = .ok (board, turn) ∧
      board.Standard ∧ g₀.kingAttacked g₀.turn.other = false ∧
      g₀.run [.legalActions] = .ok g ∧
      g.Continuations 2 lines ∧ lines.length = 4 ∧ g.perftByRoot 2 = .ok (4, h) := by
  obtain ⟨g₀, g, board, turn, hstart, hread, hkinds, hcalm, hrun, hcount⟩ :=
    exists_calm_run "b wKa1 wRb1 bKc3".toList smallConfig
      [.legalActions]
      (fun g => (g.perft 2).toOption.any fun r : Nat × Game => r.1 = 4) (by decide +kernel)
  obtain ⟨⟨n, k⟩, hn, hfour⟩ := (Option.any_eq_true _ _).1 hcount
  rw [toOption_eq_some_iff] at hn
  obtain rfl : n = 4 := of_decide_eq_true hfour
  obtain ⟨lines, hlines, ⟨h, hperft, -⟩, hroot⟩ := perft_of_run hstart hread hkinds hcalm hrun 2
  obtain ⟨hlength, -⟩ := Prod.mk.inj (Except.ok.inj (hperft.symm.trans hn))
  obtain ⟨h, hperftByRoot, -⟩ := hroot (by decide)
  rw [hlength] at hperftByRoot
  exact ⟨g₀, g, board, turn, lines, h, hstart, hread, hkinds, hcalm, hrun, hlines, hlength,
    hperftByRoot⟩

end Game

end VariantChess
