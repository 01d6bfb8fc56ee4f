import VariantChess.Proofs.TextbookStatus

/-!
# Games of chessmen never fault

A fault is raised when a ply is played or taken back on a board that it does not fit. In a standard
game every planned ply can be played, before and after every accepted action, so the functions that
try plies succeed, and with them the verdict and every update. Undoing and redoing succeed on every
line. Searches and counts are made of these operations; they succeed whenever the operations do, at
any depth, and so does every run.

As no king of a standard game is ever taken, all kings of the layout are still on the board after
any run, and the table of kings tells where they stand.
-/

namespace VariantChess

namespace Game

variable {g h g₀ : Game} {ply : Ply} {b : Board} {c : Colour}

section Trying

variable (hk : g.Kept) (hplay : g.Playable)
include hk hplay

/-- Whether some pieces on the board have a legal ply can be found. -/
theorem Kept.exists_anyLegal {ids : List PieceId} (hids : ∀ id ∈ ids, id ∈ g.board.ids) :
    ∃ r, anyLegal ids g = .ok r := by
  induction ids with
  | nil => exact ⟨_, rfl⟩
  | cons id rest ih =>
    rw [List.forall_mem_cons] at hids
    apply exists_bind_eq_ok
    · obtain ⟨plies, hfirst⟩ := hk.exists_legalPliesTo hplay hids.1 true (g.destinations id)
      exact ⟨_, hfirst⟩
    · rintro ⟨plies, game⟩ hfirst
      obtain ⟨rfl, -⟩ := hk.legalPliesOf_eq_ok hfirst
      dsimp only
      split
      · exact ih hids.2
      · exact ⟨_, rfl⟩

/-- Whether some pieces on the board can answer a check can be found. -/
theorem Kept.exists_anyAnswers {ids : List PieceId} (hids : ∀ id ∈ ids, id ∈ g.board.ids)
    (targets : List Point) (attacker : PieceId) :
    ∃ r, anyAnswers targets attacker ids g = .ok r := by
  induction ids with
  | nil => exact ⟨_, rfl⟩
  | cons id rest ih =>
    rw [List.forall_mem_cons] at hids
    apply exists_bind_eq_ok
    · obtain ⟨plies, hfirst⟩ := hk.exists_legalPliesTo hplay hids.1 false (g.destinations id)
      exact ⟨_, hfirst⟩
    · rintro ⟨plies, game⟩ hfirst
      obtain ⟨rfl, -⟩ := hk.legalPliesOf_eq_ok hfirst
      dsimp only
      split
      · exact ⟨_, rfl⟩
      · exact ih hids.2

/-- Whether a king on the board is mated can be found. -/
theorem Kept.exists_isMate (hking : ∀ king, g.kings.get c = some king → king ∈ g.board.ids) :
    ∃ r, g.isMate c = .ok r := by
  rw [isMate]
  cases hc : g.kings.get c with
  | none => exact ⟨_, rfl⟩
  | some king =>
    apply exists_bind_eq_ok
    · obtain ⟨plies, hescapes⟩ :=
        hk.exists_legalPliesTo hplay (hking king hc) true (g.destinations king)
      exact ⟨_, hescapes⟩
    · rintro ⟨escapes, game⟩ hescapes
      obtain ⟨rfl, -⟩ := hk.legalPliesOf_eq_ok hescapes
      dsimp only
      split
      · exact ⟨_, rfl⟩
      · split
        · exact ⟨_, rfl⟩
        · split
          · split
            · exact ⟨_, rfl⟩
            · apply exists_bind_eq_ok
              · apply hk.exists_anyAnswers hplay
                intro id hid
                exact List.mem_of_mem_filter (List.mem_of_mem_filter hid)
              · intro r _
                exact ⟨_, rfl⟩
          · exact ⟨_, rfl⟩

/-- The verdict can be found when the king to be judged is on the board. -/
theorem Kept.exists_verdict
    (hking : ∀ king, g.kings.get c.other = some king → king ∈ g.board.ids) :
    ∃ r, g.verdict c = .ok r := by
  rw [verdict]
  split
  · exact ⟨_, rfl⟩
  · split
    · apply exists_bind_eq_ok (hk.exists_isMate hplay hking)
      intro r _
      exact ⟨_, rfl⟩
    · apply exists_bind_eq_ok
      · apply hk.exists_anyLegal hplay
        intro id hid
        exact List.mem_of_mem_filter hid
      · intro r _
        exact ⟨_, rfl⟩

end Trying

/-- A planned ply that has been played can be committed. -/
theorem Standard.exists_commit (hg : g.Standard) (hk : g.Kept) (hply : g.Planned g.turn ply)
    (hstep : ply.Step g.board b) : ∃ r, (g.after ply b).commit ply = .ok r := by
  rw [commit_eq_bind]
  have hlogged : ((g.after ply b).logged ply).Kept := (hk.after hstep).logged ply
  obtain ⟨threats, hframe⟩ := exists_logged_after_eq g ply b
  have hboard : ((g.after ply b).logged ply).board = b := by rw [hframe]
  have hkings : ((g.after ply b).logged ply).kings = g.kings := by rw [hframe]
  apply exists_bind_eq_ok
  · apply hlogged.exists_verdict
    · have hplain : ((g.after ply b).logged ply).Plain :=
        hg.crowned.plain.of_step hstep hboard (by rw [hframe])
      exact hplain.playable hlogged
    · intro king hking
      rw [hkings] at hking
      obtain ⟨q, -, -, -, hon⟩ := hg.king_stands_of_step hk hply hstep hking
      rw [hboard, (hstep.sound hk.sound).mem_ids, (hstep.sound hk.sound).has_iff]
      exact ⟨_, hon⟩
  · intro r _
    exact ⟨_, rfl⟩

/-- Every action on a standard game is accepted or rejected without a fault. -/
theorem Standard.exists_update (hg : g.Standard) (hk : g.Kept) (a : Action) :
    ∃ r, g.update a = .ok r := by
  rw [update]
  cases hvet : g.vet a with
  | error e => exact ⟨_, rfl⟩
  | ok ply =>
    have hply := hk.planned_of_vet hvet
    have hid : ply.piece ∈ g.board.ids := Plane.mem_values.2 ⟨ply.source, hply.stands⟩
    obtain ⟨b, hstep⟩ := hg.crowned.plain.playable hk _ hid _ _ hply.plan
    have happly : g.apply ply = .ok (g.after ply b) :=
      (apply_eq_ok_iff hstep.records).2 ⟨b, hstep, rfl⟩
    apply exists_bind_eq_ok ⟨_, happly⟩
    intro g₁ h₁
    obtain rfl := Except.ok.inj (happly.symm.trans h₁)
    split
    · apply exists_bind_eq_ok ⟨_, hk.revert_after hstep⟩
      intro g₂ _
      exact ⟨_, rfl⟩
    · apply exists_bind_eq_ok (hg.exists_commit hk hply hstep)
      intro r _
      exact ⟨_, rfl⟩

end Game

/-- A property of games that the elementary operations preserve and under which they raise no
fault. -/
structure Unfailing (P : Game → Prop) : Prop extends Preserved P where
  exists_update : ∀ {g}, P g → ∀ a, ∃ r, g.update a = .ok r
  exists_undo : ∀ {g}, P g → ∀ n save, ∃ r, g.undo n save = .ok r
  exists_redo : ∀ {g}, P g → ∀ n, ∃ r, g.redo n = .ok r
  exists_legalActions : ∀ {g}, P g → ∃ r, g.legalActions = .ok r
  exists_moveMap : ∀ {g}, P g → ∀ c, ∃ r, g.moveMap c = .ok r

namespace Unfailing

variable {P : Game → Prop} (hP : Unfailing P)

section Search

open Search

variable {scorer : Scorer} {s : Search}
include hP

/-- An action can be tried when the position it leads to can be scored. -/
theorem exists_tryAction (hkeep : Nesting.Scores (fun g h => P g → P h) scorer)
    (hscorer : ∀ w s, P s.game → ∃ r, scorer w s = .ok r) (hs : P s.game) (w : Window)
    (a : Action) : ∃ r, tryAction scorer w a s = .ok r := by
  apply exists_bind_eq_ok (hP.exists_update hs a)
  intro r hupdate
  obtain ⟨result, game⟩ := r
  have hgame : P game := hP.update hs hupdate
  cases result with
  | error e => exact ⟨_, rfl⟩
  | ok status =>
    apply exists_bind_eq_ok (hscorer w ⟨game, s.nodes⟩ hgame)
    intro r hscore
    apply exists_bind_eq_ok (hP.exists_undo (hkeep hscore hgame) 1 false)
    intro r _
    exact ⟨_, rfl⟩

theorem exists_scoreActions (hkeep : Nesting.Scores (fun g h => P g → P h) scorer)
    (hscorer : ∀ w s, P s.game → ∃ r, scorer w s = .ok r) (hs : P s.game) (maximising : Bool)
    (actions : List Action) (best : Score) (w : Window) :
    ∃ r, scoreActions scorer maximising actions best w s = .ok r := by
  induction actions generalizing best w s with
  | nil => exact ⟨_, rfl⟩
  | cons a rest ih =>
    apply exists_bind_eq_ok (hP.exists_tryAction hkeep hscorer hs w a)
    intro r htry
    obtain ⟨value, s₁⟩ := r
    have hs₁ : P s₁.game := hP.nesting.tryAction hkeep htry hs
    cases value with
    | none => exact ih hs₁ best w
    | some value =>
      dsimp only
      split
      · exact ⟨_, rfl⟩
      · exact ih hs₁ _ _

/-- A position can be searched to any depth and in any window. -/
theorem exists_alphaBeta (hs : P s.game) (depth : Nat) (maximising : Bool) (w : Window) :
    ∃ r, alphaBeta depth maximising w s = .ok r := by
  induction depth generalizing maximising w s with
  | zero => exact ⟨_, rfl⟩
  | succ depth ih =>
    rw [alphaBeta]
    dsimp only
    split
    · exact ⟨_, rfl⟩
    · apply exists_bind_eq_ok (hP.exists_legalActions hs)
      intro r hactions
      obtain ⟨actions, game⟩ := r
      have hgame : P game := hP.legalActions hs hactions
      dsimp only
      split
      · exact ⟨_, rfl⟩
      · apply hP.exists_scoreActions (hP.nesting.alphaBeta depth !maximising) _ hgame
        intro w s hs
        exact ih hs _ w

theorem exists_chooseAction (hkeep : Nesting.Scores (fun g h => P g → P h) scorer)
    (hscorer : ∀ w s, P s.game → ∃ r, scorer w s = .ok r) (hs : P s.game) (greater : Bool)
    (actions : List Action) (best : Option (Action × Score)) (w : Window) :
    ∃ r, chooseAction scorer greater actions best w s = .ok r := by
  induction actions generalizing best w s with
  | nil => exact ⟨_, rfl⟩
  | cons a rest ih =>
    apply exists_bind_eq_ok (hP.exists_tryAction hkeep hscorer hs w a)
    intro r htry
    obtain ⟨value, s₁⟩ := r
    have hs₁ : P s₁.game := hP.nesting.tryAction hkeep htry hs
    cases value with
    | none => exact ih hs₁ best w
    | some value =>
      dsimp only
      split
      · exact ih hs₁ _ _
      · exact ih hs₁ _ _

theorem exists_nextBest (hs : P s.game) (depth : Nat) (greater : Bool) :
    ∃ r, s.nextBest depth greater = .ok r := by
  apply exists_bind_eq_ok (hP.exists_legalActions hs)
  intro r hactions
  apply hP.exists_chooseAction (hP.nesting.alphaBeta _ _) _ (hP.legalActions hs hactions)
  intro w s hs
  exact hP.exists_alphaBeta hs _ _ w

theorem exists_deepen (hs : P s.game) (maximising : Bool) (depths : List Nat) (best : Score) :
    ∃ r, deepen maximising depths best s = .ok r := by
  induction depths generalizing best s with
  | nil => exact ⟨_, rfl⟩
  | cons depth deeper ih =>
    apply exists_bind_eq_ok (hP.exists_alphaBeta hs depth maximising .full)
    intro r hscore
    dsimp only
    split
    · exact ⟨_, rfl⟩
    · exact ih (hP.nesting.alphaBeta depth maximising hscore hs) _

end Search

section Perft

variable {g : Game}
include hP

theorem exists_sumOver {count : Game → Except Fault (Nat × Game)}
    (hkeep : ∀ {g h n}, count g = .ok (n, h) → P g → P h)
    (hcount : ∀ g, P g → ∃ r, count g = .ok r) (hg : P g) (actions : List Action) :
    ∃ r, Game.sumOver count actions g = .ok r := by
  induction actions generalizing g with
  | nil => exact ⟨_, rfl⟩
  | cons a rest ih =>
    apply exists_bind_eq_ok (hP.exists_update hg a)
    intro r hupdate
    obtain ⟨result, g₁⟩ := r
    have hg₁ : P g₁ := hP.update hg hupdate
    cases result with
    | error e => exact ih hg₁
    | ok status =>
      apply exists_bind_eq_ok (hcount g₁ hg₁)
      intro r hbelow
      have hg₂ := hkeep hbelow hg₁
      apply exists_bind_eq_ok (hP.exists_undo hg₂ 1 false)
      intro r hundo
      apply exists_bind_eq_ok (ih (hP.undo hg₂ hundo))
      intro r _
      exact ⟨_, rfl⟩

/-- The sequences of any length can be counted. -/
theorem exists_perft (hg : P g) (depth : Nat) : ∃ r, Game.perft depth g = .ok r := by
  induction depth generalizing g with
  | zero => exact ⟨_, rfl⟩
  | succ depth ih =>
    apply exists_bind_eq_ok (hP.exists_legalActions hg)
    intro r hactions
    dsimp only
    split
    · exact ⟨_, rfl⟩
    · apply hP.exists_sumOver (hP.nesting.perft depth) _ (hP.legalActions hg hactions)
      intro g hg
      exact ih hg

theorem exists_perftByRoot (hg : P g) (depth : Nat) : ∃ r, Game.perftByRoot depth g = .ok r := by
  apply exists_bind_eq_ok (hP.exists_legalActions hg)
  intro r hactions
  dsimp only
  split
  · exact ⟨_, rfl⟩
  · apply hP.exists_sumOver (hP.nesting.perft _) _ (hP.legalActions hg hactions)
    intro g hg
    exact hP.exists_perft hg _

end Perft

variable {g : Game}
include hP

/-- Every operation succeeds when the elementary ones do. -/
theorem exists_perform (hg : P g) (o : Operation) : ∃ h, o.perform g = .ok h := by
  cases o with
  | update a => exact exists_map_eq_ok (hP.exists_update hg a) _
  | submit a =>
    refine exists_map_eq_ok (exists_bind_eq_ok (hP.exists_update hg a) ?_) _
    intro r _
    exact ⟨_, rfl⟩
  | undo n save => exact exists_map_eq_ok (hP.exists_undo hg n save) _
  | redo n => exact exists_map_eq_ok (hP.exists_redo hg n) _
  | legalActions => exact exists_map_eq_ok (hP.exists_legalActions hg) _
  | moveMap c => exact exists_map_eq_ok (hP.exists_moveMap hg c) _
  | nextBest depth greater =>
    exact exists_map_eq_ok (hP.exists_nextBest (s := .of g) hg depth greater) _
  | bestAction config => exact exists_map_eq_ok (hP.exists_nextBest (s := .of g) hg _ _) _
  | minimax config depth => exact exists_map_eq_ok (hP.exists_deepen (s := .of g) hg _ _ _) _
  | perft depth => exact exists_map_eq_ok (hP.exists_perft hg depth) _
  | perftByRoot depth => exact exists_map_eq_ok (hP.exists_perftByRoot hg depth) _

/-- Every run succeeds when the elementary operations do. -/
theorem exists_run_eq (hg : P g) (ops : List Operation) : ∃ h, g.run ops = .ok h := by
  induction ops generalizing g with
  | nil => exact ⟨g, rfl⟩
  | cons o rest ih =>
    rw [Game.run, List.foldlM_cons]
    apply exists_bind_eq_ok (hP.exists_perform hg o)
    intro g₁ hperform
    exact ih (hP.perform hg hperform)

end Unfailing

namespace Game

variable {g₀ g : Game} {set : PieceSet} {layout : List Char} {config : GameConfig} {board : Board}
  {turn : Colour} {c : Colour}

/-- Every game on a line from a standard opening is standard. -/
theorem Reached.standard (h₀ : g₀.Opening) (hg₀ : g₀.Standard) (hg : Reached g₀ g) :
    g.Standard :=
  (Standard.of_line h₀ hg₀ hg.line).of_samePosition (samePosition_onRecord g).symm

/-- No elementary operation faults on a line from a standard opening. -/
theorem unfailing_reached (h₀ : g₀.Opening) (hg₀ : g₀.Standard) : Unfailing (Reached g₀) where
  toPreserved := preserved_reached h₀
  exists_update hg a := (hg.standard h₀ hg₀).exists_update (hg.kept h₀) a
  exists_undo hg n save := by
    obtain ⟨_, _, hundo, -⟩ := hg.undo_eq_ok h₀ n save
    exact ⟨_, hundo⟩
  exists_redo hg n := by
    obtain ⟨_, _, hredo, -⟩ := hg.redo_eq_ok h₀ n
    exact ⟨_, hredo⟩
  exists_legalActions {g} hg := by
    rw [legalActions]
    split
    · exact ⟨_, rfl⟩
    · have hplies := (hg.kept h₀).legalPlies_of_standard (hg.standard h₀ hg₀).kinds g.turn
      exact ⟨_, bind_eq_ok_iff.2 ⟨_, hplies, rfl⟩⟩
  exists_moveMap {g} hg c := by
    have hplies := (hg.kept h₀).legalPlies_of_standard (hg.standard h₀ hg₀).kinds c
    exact ⟨_, bind_eq_ok_iff.2 ⟨_, hplies, rfl⟩⟩

/-- A game of chessmen can be started from every layout in which the side that is not to move is out
of check. -/
theorem exists_start (hread : Board.read set config.bounds layout = .ok (board, turn))
    (hkinds : board.Standard)
    (hcalm : (setUp set config board turn).inCheck turn.other = false) :
    ∃ g₀, start set layout config = .ok g₀ := by
  have hk := kept_setUp (Board.of_read hread).1 (regular_setUp set config turn hkinds)
  have hg := standard_setUp hread hkinds hcalm
  have hplay : (setUp set config board turn).Playable := hg.crowned.plain.playable hk
  obtain ⟨⟨verdict, g⟩, hverdict⟩ := hk.exists_verdict (c := turn.other) hplay fun king hking =>
    hg.king_mem_ids hk hking
  rw [start, hread]
  dsimp only
  rw [hverdict]
  exact ⟨_, rfl⟩

/-- The table of kings of a standard game tells where the kings stand. -/
theorem Standard.king?_eq_some_iff (hg : g.Standard) (hk : g.Kept) {p : Point} :
    g.king? c = some p ↔
      ∃ id q, g.board.on? p = some id ∧ g.board.piece? id = some q ∧ q.isKing ∧ q.colour = c := by
  constructor
  · intro hp
    rw [king?, Option.map_eq_some_iff] at hp
    obtain ⟨q, hq, rfl⟩ := hp
    obtain ⟨king, hking, hq⟩ := Option.bind_eq_some_iff.1 hq
    obtain ⟨r, hr, hkind, hcolour, hon⟩ := hg.king_stands c king hking
    obtain rfl := Option.some.inj (hq.symm.trans hr)
    exact ⟨king, q, hon, hq, hkind, hcolour⟩
  · rintro ⟨id, q, hon, hq, hkind, rfl⟩
    rw [Crowned.king?_eq (hg.king_of id q hq hkind) hq, hk.sound.point_eq hon hq]

/-- A game of chessmen, started from any layout on any board with the side that is not to move out
of check, never faults: every run succeeds, whatever its operations are. In every game of a run the
side that is not to move is out of check, the kings of the layout are still on the board, and the
table of kings tells where they stand. -/
theorem run_of_calm (hread : Board.read set config.bounds layout = .ok (board, turn))
    (hkinds : board.Standard)
    (hcalm : (setUp set config board turn).kingAttacked turn.other = false) :
    ∃ g₀, start set layout config = .ok g₀ ∧ ∀ ops, ∃ g, g₀.run ops = .ok g ∧
      g.inCheck g.turn.other = false ∧
      (∀ id q, board.piece? id = some q → q.isKing → ∃ q', g.board.piece? id = some q' ∧
        q'.isKing ∧ q'.colour = q.colour ∧ g.board.on? q'.point = some id ∧
          g.king? q.colour = some q'.point) ∧
      ∀ c p, g.king? c = some p ↔ ∃ id q, g.board.on? p = some id ∧ g.board.piece? id = some q ∧
        q.isKing ∧ q.colour = c := by
  have hreg := regular_setUp set config turn hkinds
  have hset := kept_setUp (Board.of_read hread).1 hreg
  rw [← hset.inCheck_eq] at hcalm
  obtain ⟨g₀, hstart⟩ := exists_start hread hkinds hcalm
  have hsame := samePosition_of_start hstart hread hreg
  have hsetUp := standard_setUp hread hkinds hcalm
  have h₀ := opening_of_start hstart hread hreg
  have hg₀ : g₀.Standard := hsetUp.of_samePosition hsame
  refine ⟨g₀, hstart, fun ops => ?_⟩
  obtain ⟨g, hrun⟩ := (unfailing_reached h₀ hg₀).exists_run_eq h₀.reached ops
  have hreached := h₀.reached_of_run hrun
  have hk := hreached.kept h₀
  have hg := hreached.standard h₀ hg₀
  refine ⟨g, hrun, hg.unchecked, ?_, fun c p => hg.king?_eq_some_iff hk⟩
  intro id q hq hking
  obtain ⟨threats, hframe⟩ := setUp_eq set config board turn
  have hkings : g.kings = (setUp set config board turn).kings :=
    (hreached.line.fixed h₀).2.1.trans hsame.kings
  have hnamed : g.kings.get q.colour = some id := by
    rw [hkings]
    apply hsetUp.king_of id q _ hking
    rw [hframe]
    exact hq
  obtain ⟨q', hq', hking', hcolour, hon⟩ := hg.king_stands q.colour id hnamed
  exact ⟨q', hq', hking', hcolour, hon, Crowned.king?_eq hnamed hq'⟩

/-- With two kings and a rook on a small board no run faults, and none leaves the side that has played
in check. -/
theorem run_of_calm_small : ∃ board turn g₀,
    Board.read .orthodox smallConfig.bounds "w wKa1 wRb1 bKc3".toList = .ok (board, turn) ∧
      board.Standard ∧
      (setUp .orthodox smallConfig board turn).kingAttacked turn.other = false ∧
      start .orthodox "w wKa1 wRb1 bKc3".toList smallConfig = .ok g₀ ∧
      ∀ ops, ∃ g, g₀.run ops = .ok g ∧ g.inCheck g.turn.other = false := by
  have hcheck : ((Board.read .orthodox smallConfig.bounds
      "w wKa1 wRb1 bKc3".toList).toOption.bind fun r =>
        if (setUp .orthodox smallConfig r.1 r.2).kingAttacked r.2.other = false then some r
        else none).isSome := by
    decide +kernel
  obtain ⟨x, hx⟩ := Option.isSome_iff_exists.1 hcheck
  obtain ⟨⟨board, turn⟩, hread, hx⟩ := Option.bind_eq_some_iff.1 hx
  rw [toOption_eq_some_iff] at hread
  split at hx
  · next hcalm =>
    have hkinds := standard_of_read hread
    obtain ⟨g₀, hstart, hruns⟩ := run_of_calm hread hkinds hcalm
    refine ⟨board, turn, g₀, hread, hkinds, hcalm, hstart, fun ops => ?_⟩
    obtain ⟨g, hrun, hcheck, -⟩ := hruns ops
    exact ⟨g, hrun, hcheck⟩
  · cases hx

end Game

end VariantChess
