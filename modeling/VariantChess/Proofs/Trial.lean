import VariantChess.Game.Verdict
import VariantChess.Proofs.Plan
import VariantChess.Proofs.Upkeep

/-!
# Trying plies leaves a game as it was

Legal plies are found by playing planned plies and taking them back. In a kept game, one with a
sound board, regular pieces and fresh threat maps, this restores the game exactly: the board because
the ply recorded it, and the maps because they are fresh again. Hence every function that tries
plies returns the game that it was given, and its answer is a plain function of the game, stated
here without the game being passed along.
-/

namespace VariantChess

namespace Game

variable {g h h' : Game} {ply : Ply} {b : Board} {id : PieceId}

/-- The game on a sound board, with regular pieces and threat maps that are up to date. -/
structure Kept (g : Game) : Prop where
  sound : g.board.Sound
  regular : g.Regular
  fresh : g.Fresh

/-- Being kept depends on the board, the pieces, the threat maps and the latest ply. -/
theorem Kept.of_same (hk : g.Kept) (hboard : h.board = g.board) (hset : h.pieceSet = g.pieceSet)
    (hthreats : h.threats = g.threats) (hply : h.lastPly = g.lastPly) : h.Kept := by
  refine ⟨hboard ▸ hk.sound, hk.regular.of_same hboard hset,
    fun c => hthreats ▸ hk.fresh.coherent c, fun c id => ?_⟩
  rw [hthreats, hk.fresh.reach_eq, expected, expected, hboard, reach_eq_of_same hboard hset hply]

/-- The game on another board, after the pieces that a ply affects have been looked at again. -/
def after (g : Game) (ply : Ply) (b : Board) : Game :=
  refresh { g with board := b } (g.affected ply).members

/-- Only the board and the threat maps change. -/
theorem after_eq (g : Game) (ply : Ply) (b : Board) :
    g.after ply b = { g with board := b, threats := (g.after ply b).threats } := by
  rw [after, refresh_eq]

@[simp] theorem board_after (g : Game) (ply : Ply) (b : Board) : (g.after ply b).board = b := by
  rw [after_eq]

@[simp] theorem pieceSet_after (g : Game) (ply : Ply) (b : Board) :
    (g.after ply b).pieceSet = g.pieceSet := by
  rw [after_eq]

@[simp] theorem log_after (g : Game) (ply : Ply) (b : Board) : (g.after ply b).log = g.log := by
  rw [after_eq]

@[simp] theorem kings_after (g : Game) (ply : Ply) (b : Board) :
    (g.after ply b).kings = g.kings := by
  rw [after_eq]

@[simp] theorem turn_after (g : Game) (ply : Ply) (b : Board) : (g.after ply b).turn = g.turn := by
  rw [after_eq]

/-- A ply is played on the board first and the threat maps follow. -/
theorem apply_eq_map (g : Game) (ply : Ply) :
    g.apply ply = (ply.play g.board).map (g.after ply) := by
  rw [apply]
  cases ply.play g.board <;> rfl

/-- A ply is taken back on the board first and the threat maps follow. -/
theorem revert_eq_map (g : Game) (ply : Ply) :
    g.revert ply = (ply.takeBack g.board).map (g.after ply) := by
  rw [revert]
  cases ply.takeBack g.board <;> rfl

/-- A recorded ply that can be played on a game is a step of its board. -/
theorem apply_eq_ok_iff (hr : ply.Records g.board) :
    g.apply ply = .ok h ↔ ∃ b, ply.Step g.board b ∧ h = g.after ply b := by
  rw [apply_eq_map, map_eq_ok_iff]
  constructor
  · rintro ⟨b, hplay, rfl⟩
    exact ⟨b, ⟨hr, hplay⟩, rfl⟩
  · rintro ⟨b, hstep, rfl⟩
    exact ⟨b, hstep.play, rfl⟩

/-- The orthodox piece set is regular. -/
theorem regular_orthodox : PieceSet.orthodox.Regular :=
  PieceSet.regular_of_free fun _ he => nomatch he

/-- A step keeps the pieces regular, since it promotes to a chessman if at all. -/
theorem Regular.of_step (hreg : g.Regular) (hstep : ply.Step g.board b)
    (hboard : h.board = b) (hset : h.pieceSet = g.pieceSet) : h.Regular := by
  intro id m hm
  rw [movementsOf, hboard, hset] at hm
  cases hq' : b.piece? id with
  | none => simp [hq'] at hm
  | some q' =>
    rw [hq', Option.map_some, Option.getD_some] at hm
    obtain ⟨q, hq, hkind | ⟨source, hpromote, -⟩⟩ := hstep.kind_eq hq'
    · refine hreg id m ?_
      rw [movementsOf, hq, Option.map_some, Option.getD_some, ← hkind]
      exact hm
    · obtain ⟨chessman, hchessman⟩ := hstep.records.promotion _ _ hpromote
      rw [hchessman] at hm
      exact Chessman.regular_of_mem_movements hm

/-- Playing a ply on a steady game gives a kept one. -/
theorem Steady.kept_after (hg : g.Steady) (hreg : g.Regular) (hb : g.board.Sound)
    (hstep : ply.Step g.board b) : (g.after ply b).Kept where
  sound := by
    rw [board_after]
    exact hstep.sound hb
  regular := hreg.of_step hstep (board_after g ply b) (pieceSet_after g ply b)
  fresh := hg.fresh_of_step hreg hb hstep

/-- Playing a ply keeps a game kept. -/
theorem Kept.after (hk : g.Kept) (hstep : ply.Step g.board b) : (g.after ply b).Kept :=
  hk.fresh.steady.kept_after hk.regular hk.sound hstep

/-- Taking back a ply that has just been played restores a kept game. -/
theorem Kept.revert_after (hk : g.Kept) (hstep : ply.Step g.board b) :
    (g.after ply b).revert ply = .ok g := by
  have hk' := hk.after hstep
  rw [revert_eq_map, board_after, hstep.takeBack]
  refine congrArg Except.ok ?_
  have hback : ply.Step g.board (g.after ply b).board := by
    rw [board_after]
    exact hstep
  refine hk.fresh.eq_of_frame (hk'.fresh.steady.fresh_of_step_back hk'.regular hk.sound hback) ?_
  rw [after_eq, after_eq g]

/-- Whether a ply can be played and keeps the mover's king out of check. -/
def isSafe (g : Game) (ply : Ply) : Bool :=
  match g.apply ply with
  | .ok h => !h.inCheck (((g.board.piece? ply.piece).map (·.colour)).getD g.turn)
  | .error _ => false

/-- A recorded ply that can be played is safe when it leaves no check on the mover's king. -/
theorem isSafe_of_step (hstep : ply.Step g.board b) : g.isSafe ply =
    !(g.after ply b).inCheck (((g.board.piece? ply.piece).map (·.colour)).getD g.turn) := by
  rw [isSafe, (apply_eq_ok_iff hstep.records).2 ⟨b, hstep, rfl⟩]

/-- Trying a ply tells whether it is safe and restores the game. -/
theorem Kept.isLegal_eq_ok (hk : g.Kept) (hr : ply.Records g.board) {safe : Bool}
    (h : g.isLegal ply = .ok (safe, h')) : h' = g ∧ safe = g.isSafe ply := by
  obtain ⟨g₁, happly, hrest⟩ := bind_eq_ok_iff.1 h
  obtain ⟨b, hstep, rfl⟩ := (apply_eq_ok_iff hr).1 happly
  obtain ⟨g₂, hrevert, hanswer⟩ := bind_eq_ok_iff.1 hrest
  rw [hk.revert_after hstep] at hrevert
  obtain rfl := Except.ok.inj hrevert
  obtain ⟨rfl, rfl⟩ := Prod.mk.inj (Except.ok.inj hanswer)
  exact ⟨rfl, (isSafe_of_step hstep).symm⟩

/-- A ply that can be played can be tried. -/
theorem Kept.isLegal_of_step (hk : g.Kept) (hstep : ply.Step g.board b) :
    g.isLegal ply = .ok (g.isSafe ply, g) := by
  refine bind_eq_ok_iff.2 ⟨_, (apply_eq_ok_iff hstep.records).2 ⟨b, hstep, rfl⟩, ?_⟩
  refine bind_eq_ok_iff.2 ⟨_, hk.revert_after hstep, ?_⟩
  rw [isSafe_of_step hstep]
  rfl

/-- The legal plies of a piece to some targets. -/
def legalTo (g : Game) (id : PieceId) (targets : List Point) : List Ply :=
  targets.filterMap fun target => (g.plan? id target).filter g.isSafe

/-- The legal plies of a piece. -/
def legalOf (g : Game) (id : PieceId) : List Ply := g.legalTo id (g.destinations id)

/-- The legal plies of a colour. -/
def legal (g : Game) (c : Colour) : List Ply := (g.board.idsOf c).flatMap g.legalOf

/-- Every ply that is planned for a piece on the board can be played. -/
def Playable (g : Game) : Prop := ∀ id ∈ g.board.ids, ∀ target ply,
  g.plan? id target = some ply → ∃ b, ply.Step g.board b

/-- A legal ply of a piece is a plan for it that is safe. -/
theorem mem_legalOf :
    ply ∈ g.legalOf id ↔ ∃ target, g.plan? id target = some ply ∧ g.isSafe ply := by
  simp only [legalOf, legalTo, List.mem_filterMap, Option.filter_eq_some_iff]
  constructor
  · rintro ⟨target, -, hplan⟩
    exact ⟨target, hplan⟩
  · rintro ⟨target, hplan, hsafe⟩
    exact ⟨target, mem_destinations_of_plan? hplan, hplan, hsafe⟩

/-- A legal ply of a colour is a legal ply of one of its pieces on the board. -/
theorem mem_legal {c : Colour} : ply ∈ g.legal c ↔ ∃ id ∈ g.board.idsOf c, ply ∈ g.legalOf id :=
  List.mem_flatMap

/-- A legal ply of a colour starts where its mover stands and goes to a point of the board. -/
theorem Kept.of_mem_legal (hk : g.Kept) {c : Colour} (hply : ply ∈ g.legal c) :
    g.board.on? ply.source = some ply.piece ∧ g.board.owns c ply.piece ∧
      g.board.bounds.contains ply.target ∧ g.plan? ply.piece ply.target = some ply ∧
      g.isSafe ply := by
  obtain ⟨id, hid, hmem⟩ := mem_legal.1 hply
  obtain ⟨target, hplan, hsafe⟩ := mem_legalOf.1 hmem
  obtain ⟨hids, howns⟩ := List.mem_filter.1 hid
  obtain rfl := piece_of_plan? hplan
  obtain rfl := target_of_plan? hplan
  obtain ⟨owner, howner, hsource⟩ := source_of_plan? hplan
  have hon := hk.sound.on?_point hids howner
  exact ⟨hsource ▸ hon, howns, contains_of_plan? hplan, hplan, hsafe⟩

section Enumeration

variable (hk : g.Kept)
include hk

/-- The plies to some targets are tried one by one, and only up to the first legal one if that is
enough. -/
theorem Kept.legalPliesTo_eq_ok {firstOnly : Bool} {targets : List Point} {plies : List Ply}
    (h : legalPliesTo id firstOnly targets g = .ok (plies, h')) :
    h' = g ∧ plies = if firstOnly then (g.legalTo id targets).take 1 else g.legalTo id targets := by
  induction targets generalizing plies h' with
  | nil =>
    obtain ⟨rfl, rfl⟩ := Prod.mk.inj (Except.ok.inj h)
    exact ⟨rfl, by cases firstOnly <;> rfl⟩
  | cons target rest ih =>
    rw [legalPliesTo] at h
    rw [legalTo, List.filterMap_cons]
    cases hplan : g.plan? id target with
    | none =>
      rw [hplan] at h
      exact ih h
    | some ply =>
      simp only [hplan] at h
      obtain ⟨⟨safe, g₁⟩, htry, hrest⟩ := bind_eq_ok_iff.1 h
      obtain ⟨rfl, rfl⟩ := hk.isLegal_eq_ok (records_of_plan? hk.sound hplan) htry
      rw [Option.filter_some]
      cases hsafe : g₁.isSafe ply with
      | false =>
        simp only [hsafe, Bool.false_eq_true, if_false] at hrest ⊢
        exact ih hrest
      | true =>
        simp only [hsafe, if_true] at hrest ⊢
        cases firstOnly with
        | true =>
          obtain ⟨rfl, rfl⟩ := Prod.mk.inj (Except.ok.inj hrest)
          exact ⟨rfl, rfl⟩
        | false =>
          obtain ⟨⟨plies', g₂⟩, hlater, hanswer⟩ := bind_eq_ok_iff.1 hrest
          obtain ⟨rfl, rfl⟩ := ih hlater
          obtain ⟨rfl, rfl⟩ := Prod.mk.inj (Except.ok.inj hanswer)
          exact ⟨rfl, rfl⟩

/-- The legal plies of a piece are found without changing the game. -/
theorem Kept.legalPliesOf_eq_ok {firstOnly : Bool} {plies : List Ply}
    (h : g.legalPliesOf id firstOnly = .ok (plies, h')) :
    h' = g ∧ plies = if firstOnly then (g.legalOf id).take 1 else g.legalOf id :=
  hk.legalPliesTo_eq_ok h

/-- The legal plies of some pieces are found without changing the game. -/
theorem Kept.legalPliesOfAll_eq_ok {ids : List PieceId} {plies : List Ply}
    (h : legalPliesOfAll ids g = .ok (plies, h')) : h' = g ∧ plies = ids.flatMap g.legalOf := by
  induction ids generalizing plies h' with
  | nil =>
    obtain ⟨rfl, rfl⟩ := Prod.mk.inj (Except.ok.inj h)
    exact ⟨rfl, rfl⟩
  | cons id rest ih =>
    obtain ⟨⟨first, g₁⟩, hfirst, hrest⟩ := bind_eq_ok_iff.1 h
    obtain ⟨rfl, rfl⟩ := hk.legalPliesOf_eq_ok hfirst
    obtain ⟨⟨others, g₂⟩, hothers, hanswer⟩ := bind_eq_ok_iff.1 hrest
    obtain ⟨rfl, rfl⟩ := ih hothers
    obtain ⟨rfl, rfl⟩ := Prod.mk.inj (Except.ok.inj hanswer)
    exact ⟨rfl, rfl⟩

/-- The legal plies of a colour are found without changing the game. -/
theorem Kept.legalPlies_eq_ok {c : Colour} {plies : List Ply}
    (h : g.legalPlies c = .ok (plies, h')) : h' = g ∧ plies = g.legal c :=
  hk.legalPliesOfAll_eq_ok h

/-- Trying the plans of a piece on the board raises no fault when all plans can be played. -/
theorem Kept.exists_legalPliesTo (hplay : g.Playable) (hid : id ∈ g.board.ids) (firstOnly : Bool)
    (targets : List Point) : ∃ plies, legalPliesTo id firstOnly targets g = .ok (plies, g) := by
  induction targets with
  | nil => exact ⟨[], rfl⟩
  | cons target rest ih =>
    obtain ⟨plies, hrest⟩ := ih
    rw [legalPliesTo]
    cases hplan : g.plan? id target with
    | none => exact ⟨plies, hrest⟩
    | some ply =>
      obtain ⟨b, hstep⟩ := hplay id hid target ply hplan
      simp only [hk.isLegal_of_step hstep]
      cases g.isSafe ply with
      | false => exact ⟨plies, hrest⟩
      | true =>
        cases firstOnly with
        | true => exact ⟨[ply], rfl⟩
        | false => exact ⟨ply :: plies, bind_eq_ok_iff.2 ⟨_, rfl, bind_eq_ok_iff.2 ⟨_, hrest, rfl⟩⟩⟩

/-- Finding the legal plies of a colour raises no fault when all plans can be played. -/
theorem Kept.legalPlies_of_playable (hplay : g.Playable) (c : Colour) :
    g.legalPlies c = .ok (g.legal c, g) := by
  have hall : ∀ ids : List PieceId, (∀ id ∈ ids, id ∈ g.board.ids) →
      ∃ plies, legalPliesOfAll ids g = .ok (plies, g) := by
    intro ids hids
    induction ids with
    | nil => exact ⟨[], rfl⟩
    | cons id rest ih =>
      obtain ⟨others, hrest⟩ := ih fun i hi => hids i (List.mem_cons_of_mem id hi)
      obtain ⟨first, hfirst⟩ :=
        hk.exists_legalPliesTo hplay (hids id List.mem_cons_self) false (g.destinations id)
      exact ⟨_, bind_eq_ok_iff.2 ⟨_, hfirst, bind_eq_ok_iff.2 ⟨_, hrest, rfl⟩⟩⟩
  obtain ⟨plies, h⟩ := hall (g.board.idsOf c) fun _ hid => List.mem_of_mem_filter hid
  rw [legalPlies, h, (hk.legalPliesOfAll_eq_ok h).2, legal]

/-- Whether some piece has a legal ply is found without changing the game. -/
theorem Kept.anyLegal_eq_ok {ids : List PieceId} {answer : Bool}
    (h : anyLegal ids g = .ok (answer, h')) :
    h' = g ∧ answer = ids.any fun id => !(g.legalOf id).isEmpty := by
  induction ids with
  | nil =>
    obtain ⟨rfl, rfl⟩ := Prod.mk.inj (Except.ok.inj h)
    exact ⟨rfl, rfl⟩
  | cons id rest ih =>
    obtain ⟨⟨plies, g₁⟩, hfirst, hrest⟩ := bind_eq_ok_iff.1 h
    obtain ⟨rfl, rfl⟩ := hk.legalPliesOf_eq_ok hfirst
    rw [List.any_cons]
    cases hlegal : g₁.legalOf id with
    | nil =>
      simp only [hlegal, if_true, List.take_nil, List.isEmpty_nil] at hrest
      exact ih hrest
    | cons ply plies =>
      simp only [hlegal, if_true, List.take_succ_cons, List.isEmpty_cons] at hrest
      obtain ⟨rfl, rfl⟩ := Prod.mk.inj (Except.ok.inj hrest)
      exact ⟨rfl, rfl⟩

/-- Whether a colour has a legal ply is found without changing the game. -/
theorem Kept.hasLegal_eq_ok {c : Colour} {answer : Bool} (h : g.hasLegal c = .ok (answer, h')) :
    h' = g ∧ answer = !(g.legal c).isEmpty := by
  obtain ⟨rfl, rfl⟩ := hk.anyLegal_eq_ok h
  refine ⟨rfl, ?_⟩
  rw [legal, Bool.eq_iff_iff]
  simp [List.any_eq_true]

/-- The legal actions are those of the legal plies, and finding them does not change the game. -/
theorem Kept.legalActions_eq_ok {actions : List Action} (h : g.legalActions = .ok (actions, h')) :
    h' = g ∧ actions = if g.status.isTerminal then [] else
      (g.legal g.turn).map fun p => ⟨g.turn, p.source, p.target⟩ := by
  rw [legalActions] at h
  split at h
  · next hover =>
    obtain ⟨rfl, rfl⟩ := Prod.mk.inj (Except.ok.inj h)
    exact ⟨rfl, by rw [if_pos hover]⟩
  · next hover =>
    obtain ⟨⟨plies, g₁⟩, hplies, hanswer⟩ := bind_eq_ok_iff.1 h
    obtain ⟨rfl, rfl⟩ := hk.legalPlies_eq_ok hplies
    obtain ⟨rfl, rfl⟩ := Prod.mk.inj (Except.ok.inj hanswer)
    exact ⟨rfl, by rw [if_neg hover]⟩

/-- A move map is that of the legal plies, and finding it does not change the game. -/
theorem Kept.moveMap_eq_ok {c : Colour} {moves : MoveMap} (h : g.moveMap c = .ok (moves, h')) :
    h' = g ∧ moves = .ofMoves ((g.legal c).map fun p => (p.piece, p.target)) := by
  obtain ⟨⟨plies, g₁⟩, hplies, hanswer⟩ := bind_eq_ok_iff.1 h
  obtain ⟨rfl, rfl⟩ := hk.legalPlies_eq_ok hplies
  obtain ⟨rfl, rfl⟩ := Prod.mk.inj (Except.ok.inj hanswer)
  exact ⟨rfl, rfl⟩

end Enumeration

section Verdict

/-- Whether a ply goes to one of the targets or takes the attacker. -/
def answers (targets : List Point) (attacker : PieceId) (ply : Ply) : Bool :=
  targets.contains ply.target || ply.taken = some attacker

/-- Whether the checked king of the defender is mated. -/
def mated (g : Game) (defender : Colour) : Bool :=
  match g.kings.get defender with
  | none => false
  | some king =>
    (g.legalOf king).isEmpty &&
      match g.king? defender with
      | none => false
      | some kingPoint =>
        match ((g.threats.get defender.other).threatsAt kingPoint).members with
        | [attacker] =>
          match g.board.piece? attacker with
          | none => true
          | some piece =>
            !((g.board.idsOf defender).filter (· ≠ king)).any fun id => (g.legalOf id).any <|
              answers (piece.point :: (Path.between piece.point kingPoint).interior) attacker
        | _ => true

/-- The status after a colour has played. -/
def judged (g : Game) (mover : Colour) : Status :=
  if g.config.bareKingsDraw && g.bareKings then .stalemate
  else if g.inCheck mover.other then
    if g.mated mover.other then .won mover else .check mover.other
  else if (g.legal mover.other).isEmpty then .stalemate else .ongoing

variable (hk : g.Kept)
include hk

/-- Whether a check can be answered is found without changing the game. -/
theorem Kept.anyAnswers_eq_ok {targets : List Point} {attacker : PieceId} {ids : List PieceId}
    {answer : Bool} (h : anyAnswers targets attacker ids g = .ok (answer, h')) :
    h' = g ∧ answer = ids.any fun id => (g.legalOf id).any (answers targets attacker) := by
  induction ids with
  | nil =>
    obtain ⟨rfl, rfl⟩ := Prod.mk.inj (Except.ok.inj h)
    exact ⟨rfl, rfl⟩
  | cons id rest ih =>
    obtain ⟨⟨plies, g₁⟩, hfirst, hrest⟩ := bind_eq_ok_iff.1 h
    obtain ⟨rfl, rfl⟩ := hk.legalPliesOf_eq_ok hfirst
    rw [List.any_cons]
    change (if (g₁.legalOf id).any (answers targets attacker) then _ else _) = _ at hrest
    cases hany : (g₁.legalOf id).any (answers targets attacker) with
    | true =>
      rw [hany, if_pos rfl] at hrest
      obtain ⟨rfl, rfl⟩ := Prod.mk.inj (Except.ok.inj hrest)
      exact ⟨rfl, rfl⟩
    | false =>
      rw [hany, if_neg Bool.false_ne_true] at hrest
      exact ih hrest

/-- Whether a king is mated is found without changing the game. -/
theorem Kept.isMate_eq_ok {defender : Colour} {answer : Bool}
    (h : g.isMate defender = .ok (answer, h')) : h' = g ∧ answer = g.mated defender := by
  rw [isMate] at h
  rw [mated]
  cases hking : g.kings.get defender with
  | none =>
    simp only [hking] at h ⊢
    obtain ⟨rfl, rfl⟩ := Prod.mk.inj (Except.ok.inj h)
    exact ⟨rfl, rfl⟩
  | some king =>
    simp only [hking] at h ⊢
    obtain ⟨⟨escapes, g₁⟩, hescapes, hrest⟩ := bind_eq_ok_iff.1 h
    obtain ⟨rfl, rfl⟩ := hk.legalPliesOf_eq_ok hescapes
    cases hlegal : g₁.legalOf king with
    | cons ply plies =>
      simp only [hlegal, if_true, List.take_succ_cons, List.isEmpty_cons, Bool.not_false] at hrest
      obtain ⟨rfl, rfl⟩ := Prod.mk.inj (Except.ok.inj hrest)
      exact ⟨rfl, rfl⟩
    | nil =>
      simp only [hlegal, if_true, List.take_nil, List.isEmpty_nil, Bool.not_true,
        Bool.false_eq_true, if_false] at hrest
      rw [List.isEmpty_nil, Bool.true_and]
      cases hpoint : g₁.king? defender with
      | none =>
        simp only [hpoint] at hrest ⊢
        obtain ⟨rfl, rfl⟩ := Prod.mk.inj (Except.ok.inj hrest)
        exact ⟨rfl, rfl⟩
      | some kingPoint =>
        simp only [hpoint] at hrest ⊢
        cases hmembers : ((g₁.threats.get defender.other).threatsAt kingPoint).members with
        | nil =>
          simp only [hmembers] at hrest ⊢
          obtain ⟨rfl, rfl⟩ := Prod.mk.inj (Except.ok.inj hrest)
          exact ⟨rfl, rfl⟩
        | cons attacker others =>
          cases others with
          | cons second others =>
            simp only [hmembers] at hrest ⊢
            obtain ⟨rfl, rfl⟩ := Prod.mk.inj (Except.ok.inj hrest)
            exact ⟨rfl, rfl⟩
          | nil =>
            simp only [hmembers] at hrest ⊢
            cases hpiece : g₁.board.piece? attacker with
            | none =>
              simp only [hpiece] at hrest ⊢
              obtain ⟨rfl, rfl⟩ := Prod.mk.inj (Except.ok.inj hrest)
              exact ⟨rfl, rfl⟩
            | some piece =>
              simp only [hpiece] at hrest ⊢
              obtain ⟨⟨answered, g₂⟩, hanswered, hanswer⟩ := bind_eq_ok_iff.1 hrest
              obtain ⟨rfl, rfl⟩ := hk.anyAnswers_eq_ok hanswered
              obtain ⟨rfl, rfl⟩ := Prod.mk.inj (Except.ok.inj hanswer)
              exact ⟨rfl, rfl⟩

/-- The verdict is found without changing the game. -/
theorem Kept.verdict_eq_ok {mover : Colour} {status : Status}
    (h : g.verdict mover = .ok (status, h')) : h' = g ∧ status = g.judged mover := by
  rw [verdict] at h
  rw [judged]
  split at h
  · next hbare =>
    obtain ⟨rfl, rfl⟩ := Prod.mk.inj (Except.ok.inj h)
    exact ⟨rfl, by rw [if_pos hbare]⟩
  · next hbare =>
    rw [if_neg hbare]
    split at h
    · next hcheck =>
      rw [if_pos hcheck]
      obtain ⟨⟨mate, g₁⟩, hmate, hanswer⟩ := bind_eq_ok_iff.1 h
      obtain ⟨rfl, rfl⟩ := hk.isMate_eq_ok hmate
      obtain ⟨rfl, rfl⟩ := Prod.mk.inj (Except.ok.inj hanswer)
      exact ⟨rfl, rfl⟩
    · next hcheck =>
      rw [if_neg hcheck]
      obtain ⟨⟨free, g₁⟩, hfree, hanswer⟩ := bind_eq_ok_iff.1 h
      obtain ⟨rfl, rfl⟩ := hk.hasLegal_eq_ok hfree
      obtain ⟨rfl, rfl⟩ := Prod.mk.inj (Except.ok.inj hanswer)
      exact ⟨rfl, by cases (g₁.legal mover.other).isEmpty <;> rfl⟩

end Verdict

end Game

end VariantChess
