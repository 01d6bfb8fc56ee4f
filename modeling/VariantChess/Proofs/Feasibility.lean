import VariantChess.Proofs.Chronicle
import VariantChess.Proofs.PlainPlan

/-!
# Which planned plies can be carried out

A plan checks its side effect against the board before the ply, and playing carries the side effect
out after the capture and the step. For a removal this makes no difference, since it has to be off
the target. A relocation may pick up a piece on the target, though, and that piece has been captured
by then. This is the only way in which trying a planned ply can fail: so finding legal actions and
move maps fails when a piece of the colour has such a plan, and only then.
-/

namespace VariantChess

namespace Ply

variable {p : Ply} {b b' : Board}

/-- Whether a ply relocates the very piece that it captures. -/
def relocatesCaptured (p : Ply) : Bool :=
  match p.effect with
  | some (.relocate id ..) => p.captured = some id
  | _ => false

/-- A ply does not relocate the piece that it captures if it captures nothing. -/
theorem relocatesCaptured_of_captured (h : p.captured = none) : p.relocatesCaptured = false := by
  unfold relocatesCaptured
  split
  · rw [h]
    rfl
  · rfl

/-- A ply that can be played does not relocate the piece that it captures. -/
theorem Step.relocatesCaptured_eq_false (h : p.Step b b') (hb : b.Sound) :
    p.relocatesCaptured = false := by
  obtain ⟨q, b₁, b₂, -, -, -, hlift, hmove, -, -, hrecords, heffect⟩ := h.legs
  unfold relocatesCaptured
  split
  · next id source target first he =>
    rw [decide_eq_false_iff_not]
    intro hcaptured
    rw [RecordsEffect, he] at hrecords
    rw [playEffect, he] at heffect
    rw [hcaptured] at hlift
    -- the captured piece stands nowhere after the capture, and nowhere after the step
    have hgone := Board.not_on?_of_move hrecords.1 (hb.not_on?_of_lift hlift) hmove
    obtain ⟨_, hrelocate, -⟩ := map_eq_ok_iff.1 heffect
    obtain ⟨_, -, hstand, -⟩ := Board.move_view hrelocate
    exact hgone _ hstand
  · rfl

end Ply

/-- Piece sets in which no movement that can take a piece relocates one. -/
def PieceSet.Discreet (set : PieceSet) : Prop := ∀ kind, ∀ m ∈ set.movements kind,
  m.isAttack → ∀ source goal, m.followUp ≠ some (.relocate source goal)

/-- The orthodox piece set is discreet: only castling relocates a piece, and it goes to an empty
point. -/
theorem discreet_orthodox : PieceSet.orthodox.Discreet := by
  have hcastling : ∀ c : Chessman, ∀ m ∈ c.movements, m.isAttack = true →
      m.followUp = none ∨ m.followUp = some (.promote .queen) := by
    intro c
    cases c <;> decide +kernel
  intro kind m hm hattack source goal hf
  cases kind with
  | standard c => rcases hcastling c m hm hattack with h | h <;> rw [hf] at h <;> cases h
  | custom code => cases hm

namespace Game

variable {g : Game} {id : PieceId} {target : Point} {ply : Ply} {c : Colour}

/-- No planned ply of some pieces relocates the piece that it captures. -/
def Feasible (g : Game) (ids : List PieceId) : Prop :=
  ∀ id ∈ ids, ∀ target ply, g.plan? id target = some ply → ply.relocatesCaptured = false

section Board

variable (hb : g.board.Sound) (hid : id ∈ g.board.ids)
include hb hid

/-- On a sound board the planned ply of a piece on the board can be played exactly if it does not
relocate the piece that it captures. -/
theorem exists_step_iff (hplan : g.plan? id target = some ply) :
    (∃ b, ply.Step g.board b) ↔ ply.relocatesCaptured = false := by
  constructor
  · rintro ⟨b, hstep⟩
    exact hstep.relocatesCaptured_eq_false hb
  · intro hfree
    obtain ⟨owner, howner, hsource⟩ := source_of_plan? hplan
    refine exists_step_of_plan? hb hplan (hsource ▸ hb.on?_point hid howner) ?_
    intro i source goal first he hcaptured
    rw [Ply.relocatesCaptured, he, hcaptured, decide_eq_false_iff_not] at hfree
    exact hfree rfl

/-- On a sound board the planned ply of a piece on the board can be tried exactly if it does not
relocate the piece that it captures. -/
theorem exists_isLegal_iff (hplan : g.plan? id target = some ply) :
    (∃ r, g.isLegal ply = .ok r) ↔ ply.relocatesCaptured = false := by
  rw [← exists_step_iff hb hid hplan]
  constructor
  · rintro ⟨r, htry⟩
    obtain ⟨h, happly, -⟩ := bind_eq_ok_iff.1 htry
    obtain ⟨b, hstep, -⟩ := (apply_eq_ok_iff (records_of_plan? hb hplan)).1 happly
    exact ⟨b, hstep⟩
  · rintro ⟨b, hstep⟩
    refine exists_bind_eq_ok ⟨_, (apply_eq_ok_iff hstep.records).2 ⟨b, hstep, rfl⟩⟩ ?_
    intro h happly
    obtain ⟨b', hstep', rfl⟩ := (apply_eq_ok_iff hstep.records).1 happly
    refine exists_bind_eq_ok ?_ fun _ _ => ⟨_, rfl⟩
    rw [revert_eq_map, board_after]
    exact exists_map_eq_ok ⟨_, hstep'.takeBack⟩ _

end Board

/-- A property of games that survives trying a planned ply, and under which the plans of some pieces
on the board can be carried out. -/
structure Withstands (P : Game → Prop) (ids : List PieceId) : Prop where
  sound : ∀ {g}, P g → g.board.Sound
  standing : ∀ {g}, P g → ∀ id ∈ ids, id ∈ g.board.ids
  feasible : ∀ {g}, P g → g.Feasible ids
  tried : ∀ {g h id target ply safe}, P g → g.plan? id target = some ply →
    g.isLegal ply = .ok (safe, h) → P h

namespace Withstands

variable {P : Game → Prop} {ids : List PieceId}

/-- Trying the plans of one of the pieces raises no fault. -/
theorem exists_legalPliesTo (hP : Withstands P ids) (hid : id ∈ ids) (hg : P g)
    (targets : List Point) : ∃ plies h, legalPliesTo id false targets g = .ok (plies, h) ∧ P h := by
  induction targets generalizing g with
  | nil => exact ⟨[], g, rfl, hg⟩
  | cons target rest ih =>
    rw [legalPliesTo]
    cases hplan : g.plan? id target with
    | none => exact ih hg
    | some ply =>
      obtain ⟨⟨safe, g₁⟩, htry⟩ := (exists_isLegal_iff (hP.sound hg) (hP.standing hg id hid) hplan).2
        (hP.feasible hg id hid target ply hplan)
      obtain ⟨plies, h, hrest, hh⟩ := ih (hP.tried hg hplan htry)
      cases safe with
      | false => exact ⟨plies, h, bind_eq_ok_iff.2 ⟨_, htry, hrest⟩, hh⟩
      | true =>
        refine ⟨ply :: plies, h, bind_eq_ok_iff.2 ⟨_, htry, ?_⟩, hh⟩
        exact bind_eq_ok_iff.2 ⟨_, hrest, rfl⟩

/-- Finding the legal plies of the pieces raises no fault. -/
theorem exists_legalPliesOfAll (hP : Withstands P ids) (hg : P g) :
    ∃ r, legalPliesOfAll ids g = .ok r := by
  suffices hall : ∀ some, (∀ id ∈ some, id ∈ ids) → ∀ g, P g →
      ∃ r, legalPliesOfAll some g = .ok r from hall ids (fun _ => id) g hg
  intro some
  induction some with
  | nil => exact fun _ g _ => ⟨([], g), rfl⟩
  | cons id rest ih =>
    intro hsome g hg
    obtain ⟨first, g₁, hfirst, hg₁⟩ :=
      hP.exists_legalPliesTo (hsome id List.mem_cons_self) hg (g.destinations id)
    obtain ⟨others, hothers⟩ := ih (fun i hi => hsome i (List.mem_cons_of_mem id hi)) g₁ hg₁
    exact ⟨_, bind_eq_ok_iff.2 ⟨_, hfirst, bind_eq_ok_iff.2 ⟨_, hothers, rfl⟩⟩⟩

/-- Trying plies on a sound board changes the threat maps at most, so it is enough that the plans can
be carried out whatever the threat maps. -/
theorem of_threats (hb : g.board.Sound) (hids : ∀ id ∈ ids, id ∈ g.board.ids)
    (hplans : ∀ threats, ({ g with threats } : Game).Feasible ids) :
    Withstands (fun h => h = { g with threats := h.threats }) ids where
  sound hh := by
    rw [hh]
    exact hb
  standing hh := by
    rw [hh]
    exact hids
  feasible hh := by
    rw [hh]
    exact hplans _
  tried {h k _ _ _ _} hh hplan htry := by
    have hboard : h.board = g.board := by rw [hh]
    rw [SameFrame.tries.isLegal hplan htry, tries_board.isLegal hplan htry (hboard ▸ hb), hh]

/-- Trying plies changes nothing in a kept game, so it is enough that its own plans can be carried
out. -/
theorem of_kept (hk : g.Kept) (hids : ∀ id ∈ ids, id ∈ g.board.ids) (hplans : g.Feasible ids) :
    Withstands (· = g) ids where
  sound hh := hh ▸ hk.sound
  standing hh := hh ▸ hids
  feasible hh := hh ▸ hplans
  tried := by
    rintro _ h id target ply safe rfl hplan htry
    exact (hk.isLegal_eq_ok (records_of_plan? hk.sound hplan) htry).1

end Withstands

/-- A move map is found exactly if the legal plies of the colour are. -/
theorem exists_moveMap_iff :
    (∃ r, g.moveMap c = .ok r) ↔ ∃ r, legalPliesOfAll (g.board.idsOf c) g = .ok r := by
  constructor
  · rintro ⟨r, hmoves⟩
    obtain ⟨plies, hplies, -⟩ := bind_eq_ok_iff.1 hmoves
    exact ⟨plies, hplies⟩
  · intro hplies
    exact exists_bind_eq_ok hplies fun _ _ => ⟨_, rfl⟩

/-- The legal actions are found if those plies of the side to move are. -/
theorem exists_legalActions (hplies : ∃ r, legalPliesOfAll (g.board.idsOf g.turn) g = .ok r) :
    ∃ r, g.legalActions = .ok r := by
  rw [legalActions]
  split
  · exact ⟨_, rfl⟩
  · exact exists_bind_eq_ok hplies fun _ _ => ⟨_, rfl⟩

/-- With a discreet piece set all plans can be carried out, since a piece on the target is taken by
an attack. -/
theorem feasible_of_discreet (hset : g.pieceSet.Discreet) (hb : g.board.Sound)
    (ids : List PieceId) : g.Feasible ids := by
  intro id _ target ply hplan
  obtain ⟨owner, s, m, howner, hs, hm, hmem, -, hply⟩ := exists_of_plan? hplan
  rw [movementsOf_eq_of_piece? howner] at hm
  have hboard : s.board = g.board := by rw [eq_of_situation? hs howner]
  have heffect : ply.effect = m.followUp.bind (g.sideEffect? s target) := by rw [hply, plyTo]
  cases htarget : g.board.on? target with
  | none =>
    refine Ply.relocatesCaptured_of_captured ?_
    rw [hply, plyTo, htarget]
  | some i =>
    obtain ⟨q, hq, -⟩ := hb target i htarget
    have hpiece : s.board.pieceAt? target = some q := by
      rw [hboard, Board.pieceAt?, htarget, Option.bind_some, hq]
    have hattack := (Movement.isAttack_of_occupied hmem hpiece).1
    unfold Ply.relocatesCaptured
    split
    · next he =>
      obtain ⟨f, hf, hside⟩ := Option.bind_eq_some_iff.1 (heffect.symm.trans he)
      obtain ⟨source, goal, rfl⟩ := followUp_of_sideEffect? hside
      exact absurd hf (hset _ m hm hattack source goal)
    · rfl

section Kept

variable (hk : g.Kept)
include hk

/-- If the plies of a piece to some targets are found, its plans for these can be carried out. -/
theorem Kept.relocatesCaptured_of_legalPliesTo (hid : id ∈ g.board.ids) {targets : List Point}
    (h : ∃ r, legalPliesTo id false targets g = .ok r) (htarget : target ∈ targets)
    (hplan : g.plan? id target = some ply) : ply.relocatesCaptured = false := by
  obtain ⟨r, h⟩ := h
  induction targets generalizing r with
  | nil => exact absurd htarget List.not_mem_nil
  | cons first rest ih =>
    rw [legalPliesTo] at h
    cases hfirst : g.plan? id first with
    | none =>
      rw [hfirst] at h
      rcases List.mem_cons.1 htarget with rfl | hrest
      · rw [hplan] at hfirst
        cases hfirst
      · exact ih hrest r h
    | some other =>
      rw [hfirst] at h
      obtain ⟨⟨safe, g₁⟩, htry, hlater⟩ := bind_eq_ok_iff.1 h
      rcases List.mem_cons.1 htarget with rfl | hrest
      · obtain rfl := Option.some.inj (hplan.symm.trans hfirst)
        exact (exists_isLegal_iff hk.sound hid hplan).1 ⟨_, htry⟩
      · obtain ⟨rfl, -⟩ := hk.isLegal_eq_ok (records_of_plan? hk.sound hfirst) htry
        cases safe with
        | false => exact ih hrest r hlater
        | true =>
          obtain ⟨plies, hplies, -⟩ := bind_eq_ok_iff.1 hlater
          exact ih hrest plies hplies

/-- If the legal plies of some pieces are found, their plans can be carried out. -/
theorem Kept.feasible_of_legalPliesOfAll {ids : List PieceId}
    (hids : ∀ id ∈ ids, id ∈ g.board.ids) (h : ∃ r, legalPliesOfAll ids g = .ok r) :
    g.Feasible ids := by
  obtain ⟨r, h⟩ := h
  induction ids generalizing r with
  | nil => exact fun _ hid => absurd hid List.not_mem_nil
  | cons id rest ih =>
    obtain ⟨⟨first, g₁⟩, hfirst, hlater⟩ := bind_eq_ok_iff.1 h
    obtain ⟨others, hothers, -⟩ := bind_eq_ok_iff.1 hlater
    obtain ⟨rfl, -⟩ := hk.legalPliesOf_eq_ok hfirst
    intro i hi target ply hplan
    rcases List.mem_cons.1 hi with rfl | hrest
    · exact hk.relocatesCaptured_of_legalPliesTo (hids i hi) ⟨_, hfirst⟩
        (mem_destinations_of_plan? hplan) hplan
    · exact ih (fun i hi => hids i (List.mem_cons_of_mem id hi)) others hothers i hrest target ply
        hplan

/-- In a kept game a move map is found exactly if the plans of the colour can be carried out. -/
theorem Kept.exists_moveMap_iff_feasible :
    (∃ r, g.moveMap c = .ok r) ↔ g.Feasible (g.board.idsOf c) := by
  have hids : ∀ id ∈ g.board.idsOf c, id ∈ g.board.ids := fun _ => List.mem_of_mem_filter
  rw [exists_moveMap_iff]
  exact ⟨hk.feasible_of_legalPliesOfAll hids,
    fun hplans => (Withstands.of_kept hk hids hplans).exists_legalPliesOfAll rfl⟩

end Kept

variable {g₀ : Game} {set : PieceSet} {layout : List Char} {config : GameConfig}
  {ops : List Operation}

/-- In every game of a run, from any layout and with any piece set, the planned ply of a piece on the
board can be tried exactly if it does not relocate the piece that it captures: every other side
effect that cannot be carried out is skipped by the plan. So the legal actions and the move map of a
colour are found if no piece of the colour has such a plan, whatever the threat maps; and with a
regular piece set the move map is found exactly if none has such a plan in this game. -/
theorem feasible_of_run (hstart : start set layout config = .ok g₀) (hrun : g₀.run ops = .ok g) :
    (∀ id ∈ g.board.ids, ∀ target ply, g.plan? id target = some ply →
      ((∃ r, g.isLegal ply = .ok r) ↔ ply.relocatesCaptured = false)) ∧
      (∀ c, (∀ threats, ({ g with threats } : Game).Feasible (g.board.idsOf c)) →
        (∃ r, g.moveMap c = .ok r) ∧ (c = g.turn → ∃ r, g.legalActions = .ok r)) ∧
      (set.Regular → ∀ c,
        (∃ r, g.moveMap c = .ok r) ↔ g.Feasible (g.board.idsOf c)) := by
  obtain ⟨board, first, hread, -, -, -, hg⟩ := chronicled_of_run hstart hrun
  have hb : g.board.Sound := hg.played.sound (Board.of_read hread).1
  refine ⟨fun id hid target ply => exists_isLegal_iff hb hid, fun c hplans => ?_,
    fun hset c => ?_⟩
  · have hplies : ∃ r, legalPliesOfAll (g.board.idsOf c) g = .ok r :=
      (Withstands.of_threats hb (fun _ => List.mem_of_mem_filter) hplans).exists_legalPliesOfAll rfl
    exact ⟨exists_moveMap_iff.2 hplies, fun hturn => exists_legalActions (hturn ▸ hplies)⟩
  · have h₀ := opening_of_regular hset hstart
    exact ((h₀.reached_of_run hrun).kept h₀).exists_moveMap_iff_feasible

/-- The chessmen have no such plans, so their move maps and actions are found. -/
theorem feasible_of_run_small : ∃ g₀ g,
    start .orthodox "w wKa1 wRb1 bKc3".toList smallConfig = .ok g₀ ∧
      g₀.run [.update ⟨.white, .ofCoords 1 0, .ofCoords 1 2⟩] = .ok g ∧
      (∀ c, ∃ r, g.moveMap c = .ok r) ∧ ∃ r, g.legalActions = .ok r := by
  obtain ⟨g₀, g, hstart, hrun⟩ := exists_run .orthodox "w wKa1 wRb1 bKc3".toList smallConfig
    [.update ⟨.white, .ofCoords 1 0, .ofCoords 1 2⟩] (by decide +kernel)
  obtain ⟨board, first, hread, -, -, -, hg⟩ := chronicled_of_run hstart hrun
  have hset : g.pieceSet = .orthodox :=
    hg.settings.pieceSet.trans (of_start regular_orthodox hstart).1
  have hplans : ∀ threats c, ({ g with threats } : Game).Feasible (g.board.idsOf c) :=
    fun threats c => feasible_of_discreet (g := { g with threats }) (hset.symm ▸ discreet_orthodox)
      (hg.played.sound (Board.of_read hread).1) _
  obtain ⟨-, hfound, -⟩ := feasible_of_run hstart hrun
  exact ⟨g₀, g, hstart, hrun, fun c => (hfound c fun threats => hplans threats c).1,
    (hfound g.turn fun threats => hplans threats g.turn).2 rfl⟩

/-- A piece that steps to the front, taking what stands there, and pushes the piece on its target
one point further. -/
def shover : CustomPiece where
  value := 3
  movements := [(Movement.jump Orthodox.pawnStep.template).followedBy
    (.relocate .destination (Location.destination.offset 0 1))]

/-- The chessmen and the shover. -/
def shoverSet : PieceSet := ⟨.insert .empty "shover" shover⟩

/-- A knight stands in front of a shover. Taking it is planned, with the knight relocated after its
capture, and then neither the legal actions nor the move map are found, though both kings stand on
the board. -/
theorem misplaced_of_shover : ∃ g₀ ply,
    PieceSet.orthodox.register "shover" shover = .ok shoverSet ∧
      start shoverSet "w wKa1 w~shover~b1 bNb2 bKc3".toList smallConfig = .ok g₀ ∧
      g₀.king? .white = some (.ofCoords 0 0) ∧ g₀.king? .black = some (.ofCoords 2 2) ∧
      g₀.plan? ⟨1⟩ (.ofCoords 1 1) = some ply ∧
      g₀.isLegal ply = .error (.misplaced ⟨2⟩) ∧
      g₀.legalActions = .error (.misplaced ⟨2⟩) ∧
      g₀.moveMap .white = .error (.misplaced ⟨2⟩) := by
  have hregister : PieceSet.orthodox.register "shover" shover = .ok shoverSet := by decide +kernel
  obtain ⟨g₀, g, hstart, hrun, htest⟩ := exists_run_passing shoverSet
    "w wKa1 w~shover~b1 bNb2 bKc3".toList smallConfig []
    (fun _ g => g.king? .white = some (.ofCoords 0 0) && g.king? .black = some (.ofCoords 2 2) &&
      ((g.plan? ⟨1⟩ (.ofCoords 1 1)).any fun ply => g.isLegal ply = .error (.misplaced ⟨2⟩)) &&
        g.legalActions = .error (.misplaced ⟨2⟩) && g.moveMap .white = .error (.misplaced ⟨2⟩))
    (by decide +kernel)
  obtain rfl := Except.ok.inj hrun
  simp only [Bool.and_eq_true, decide_eq_true_eq] at htest
  obtain ⟨⟨⟨⟨hwhite, hblack⟩, hplan⟩, hactions⟩, hmoves⟩ := htest
  obtain ⟨ply, hplan, htry⟩ := (Option.any_eq_true _ _).1 hplan
  exact ⟨g₀, ply, hregister, hstart, hwhite, hblack, hplan, of_decide_eq_true htry, hactions,
    hmoves⟩

end Game

end VariantChess
