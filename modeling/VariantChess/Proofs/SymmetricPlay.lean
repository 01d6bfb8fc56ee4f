import VariantChess.Proofs.SymmetricPositions
import VariantChess.Proofs.UndoRedo

/-!
# Play under a symmetry

A layout whose board is the image of that of a standard opening starts its twin. Two games are in
step when they are reached from twins and when their logs are images. A line and the line with the
image of its log lead to images, so games in step are images at any time; updates, undoing and
redoing keep them in step and answer alike.
-/

namespace VariantChess

namespace Game

/-- An action without a ply is rejected, and nothing changes. -/
theorem update_of_vet {g : Game} {a : Action} {e : Rejection} (hvet : g.vet a = .error e) :
    g.update a = .ok (.error e, g) := by
  rw [update, hvet]

/-- What is rejected although there is a ply for it leaves the own king in check. -/
theorem eq_kingInCheck_of_vet {g h : Game} {a : Action} {ply : Ply} {e : Rejection}
    (hvet : g.vet a = .ok ply) (hupdate : g.update a = .ok (.error e, h)) : e = .kingInCheck := by
  rw [update, hvet] at hupdate
  obtain ⟨g₁, -, hrest⟩ := bind_eq_ok_iff.1 hupdate
  split at hrest
  · obtain ⟨g₂, -, hanswer⟩ := bind_eq_ok_iff.1 hrest
    exact (Except.error.inj (Prod.mk.inj (Except.ok.inj hanswer)).1).symm
  · obtain ⟨r, -, hanswer⟩ := bind_eq_ok_iff.1 hrest
    cases (Prod.mk.inj (Except.ok.inj hanswer)).1

end Game

namespace Game

variable {g₀ g h : Game} {n : Nat} {answer : Status}

/-- Undoing answers with the status that it leads to, unless there was nothing to undo. -/
theorem Reached.answer_of_undo (h₀ : g₀.Opening) (hg : Reached g₀ g) {save : Bool}
    (hundo : g.undo n save = .ok (answer, h)) :
    answer = if min n g.log.length = 0 then .unchanged else h.status := by
  obtain ⟨k, hplies, -⟩ := hg.toOnLine.undoPlies_eq_ok h₀ save n
  obtain ⟨⟨count, g₁⟩, hplies', hrest⟩ := bind_eq_ok_iff.1 hundo
  obtain ⟨rfl, rfl⟩ := Prod.mk.inj (Except.ok.inj (hplies.symm.trans hplies'))
  dsimp only at hrest
  split at hrest <;> obtain ⟨rfl, rfl⟩ := Prod.mk.inj (Except.ok.inj hrest)
  · next hcount => rw [if_pos hcount]
  · next hcount => rw [if_neg hcount]

/-- Redoing answers with the status that it leads to, unless there was nothing to redo. -/
theorem Reached.answer_of_redo (h₀ : g₀.Opening) (hg : Reached g₀ g)
    (hredo : g.redo n = .ok (answer, h)) :
    answer = if min n g.log.undone.length = 0 then .unchanged else h.status := by
  obtain ⟨k, hplies, -⟩ := hg.redoPlies_eq_ok h₀ n
  obtain ⟨⟨count, g₁⟩, hplies', hrest⟩ := bind_eq_ok_iff.1 hredo
  obtain ⟨rfl, rfl⟩ := Prod.mk.inj (Except.ok.inj (hplies.symm.trans hplies'))
  dsimp only at hrest
  split at hrest <;> obtain ⟨rfl, rfl⟩ := Prod.mk.inj (Except.ok.inj hrest)
  · next hcount => rw [if_pos hcount]
  · next hcount => rw [if_neg hcount]

end Game

namespace Symmetry

variable {bounds : Bounds} {T : Symmetry bounds} {g₀ g₀' g g' : Game}

/-- Standard openings that are images of each other. -/
structure Twins (T : Symmetry bounds) (g₀ g₀' : Game) : Prop where
  fits : T.FitsChessmen
  opening : g₀.Opening
  opening' : g₀'.Opening
  standard : g₀.Standard
  standard' : g₀'.Standard
  position : T.ImagePosition g₀ g₀'
  initial : g₀'.initial = T.status g₀.initial

/-- Two games that are reached from openings with corresponding logs. -/
structure InStep (T : Symmetry bounds) (g₀ g₀' g g' : Game) : Prop where
  reached : Game.Reached g₀ g
  reached' : Game.Reached g₀' g'
  log : g'.log = T.log g.log

/-- The chessmen have chessmen as images. -/
theorem ImageBoard.standard {b b' : Board} (h : T.ImageBoard b b') (hkinds : b.Standard) :
    b'.Standard := by
  intro id' q' hq'
  obtain ⟨id, rfl⟩ := T.id.surjective id'
  rw [h.piece?_eq, Option.map_eq_some_iff] at hq'
  obtain ⟨q, hq, rfl⟩ := hq'
  exact hkinds id q hq

section Openings

variable {set : PieceSet} {layout layout' : List Char} {b b' : Board} {turn turn' : Colour}

/-- The kings of boards that are read from layouts are found on images. -/
theorem ImageBoard.findKing_eq (h : T.ImageBoard b b')
    (hread : Board.read set bounds layout = .ok (b, turn))
    (hread' : Board.read set bounds layout' = .ok (b', turn')) (c : Colour) :
    Game.findKing b' (T.colour c) = (Game.findKing b c).map T.id := by
  obtain ⟨hsound, hfull, hsingle⟩ := Board.of_read hread
  obtain ⟨hsound', hfull', hsingle'⟩ := Board.of_read hread'
  refine Option.ext fun i' => ?_
  obtain ⟨i, rfl⟩ := T.id.surjective i'
  rw [Option.map_eq_some_iff, Game.findKing_eq_some_iff hsound' hfull' hsingle', h.piece?_eq]
  simp [Game.findKing_eq_some_iff hsound hfull hsingle]

/-- A layout whose board is the image of that of a standard opening starts its twin. -/
theorem exists_twin {config : GameConfig} {T : Symmetry config.bounds} (hT : T.FitsChessmen)
    (h : T.ImageBoard b b') (hstart : Game.start set layout config = .ok g₀)
    (hread : Board.read set config.bounds layout = .ok (b, turn))
    (hread' : Board.read set config.bounds layout' = .ok (b', T.colour turn))
    (hkinds : b.Standard) (hcalm : g₀.inCheck g₀.turn.other = false) :
    ∃ g₀', Game.start set layout' config = .ok g₀' ∧ T.Twins g₀ g₀' := by
  have hkinds' := h.standard hkinds
  have hreg := Game.regular_setUp set config turn hkinds
  have hreg' := Game.regular_setUp set config (T.colour turn) hkinds'
  have h₀ := Game.opening_of_start hstart hread hreg
  have hg₀ := Game.standard_of_start hstart hread hkinds hcalm
  have hsame := Game.samePosition_of_start hstart hread hreg
  have hposition : T.ImagePosition (Game.setUp set config b turn)
      (Game.setUp set config b' (T.colour turn)) := by
    refine .setUp h (h.findKing_eq hread hread') (hT.fitsGame ?_)
    rw [Game.board_setUp]
    exact hkinds
  have hcalm' : (Game.setUp set config b' (T.colour turn)).inCheck (T.colour turn).other =
      false := by
    rw [hsame.inCheck_eq, hsame.turn, Game.turn_setUp] at hcalm
    rw [← T.colour_other, hposition.inCheck_eq, hcalm]
  obtain ⟨g₀', hstart'⟩ := Game.exists_start hread' hkinds' hcalm'
  have h₀' := Game.opening_of_start hstart' hread' hreg'
  have hsame' := Game.samePosition_of_start hstart' hread' hreg'
  have hg₀' := (Game.standard_setUp hread' hkinds' hcalm').of_samePosition hsame'
  have himages := hposition.of_samePosition hsame hsame'
  refine ⟨g₀', hstart', hT, h₀, h₀', hg₀, hg₀', himages, ?_⟩
  rw [Game.initial_of_start hstart hread hreg, Game.initial_of_start hstart' hread' hreg',
    himages.judged_eq hT hg₀.kinds hg₀ hg₀' h₀.kept h₀'.kept]
  cases g₀.judged g₀.turn.other <;> rfl

end Openings

/-- Corresponding lines from twins lead to images. -/
theorem Twins.of_line (h₀ : T.Twins g₀ g₀') {log : List LogEntry} (hl : Game.Line g₀ log g)
    (hl' : Game.Line g₀' (log.map T.entry) g') : T.ImagePosition g g' := by
  induction log generalizing g g' with
  | nil =>
    rw [hl.eq_start, hl'.eq_start]
    exact h₀.position
  | cons e earlier ih =>
    obtain ⟨k, hk, -, hvet, -, hf, -⟩ := hl.cases_next h₀.opening
    obtain ⟨k', hk', -, -, -, hf', -⟩ := hl'.cases_next h₀.opening'
    have hkinds := (Game.Standard.of_line h₀.opening h₀.standard hk).kinds
    exact (ih hk hk').follows h₀.fits hkinds hvet hf hf'

/-- Twins are in step. -/
theorem Twins.inStep (h₀ : T.Twins g₀ g₀') : T.InStep g₀ g₀' g₀ g₀' := by
  refine ⟨h₀.opening.reached, h₀.opening'.reached, ?_⟩
  rw [h₀.opening.log, h₀.opening'.log]
  rfl

/-- Undoing entries of a log and of its image goes back to a log and its image. -/
theorem log_undoBy (save : Bool) (n : Nat) (l : Log) :
    (T.log l).undoBy save n = T.log (l.undoBy save n) := by
  unfold Log.undoBy
  split
  · simp [log, List.map_drop, List.map_take]
  · split
    · rfl
    · simp [log, List.map_drop]

theorem log_redoBy (n : Nat) (l : Log) : (T.log l).redoBy n = T.log (l.redoBy n) := by
  simp [Log.redoBy, log, List.map_drop, List.map_take]

/-- The image of an operation. -/
def operation : Operation → Operation
  | .update a => .update (T.action a)
  | .submit a => .submit (T.action a)
  | .moveMap c => .moveMap (T.colour c)
  | o => o

/-- The image of the result of an update. -/
def result (r : Except Rejection Status) : Except Rejection Status :=
  (r.map T.status).mapError T.rejection

namespace InStep

variable (h₀ : T.Twins g₀ g₀') (h : T.InStep g₀ g₀' g g')
include h₀ h

theorem kept : g.Kept := h.reached.kept h₀.opening

theorem kept' : g'.Kept := h.reached'.kept h₀.opening'

theorem standard : g.Standard := h.reached.standard h₀.opening h₀.standard

/-- Games in step are images of each other. -/
theorem position : T.ImagePosition g g' := by
  have hcommitted : g'.log.committed = g.log.committed.map T.entry := by rw [h.log]; rfl
  exact (h₀.of_line h.reached.line (hcommitted ▸ h.reached'.line)).of_samePosition
    (Game.samePosition_onRecord g).symm (Game.samePosition_onRecord g').symm

/-- Games in step have corresponding statuses. -/
theorem status : g'.status = T.status g.status := by
  have hinitial : g.initial = g₀.initial := (h.reached.line.fixed h₀.opening).2.2.1
  have hinitial' : g'.initial = g₀'.initial := (h.reached'.line.fixed h₀.opening').2.2.1
  have hlast : g'.log.last? = g.log.last?.map T.entry := by
    rw [h.log, Log.last?, Log.last?, Symmetry.log, List.head?_map]
  rw [h.reached.status, h.reached'.status, Game.recordedStatus, Game.recordedStatus, hinitial,
    hinitial', h₀.initial, hlast]
  cases g.log.last? <;> rfl

/-- A vetted ply and its image that are committed have corresponding statuses, and keep games in
step. -/
theorem of_follows {a : Action} {ply : Ply} {status status' : Status} {k k' : Game}
    (hvet : g.vet a = .ok ply) (hk : Game.Reached g₀ k) (hk' : Game.Reached g₀' k')
    (hf : g.Follows ply status k) (hf' : g'.Follows (T.ply ply) status' k')
    (hs : status = k.judged g.turn) (hs' : status' = k'.judged g'.turn) :
    status' = T.status status ∧ T.InStep g₀ g₀' k k' := by
  have hnext : T.ImagePosition k k' :=
    (h.position h₀).follows h₀.fits (h.standard h₀).kinds hvet hf hf'
  have hstandard := hk.standard h₀.opening h₀.standard
  have hjudged := hnext.judged_eq h₀.fits hstandard.kinds hstandard
    (hk'.standard h₀.opening' h₀.standard') hf.kept hf'.kept
  rw [hf.turn, hf'.turn, Colour.other_other, Colour.other_other, ← hs, ← hs'] at hjudged
  subst hjudged
  refine ⟨rfl, hk, hk', ?_⟩
  rw [hf.log, hf'.log, h.log]
  rfl

/-- Updating games in step with an action and its image has corresponding results and keeps them in
step. -/
theorem update (a : Action) : ∃ r k k', g.update a = .ok (r, k) ∧
    g'.update (T.action a) = .ok (T.result r, k') ∧ T.InStep g₀ g₀' k k' := by
  have hposition := h.position h₀
  have hk := h.kept h₀
  have hkinds := (h.standard h₀).kinds
  have hvet' := hposition.vet_eq (h.status h₀) (h₀.fits.fitsGame hkinds) a
  obtain ⟨⟨r, k⟩, hupdate⟩ :=
    (Game.unfailing_reached h₀.opening h₀.standard).exists_update h.reached a
  obtain ⟨⟨r', k'⟩, hupdate'⟩ :=
    (Game.unfailing_reached h₀.opening' h₀.standard').exists_update h.reached' (T.action a)
  cases hvet : g.vet a with
  | error e =>
    rw [hvet] at hvet'
    exact ⟨_, g, g', Game.update_of_vet hvet, Game.update_of_vet hvet', h⟩
  | ok ply =>
    rw [hvet] at hvet'
    have hsafe := hposition.isSafe_eq h₀.fits hkinds (hk.of_vet hvet).1
    refine ⟨r, k, k', hupdate, ?_⟩
    rcases hk.update_cases hupdate with ⟨e, rfl, rfl, hunsafe⟩ | ⟨q, s, rfl, hq, hsafe₁, hf, hs⟩
    · -- both plies leave the own king in check
      rcases (h.kept' h₀).update_cases hupdate' with
        ⟨e', rfl, rfl, -⟩ | ⟨q', s', -, hq', hsafe', -⟩
      · obtain rfl := Game.eq_kingInCheck_of_vet hvet hupdate
        obtain rfl := Game.eq_kingInCheck_of_vet hvet' hupdate'
        exact ⟨hupdate', h⟩
      · obtain rfl := Except.ok.inj (hvet'.symm.trans hq')
        rw [hsafe, hunsafe ply hvet] at hsafe'
        cases hsafe'
    · obtain rfl := Except.ok.inj (hvet.symm.trans hq)
      rcases (h.kept' h₀).update_cases hupdate' with
        ⟨e', -, -, hunsafe⟩ | ⟨q', s', rfl, hq', -, hf', hs'⟩
      · have := hunsafe _ hvet'
        rw [hsafe, hsafe₁] at this
        cases this
      · obtain rfl := Except.ok.inj (hvet'.symm.trans hq')
        obtain ⟨rfl, hstep⟩ := h.of_follows h₀ hvet (h.reached.update h₀.opening hupdate)
          (h.reached'.update h₀.opening' hupdate') hf hf' hs hs'
        exact ⟨hupdate', hstep⟩

/-- Undoing keeps games in step and has corresponding answers. -/
theorem undo (n : Nat) (save : Bool) : ∃ answer k k', g.undo n save = .ok (answer, k) ∧
    g'.undo n save = .ok (T.status answer, k') ∧ T.InStep g₀ g₀' k k' := by
  obtain ⟨answer, k, hundo, hk, hlog, -⟩ :=
    (Game.moves_undo h₀.opening save).go_eq_ok n h.reached
  obtain ⟨answer', k', hundo', hk', hlog', -⟩ :=
    (Game.moves_undo h₀.opening' save).go_eq_ok n h.reached'
  have hstep : T.InStep g₀ g₀' k k' := ⟨hk, hk', by rw [hlog, hlog', h.log, log_undoBy]⟩
  have hlength : g'.log.length = g.log.length := by
    rw [h.log, Log.length, Log.length, Symmetry.log, List.length_map]
  have hanswer : answer' = T.status answer := by
    rw [h.reached.answer_of_undo h₀.opening hundo, h.reached'.answer_of_undo h₀.opening' hundo',
      hlength, hstep.status h₀]
    split <;> rfl
  exact ⟨answer, k, k', hundo, hanswer ▸ hundo', hstep⟩

/-- Redoing keeps games in step and has corresponding answers. -/
theorem redo (n : Nat) : ∃ answer k k', g.redo n = .ok (answer, k) ∧
    g'.redo n = .ok (T.status answer, k') ∧ T.InStep g₀ g₀' k k' := by
  obtain ⟨answer, k, hredo, hk, hlog, -⟩ := (Game.moves_redo h₀.opening).go_eq_ok n h.reached
  obtain ⟨answer', k', hredo', hk', hlog', -⟩ :=
    (Game.moves_redo h₀.opening').go_eq_ok n h.reached'
  have hstep : T.InStep g₀ g₀' k k' := ⟨hk, hk', by rw [hlog, hlog', h.log, log_redoBy]⟩
  have hlength : g'.log.undone.length = g.log.undone.length := by
    rw [h.log, Symmetry.log, List.length_map]
  have hanswer : answer' = T.status answer := by
    rw [h.reached.answer_of_redo h₀.opening hredo, h.reached'.answer_of_redo h₀.opening' hredo',
      hlength, hstep.status h₀]
    split <;> rfl
  exact ⟨answer, k, k', hredo, hanswer ▸ hredo', hstep⟩

/-- Submitting an action and its image to games in step keeps them in step. -/
theorem submit (a : Action) : ∃ answer k k', g.submit a = .ok (answer, k) ∧
    g'.submit (T.action a) = .ok (T.status answer, k') ∧ T.InStep g₀ g₀' k k' := by
  obtain ⟨r, k, k', hupdate, hupdate', hstep⟩ := h.update h₀ a
  refine ⟨r.toOption.getD .unchanged, k, k', bind_eq_ok_iff.2 ⟨_, hupdate, rfl⟩,
    bind_eq_ok_iff.2 ⟨_, hupdate', ?_⟩, hstep⟩
  cases r <;> rfl

/-- The listed actions correspond, though perhaps in another order. -/
theorem legalActions : ∃ actions actions', g.legalActions = .ok (actions, g) ∧
    g'.legalActions = .ok (actions', g') ∧ (actions.map T.action).Perm actions' := by
  have hposition := h.position h₀
  obtain ⟨actions, hlisted, -⟩ := h.reached.exists_listed h₀.opening h₀.standard
  obtain ⟨actions', hlisted', -⟩ := h.reached'.exists_listed h₀.opening' h₀.standard'
  obtain ⟨-, hactions⟩ := (h.kept h₀).legalActions_eq_ok hlisted
  obtain ⟨-, hactions'⟩ := (h.kept' h₀).legalActions_eq_ok hlisted'
  refine ⟨actions, actions', hlisted, hlisted', ?_⟩
  rw [hactions, hactions', h.status h₀, isTerminal_status]
  split
  · exact .nil
  · have hperm := (hposition.legal_perm h₀.fits (h.standard h₀).kinds (h.kept h₀) (h.kept' h₀)
      g.turn).map fun p => (⟨g'.turn, p.source, p.target⟩ : Action)
    rw [List.map_map, ← hposition.turn] at hperm
    rw [List.map_map]
    exact (List.Perm.of_eq (List.map_congr_left fun p _ =>
      congrArg (Action.mk · _ _) hposition.turn.symm)).trans hperm

/-- The image of a piece can move to the image of a point when the piece can move to the point. -/
theorem moveMap (c : Colour) : ∃ moves moves', g.moveMap c = .ok (moves, g) ∧
    g'.moveMap (T.colour c) = .ok (moves', g') ∧
      ∀ id p, T.id id ∈ moves'.moversTo (T.point p) ↔ id ∈ moves.moversTo p := by
  obtain ⟨⟨moves, k⟩, hmoves⟩ :=
    (Game.unfailing_reached h₀.opening h₀.standard).exists_moveMap h.reached c
  obtain ⟨⟨moves', k'⟩, hmoves'⟩ :=
    (Game.unfailing_reached h₀.opening' h₀.standard').exists_moveMap h.reached' (T.colour c)
  obtain ⟨rfl, rfl⟩ := (h.kept h₀).moveMap_eq_ok hmoves
  obtain ⟨rfl, rfl⟩ := (h.kept' h₀).moveMap_eq_ok hmoves'
  refine ⟨_, _, hmoves, hmoves', fun id p => ?_⟩
  have hperm := (h.position h₀).legal_perm h₀.fits (h.standard h₀).kinds (h.kept h₀) (h.kept' h₀) c
  rw [MoveMap.mem_moversTo_ofMoves, MoveMap.mem_moversTo_ofMoves,
    ← (hperm.map fun p => (p.piece, p.target)).mem_iff, List.map_map]
  simp only [List.mem_map, Function.comp_apply, Prod.mk.injEq]
  exact exists_congr fun q => and_congr Iff.rfl
    (and_congr T.id.apply_eq_iff_eq T.point.apply_eq_iff_eq)

/-- Operations that do not look ahead keep games in step with their images. -/
theorem perform {o : Operation} (ho : o.lookahead = none) : ∃ k k', o.perform g = .ok k ∧
    (T.operation o).perform g' = .ok k' ∧ T.InStep g₀ g₀' k k' := by
  cases o with
  | update a =>
    obtain ⟨r, k, k', hg, hg', hstep⟩ := h.update h₀ a
    exact ⟨k, k', map_eq_ok_iff.2 ⟨_, hg, rfl⟩, map_eq_ok_iff.2 ⟨_, hg', rfl⟩, hstep⟩
  | submit a =>
    obtain ⟨r, k, k', hg, hg', hstep⟩ := h.submit h₀ a
    exact ⟨k, k', map_eq_ok_iff.2 ⟨_, hg, rfl⟩, map_eq_ok_iff.2 ⟨_, hg', rfl⟩, hstep⟩
  | undo n save =>
    obtain ⟨r, k, k', hg, hg', hstep⟩ := h.undo h₀ n save
    exact ⟨k, k', map_eq_ok_iff.2 ⟨_, hg, rfl⟩, map_eq_ok_iff.2 ⟨_, hg', rfl⟩, hstep⟩
  | redo n =>
    obtain ⟨r, k, k', hg, hg', hstep⟩ := h.redo h₀ n
    exact ⟨k, k', map_eq_ok_iff.2 ⟨_, hg, rfl⟩, map_eq_ok_iff.2 ⟨_, hg', rfl⟩, hstep⟩
  | legalActions =>
    obtain ⟨_, _, hg, hg', -⟩ := h.legalActions h₀
    exact ⟨g, g', map_eq_ok_iff.2 ⟨_, hg, rfl⟩, map_eq_ok_iff.2 ⟨_, hg', rfl⟩, h⟩
  | moveMap c =>
    obtain ⟨_, _, hg, hg', -⟩ := h.moveMap h₀ c
    exact ⟨g, g', map_eq_ok_iff.2 ⟨_, hg, rfl⟩, map_eq_ok_iff.2 ⟨_, hg', rfl⟩, h⟩
  | nextBest | bestAction | minimax | perft | perftByRoot => cases ho

/-- Runs of such operations keep games in step with the runs of the images. -/
theorem run {ops : List Operation} (hops : ∀ o ∈ ops, o.lookahead = none) :
    ∃ k k', g.run ops = .ok k ∧ g'.run (ops.map T.operation) = .ok k' ∧
      T.InStep g₀ g₀' k k' := by
  induction ops generalizing g g' with
  | nil => exact ⟨g, g', rfl, rfl, h⟩
  | cons o rest ih =>
    rw [List.forall_mem_cons] at hops
    obtain ⟨k, k', hg, hg', hstep⟩ := h.perform h₀ hops.1
    obtain ⟨l, l', hk, hk', hend⟩ := ih hstep hops.2
    refine ⟨l, l', ?_, ?_, hend⟩
    · rw [Game.run, List.foldlM_cons]
      exact bind_eq_ok_iff.2 ⟨k, hg, hk⟩
    · rw [Game.run, List.map_cons, List.foldlM_cons]
      exact bind_eq_ok_iff.2 ⟨k', hg', hk'⟩

end InStep

end Symmetry

end VariantChess
