import VariantChess.Proofs.Lookahead
import VariantChess.Proofs.Opening

/-!
# Runs

A run performs operations on a game one after the other: updates, undoing and redoing, the listing
of actions, searches and counts. Searches and counts are themselves made of listings, updates and
undone plies, however deeply nested, so whatever these preserve is preserved by every run. In
particular every game of a run is on a line from the opening.

The threat maps of such a game are those computed from nothing: each map lists for every piece of
its colour on the board what the movements of the piece threaten, and it lists nothing else.
-/

namespace VariantChess

/-- What can be done with a game. -/
inductive Operation where
  | update (a : Action)
  | submit (a : Action)
  | undo (n : Nat) (save : Bool)
  | redo (n : Nat)
  | legalActions
  | moveMap (c : Colour)
  | nextBest (depth : Nat) (greater : Bool)
  | bestAction (config : SearchConfig)
  | minimax (config : SearchConfig) (depth : Nat)
  | perft (depth : Nat)
  | perftByRoot (depth : Nat)
  deriving DecidableEq, Repr

/-- The game after an operation, whatever the operation answers. -/
def Operation.perform (o : Operation) (g : Game) : Except Fault Game :=
  match o with
  | .update a => (g.update a).map (·.2)
  | .submit a => (g.submit a).map (·.2)
  | .undo n save => (g.undo n save).map (·.2)
  | .redo n => (g.redo n).map (·.2)
  | .legalActions => g.legalActions.map (·.2)
  | .moveMap c => (g.moveMap c).map (·.2)
  | .nextBest depth greater => ((Search.of g).nextBest depth greater).map (·.2.game)
  | .bestAction config => ((Search.of g).bestAction config).map (·.2.game)
  | .minimax config depth => ((Search.of g).minimax config depth).map (·.2.game)
  | .perft depth => (g.perft depth).map (·.2)
  | .perftByRoot depth => (g.perftByRoot depth).map (·.2)

/-- How many plies deep an operation commits plies that it takes back again, for the operations that
look ahead. The last ply of a counted sequence is not committed. -/
def Operation.lookahead : Operation → Option Nat
  | .nextBest depth _ => some (max depth 1)
  | .bestAction config => some (max config.depth 1)
  | .minimax config depth => some (max (min depth config.maxDepth) 1)
  | .perft depth => some (depth - 1)
  | .perftByRoot depth => some (depth - 1)
  | _ => none

/-- The game after some operations. -/
def Game.run (g : Game) (ops : List Operation) : Except Fault Game :=
  ops.foldlM (fun g o => o.perform g) g

/-- An operation that looks ahead leaves a game that is related to the one it was given. -/
theorem Nesting.perform {R : Game → Game → Prop} (hR : Nesting R) {g h : Game} {o : Operation}
    {n : Nat} (ho : o.lookahead = some n) (hperform : o.perform g = .ok h) : R g h := by
  cases o with
  | nextBest depth greater =>
    obtain ⟨⟨choice, s⟩, hop, rfl⟩ := map_eq_ok_iff.1 hperform
    exact hR.nextBest (s := .of g) hop
  | bestAction config =>
    obtain ⟨⟨choice, s⟩, hop, rfl⟩ := map_eq_ok_iff.1 hperform
    exact hR.nextBest (s := .of g) hop
  | minimax config depth =>
    obtain ⟨⟨value, s⟩, hop, rfl⟩ := map_eq_ok_iff.1 hperform
    exact hR.deepen (s := .of g) hop
  | perft depth =>
    obtain ⟨⟨count, g'⟩, hop, rfl⟩ := map_eq_ok_iff.1 hperform
    exact hR.perft depth hop
  | perftByRoot depth =>
    obtain ⟨⟨count, g'⟩, hop, rfl⟩ := map_eq_ok_iff.1 hperform
    exact hR.perftByRoot hop
  | _ => cases ho

/-- A property of games that the elementary operations preserve. -/
structure Preserved (P : Game → Prop) : Prop where
  update : ∀ {g h a r}, P g → g.update a = .ok (r, h) → P h
  undo : ∀ {g h n save status}, P g → g.undo n save = .ok (status, h) → P h
  redo : ∀ {g h n status}, P g → g.redo n = .ok (status, h) → P h
  legalActions : ∀ {g h actions}, P g → g.legalActions = .ok (actions, h) → P h
  moveMap : ∀ {g h c moves}, P g → g.moveMap c = .ok (moves, h) → P h

namespace Preserved

variable {P : Game → Prop} (hP : Preserved P) {g h : Game}
include hP

/-- What the elementary operations preserve is preserved by commits and take-backs that nest. -/
theorem nesting : Nesting fun g h => P g → P h where
  refl _ hg := hg
  trans hgh hhk hg := hhk (hgh hg)
  legalActions hactions hg := hP.legalActions hg hactions
  rejected hupdate hg := hP.update hg hupdate
  accepted hupdate hbetween hundo hg := hP.undo (hbetween (hP.update hg hupdate)) hundo

/-- Every operation preserves what the elementary ones do. -/
theorem perform {o : Operation} (hg : P g) (hperform : o.perform g = .ok h) : P h := by
  cases o with
  | update a =>
    obtain ⟨⟨r, g'⟩, hop, rfl⟩ := map_eq_ok_iff.1 hperform
    exact hP.update hg hop
  | submit a =>
    obtain ⟨⟨status, g'⟩, hop, rfl⟩ := map_eq_ok_iff.1 hperform
    obtain ⟨⟨r, g''⟩, hupdate, hanswer⟩ := bind_eq_ok_iff.1 hop
    obtain ⟨rfl, rfl⟩ := Prod.mk.inj (Except.ok.inj hanswer)
    exact hP.update hg hupdate
  | undo n save =>
    obtain ⟨⟨status, g'⟩, hop, rfl⟩ := map_eq_ok_iff.1 hperform
    exact hP.undo hg hop
  | redo n =>
    obtain ⟨⟨status, g'⟩, hop, rfl⟩ := map_eq_ok_iff.1 hperform
    exact hP.redo hg hop
  | legalActions =>
    obtain ⟨⟨actions, g'⟩, hop, rfl⟩ := map_eq_ok_iff.1 hperform
    exact hP.legalActions hg hop
  | moveMap c =>
    obtain ⟨⟨moves, g'⟩, hop, rfl⟩ := map_eq_ok_iff.1 hperform
    exact hP.moveMap hg hop
  | nextBest _ _ => exact hP.nesting.perform rfl hperform hg
  | bestAction _ => exact hP.nesting.perform rfl hperform hg
  | minimax _ _ => exact hP.nesting.perform rfl hperform hg
  | perft _ => exact hP.nesting.perform rfl hperform hg
  | perftByRoot _ => exact hP.nesting.perform rfl hperform hg

/-- Every run preserves what the elementary operations do. -/
theorem run {ops : List Operation} (hg : P g) (hrun : g.run ops = .ok h) : P h := by
  induction ops generalizing g with
  | nil =>
    obtain rfl := Except.ok.inj hrun
    exact hg
  | cons o rest ih =>
    rw [Game.run, List.foldlM_cons] at hrun
    obtain ⟨g₁, hperform, hrest⟩ := bind_eq_ok_iff.1 hrun
    exact ih (hP.perform hg hperform) hrest

end Preserved

namespace Game

variable {g₀ g : Game} {ops : List Operation} {set : PieceSet} {layout : List Char}
  {config : GameConfig}

/-- Being on a line from an opening is preserved by the elementary operations. -/
theorem preserved_reached (h₀ : g₀.Opening) : Preserved (Reached g₀) where
  update hg h := hg.update h₀ h
  undo {g h n save status} hg hundo := by
    obtain ⟨g', status', hok, hreached, -⟩ := hg.undo_eq_ok h₀ n save
    rw [hok] at hundo
    obtain ⟨-, rfl⟩ := Prod.mk.inj (Except.ok.inj hundo)
    exact hreached
  redo {g h n status} hg hredo := by
    obtain ⟨g', status', hok, hreached⟩ := hg.redo_eq_ok h₀ n
    rw [hok] at hredo
    obtain ⟨-, rfl⟩ := Prod.mk.inj (Except.ok.inj hredo)
    exact hreached
  legalActions hg h := ((hg.kept h₀).legalActions_eq_ok h).1 ▸ hg
  moveMap hg h := ((hg.kept h₀).moveMap_eq_ok h).1 ▸ hg

/-- Every run from an opening stays on a line. -/
theorem Opening.reached_of_run (h₀ : g₀.Opening) (hrun : g₀.run ops = .ok g) : Reached g₀ g :=
  (preserved_reached h₀).run h₀.reached hrun

/-- Every game of a run, from any layout and with any regular piece set, has the threat maps that
are computed from nothing. A piece on the board reaches exactly the candidates of its movements on
the live board and log, and no piece is indexed off the board or in the map of the other colour. -/
theorem threats_of_run (hset : set.Regular) (hstart : start set layout config = .ok g₀)
    (hrun : g₀.run ops = .ok g) :
    g.rebuild = g ∧
      (∀ id owner, g.board.piece? id = some owner → g.board.has id → ∀ p,
        p ∈ (g.threats.get owner.colour).reach id ↔ ∃ m ∈ g.pieceSet.movements owner.kind,
          p ∈ m.candidates
            ⟨g.board, g.lastPly, none, id, owner.colour, owner.point, none⟩ .threats) ∧
      ∀ c id, ¬(g.board.has id ∧ g.board.owns c id) →
        (g.threats.get c).byPiece.get? id = none ∧ ∀ p, id ∉ (g.threats.get c).threatsAt p := by
  have h₀ := opening_of_regular hset hstart
  have hfresh := ((h₀.reached_of_run hrun).kept h₀).fresh
  refine ⟨hfresh.rebuild_eq, fun id owner howner hhas p => ?_,
    fun c id hout => ⟨?_, fun p hp => ?_⟩⟩
  · have howns : g.board.owns owner.colour id := Board.owns_iff.2 ⟨owner, howner, rfl⟩
    rw [hfresh.mem_reach_iff, reach, movementsOf, Situation.of?, howner]
    simp [howns, hhas]
  · have hreach := hfresh.reach_eq c id
    rw [expected, if_neg (by simpa [and_comm] using hout)] at hreach
    rw [(hfresh.coherent c).get?_byPiece, hreach]
    rfl
  · obtain ⟨howns, hhas, -⟩ := hfresh.mem_threatsAt_iff.1 hp
    exact hout ⟨hhas, howns⟩

/-- A computation that gives a value succeeds with it. -/
theorem toOption_eq_some_iff {ε α : Type} {x : Except ε α} {a : α} :
    x.toOption = some a ↔ x = .ok a := by
  cases x <;> simp [Except.toOption]

/-- A run that is computed to succeed leads from the start of its layout to some game. -/
theorem exists_run (set : PieceSet) (layout : List Char) (config : GameConfig)
    (ops : List Operation)
    (h : ((start set layout config).toOption.bind fun g₀ => (g₀.run ops).toOption).isSome) :
    ∃ g₀ g, start set layout config = .ok g₀ ∧ g₀.run ops = .ok g := by
  obtain ⟨g, hg⟩ := Option.isSome_iff_exists.1 h
  obtain ⟨g₀, hstart, hrun⟩ := Option.bind_eq_some_iff.1 hg
  exact ⟨g₀, g, toOption_eq_some_iff.1 hstart, toOption_eq_some_iff.1 hrun⟩

/-- A run that is computed to succeed leads from the start of its layout to some game, and that game
passes a test that is computed as well. -/
theorem exists_run_passing (set : PieceSet) (layout : List Char) (config : GameConfig)
    (ops : List Operation) (test : Game → Game → Bool)
    (h : (start set layout config).toOption.any fun g₀ => (g₀.run ops).toOption.any (test g₀)) :
    ∃ g₀ g, start set layout config = .ok g₀ ∧ g₀.run ops = .ok g ∧ test g₀ g := by
  obtain ⟨g₀, hstart, h⟩ := (Option.any_eq_true _ _).1 h
  obtain ⟨g, hrun, htest⟩ := (Option.any_eq_true _ _).1 h
  exact ⟨g₀, g, toOption_eq_some_iff.1 hstart, toOption_eq_some_iff.1 hrun, htest⟩

/-- An action that is computed to be accepted after some operations leads to some game, and the games
on the way pass a test that is computed as well. -/
theorem exists_accepted (set : PieceSet) (layout : List Char) (config : GameConfig)
    (ops : List Operation) (a : Action) (test : Game → Game → Status → Game → Bool)
    (h : (start set layout config).toOption.any fun g₀ => (g₀.run ops).toOption.any fun g =>
      (g.update a).toOption.any fun r => r.1.toOption.any fun status => test g₀ g status r.2) :
    ∃ g₀ g status h, start set layout config = .ok g₀ ∧ g₀.run ops = .ok g ∧
      g.update a = .ok (.ok status, h) ∧ test g₀ g status h := by
  obtain ⟨g₀, hstart, h⟩ := (Option.any_eq_true _ _).1 h
  obtain ⟨g, hrun, h⟩ := (Option.any_eq_true _ _).1 h
  obtain ⟨⟨r, h'⟩, hupdate, h⟩ := (Option.any_eq_true _ _).1 h
  obtain ⟨status, hr, htest⟩ := (Option.any_eq_true _ _).1 h
  rw [toOption_eq_some_iff] at hstart hrun hupdate hr
  dsimp only at hr
  subst hr
  exact ⟨g₀, g, status, h', hstart, hrun, hupdate, htest⟩

/-- The settings of a game on three files and three ranks. -/
def smallConfig : GameConfig :=
  { bounds := ⟨.origin, .ofCoords 2 2, by decide, by decide, by decide, by decide⟩ }

/-- The settings of a game on four files and three ranks. -/
def oblongConfig : GameConfig :=
  { bounds := ⟨.origin, .ofCoords 3 2, by decide, by decide, by decide, by decide⟩ }

/-- A piece that attacks like a king, but only right after some piece has moved for the first time. -/
def wary : CustomPiece where
  value := 3
  movements := [Orthodox.kingStep.attackOnly.when (.log .firstMove .isTrue none)]

/-- The chessmen and the wary piece. -/
def warySet : PieceSet := ⟨.insert .empty "wary" wary⟩

/-- The wary piece does not slide. -/
theorem regular_wary : warySet.Regular := PieceSet.regular_of_free (by decide +kernel)

/-- A wary piece takes a rook right after the first move of the rook and falls silent, until the first
move of a pawn wakes it. Then it reaches what its movement says on the board and log as they are,
among it the king of the other side, and the rook that was taken is in neither map. -/
theorem threats_of_run_wary : ∃ g₀ g,
    start warySet "w wKa1 wRa2* b~wary~b1 wPc1* bKc3".toList smallConfig = .ok g₀ ∧
      g₀.run [.update ⟨.white, .ofCoords 0 1, .ofCoords 1 1⟩,
        .update ⟨.black, .ofCoords 1 0, .ofCoords 1 1⟩,
        .update ⟨.white, .ofCoords 2 0, .ofCoords 2 1⟩, .undo 1 true, .redo 1,
        .legalActions] = .ok g ∧
      g.log.length = 3 ∧ g.board.has ⟨1⟩ = false ∧
      g.board.piece? ⟨2⟩ = some ⟨.black, .custom "wary", .ofCoords 1 1, true⟩ ∧
      g.rebuild = g ∧
      (∀ p, p ∈ (g.threats.get .black).reach ⟨2⟩ ↔
        ∃ m ∈ g.pieceSet.movements (.custom "wary"), p ∈ m.candidates
          ⟨g.board, g.lastPly, none, ⟨2⟩, .black, .ofCoords 1 1, none⟩ .threats) ∧
      .ofCoords 0 0 ∈ (g.threats.get .black).reach ⟨2⟩ ∧
      ∀ c, (g.threats.get c).byPiece.get? ⟨1⟩ = none ∧
        ∀ p, ⟨1⟩ ∉ (g.threats.get c).threatsAt p := by
  obtain ⟨g₀, g, hstart, hrun, htest⟩ :=
    exists_run_passing warySet "w wKa1 wRa2* b~wary~b1 wPc1* bKc3".toList smallConfig
      [.update ⟨.white, .ofCoords 0 1, .ofCoords 1 1⟩,
        .update ⟨.black, .ofCoords 1 0, .ofCoords 1 1⟩,
        .update ⟨.white, .ofCoords 2 0, .ofCoords 2 1⟩, .undo 1 true, .redo 1, .legalActions]
      (fun _ g => decide (g.log.length = 3 ∧ g.board.has ⟨1⟩ = false ∧ g.board.has ⟨2⟩ ∧
        g.board.piece? ⟨2⟩ = some ⟨.black, .custom "wary", .ofCoords 1 1, true⟩ ∧
        ((g.threats.get .black).reach ⟨2⟩).contains (.ofCoords 0 0)))
      (by decide +kernel)
  obtain ⟨hlength, htaken, hwary, howner, hking⟩ := of_decide_eq_true htest
  obtain ⟨hrebuild, hreach, hstray⟩ := threats_of_run regular_wary hstart hrun
  refine ⟨g₀, g, hstart, hrun, hlength, htaken, howner, hrebuild, hreach ⟨2⟩ _ howner hwary,
    OrderedSet.contains_iff.1 hking, fun c => hstray c ⟨1⟩ fun hon => ?_⟩
  rw [htaken] at hon
  cases hon.1

end Game

end VariantChess
