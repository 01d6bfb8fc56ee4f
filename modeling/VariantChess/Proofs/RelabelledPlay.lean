import VariantChess.Perft
import VariantChess.Proofs.Actions
import VariantChess.Proofs.Relabelling
import VariantChess.Search

/-!
# Playing and searching with relabelled pieces

Updates, undoing and redoing, searches and counts of two games that differ in the identities of their
pieces only give equal answers, and leave games that differ in the identities only. What a game tells
about itself without naming a piece, its text, its history and its score, is equal as well.
-/

namespace VariantChess

variable {bounds : Bounds} {σ : Equiv.Perm PieceId}

namespace Game

/-- The kinds that pieces had before a ply, given the kinds that they have after it. -/
def kindBefore (kindOf : PieceId → Option Kind) (p : Ply) : PieceId → Option Kind :=
  match p.effect with
  | some (.promote source _) => fun id => if id = p.piece then some source else kindOf id
  | _ => kindOf

/-- The latest ply is written with the kind that its mover had before it. -/
theorem writePlies_cons (kindOf : PieceId → Option Kind) (e : LogEntry) (earlier : List LogEntry)
    (written : List MoveText) : writePlies kindOf (e :: earlier) written =
      writePlies (kindBefore kindOf e.ply) earlier
        ((kindBefore kindOf e.ply e.ply.piece).toList.map (fun kind =>
          ⟨kind, e.ply.source, e.ply.target, e.ply.taken.isSome⟩) ++ written) := rfl

end Game

namespace Relabelled

open Relabel

variable {g g' : Game}

/-- Setting the same turn keeps games that differ in the identities only. -/
theorem withTurn (h : Relabelled bounds σ g g') {turn turn' : Colour} (hturn : turn' = turn) :
    Relabelled bounds σ { g with turn } { g' with turn := turn' } :=
  ⟨⟨h.board, h.pieceSet, h.threats, h.kings, hturn, h.config, h.lastPly, h.lastPly_inside⟩, h.log,
    h.log_inside, h.status, h.initial⟩

/-- Setting the same status keeps games that differ in the identities only. -/
theorem withStatus (h : Relabelled bounds σ g g') {status status' : Status}
    (hstatus : status' = status) :
    Relabelled bounds σ { g with status } { g' with status := status' } :=
  ⟨⟨h.board, h.pieceSet, h.threats, h.kings, h.turn, h.config, h.lastPly, h.lastPly_inside⟩, h.log,
    h.log_inside, hstatus, h.initial⟩

/-- Games with relabelled logs have relabelled latest plies. -/
theorem withLog (h : Relabelled bounds σ g g') {l l' : Log} (hl : l' = (relabel bounds σ).log l)
    (hin : ∀ e ∈ l.committed ++ l.undone,
      bounds.contains e.ply.source ∧ bounds.contains e.ply.target) :
    Relabelled bounds σ { g with log := l } { g' with log := l' } := by
  subst hl
  refine ⟨⟨h.board, h.pieceSet, h.threats, h.kings, h.turn, h.config, ?_, fun p hp => ?_⟩, rfl, hin,
    h.status, h.initial⟩
  · simp only [Game.lastPly, Log.last?, Symmetry.log, List.head?_map, Option.map_map]
    rfl
  · obtain ⟨e, he, rfl⟩ := Option.map_eq_some_iff.1 hp
    exact hin e (List.mem_append_left _ (List.mem_of_mem_head? he))

theorem refreshVolatile (h : Relabelled bounds σ g g') :
    Relabelled bounds σ g.refreshVolatile g'.refreshVolatile :=
  h.refresh fun _ => h.mem_volatilePieces_iff

/-- Move maps that name relabelled pieces, with games that differ in the identities only. -/
def Moves (bounds : Bounds) (σ : Equiv.Perm PieceId) (r r' : MoveMap × Game) : Prop :=
  (∀ id p, σ id ∈ r'.1.moversTo p ↔ id ∈ r.1.moversTo p) ∧ Relabelled bounds σ r.2 r'.2

theorem moveMap (h : Relabelled bounds σ g g') (c : Colour) :
    Alike (Moves bounds σ) (g.moveMap c) (g'.moveMap c) := by
  refine bind_plies (h.legalPlies c) fun plies g₁ g₁' h₁ =>
    .ok ⟨fun id p => ?_, h₁⟩
  rw [MoveMap.mem_moversTo_ofMoves, MoveMap.mem_moversTo_ofMoves, List.map_map]
  simp only [List.mem_map, Function.comp_apply, Prod.mk.injEq]
  refine exists_congr fun ply => and_congr Iff.rfl (and_congr ?_ Iff.rfl)
  exact σ.apply_eq_iff_eq

/-- The same actions are vetted. -/
theorem vet (h : Relabelled bounds σ g g') (a : Action) :
    g'.vet a = (g.vet a).map (relabel bounds σ).ply := by
  have hvet := h.toImagePosition.vet_eq (h.status.trans (status_relabel _).symm) (fitsGame g) a
  rw [action_relabel] at hvet
  rw [hvet]
  cases g.vet a with
  | error e => exact congrArg Except.error (rejection_relabel e)
  | ok ply => rfl

/-- Storing a verdict keeps games that differ in the identities only. -/
theorem amend (h : Relabelled bounds σ g g') (status : Status) :
    Relabelled bounds σ { g with log := g.log.amend status, status }
      { g' with log := g'.log.amend status, status } := by
  have hamend : g'.log.amend status = (relabel bounds σ).log (g.log.amend status) := by
    rw [h.log]
    rcases g.log with ⟨_ | ⟨e, rest⟩, undone⟩
    · rfl
    · simp [Log.amend, Symmetry.log, Symmetry.entry]
  have hset := h.withLog hamend fun e he => ?_
  · exact hset.withStatus rfl
  · have hinside := h.log_inside
    rcases hlog : g.log with ⟨_ | ⟨first, rest⟩, undone⟩
    · rw [hlog] at he hinside
      exact hinside e he
    · rw [hlog] at he hinside
      rcases List.mem_cons.1 he with rfl | he
      · exact hinside first List.mem_cons_self
      · exact hinside e (List.mem_cons_of_mem _ he)

/-- Committing relabelled plies gives the same status. -/
theorem commit (h : Relabelled bounds σ g g') {ply : Ply}
    (hin : bounds.contains ply.source ∧ bounds.contains ply.target) :
    Alike (Relabels bounds σ) (g.commit ply) (g'.commit ((relabel bounds σ).ply ply)) := by
  have hturn : g'.turn = g.turn := h.turn
  have hpush : g'.log.push ⟨(relabel bounds σ).ply ply, .ongoing⟩ =
      (relabel bounds σ).log (g.log.push ⟨ply, .ongoing⟩) := by
    rw [h.log]
    rfl
  have hlogged : Relabelled bounds σ (g.logged ply) (g'.logged ((relabel bounds σ).ply ply)) := by
    refine ((h.withLog hpush fun e he => ?_).refreshVolatile).withTurn (congrArg Colour.other hturn)
    rw [Log.push, List.append_nil, List.mem_cons] at he
    rcases he with rfl | he
    · exact hin
    · exact h.log_inside e (List.mem_append_left _ he)
  rw [Game.commit_eq_bind, Game.commit_eq_bind, hturn]
  refine (hlogged.verdict g.turn).bind_eq fun status g₁ g₁' h₁ => ?_
  exact .ok ⟨rfl, h₁.amend status⟩

/-- Updates give the same result. -/
theorem update (h : Relabelled bounds σ g g') (a : Action) :
    Alike (Relabels bounds σ) (g.update a) (g'.update a) := by
  rw [Game.update, Game.update, h.vet]
  cases hvet : g.vet a with
  | error e => exact .ok ⟨rfl, h⟩
  | ok ply =>
    refine (h.apply ply).bind fun g₁ g₁' h₁ => ?_
    have hturn : g₁'.turn = g₁.turn := h₁.turn
    have hcheck : g₁'.inCheck g₁.turn = g₁.inCheck g₁.turn := h₁.inCheck_eq g₁.turn
    rw [hturn, hcheck]
    split
    · exact (h₁.revert ply).bind fun _ _ h₂ => .ok ⟨rfl, h₂⟩
    · refine (h₁.commit (h.toImagePosition.inside_of_vet hvet)).bind fun r r' hr => .ok ⟨?_, hr.2⟩
      exact congrArg Except.ok hr.1

theorem submit (h : Relabelled bounds σ g g') (a : Action) :
    Alike (Relabels bounds σ) (g.submit a) (g'.submit a) := by
  refine (h.update a).bind fun r r' hr => .ok ⟨?_, hr.2⟩
  exact congrArg (fun r : Except Rejection Status => r.toOption.getD .unchanged) hr.1

/-- The entries of the log are relabelled one by one. -/
theorem undoPlies (h : Relabelled bounds σ g g') (save : Bool) (n : Nat) :
    Alike (Relabels bounds σ) (Game.undoPlies save n g) (Game.undoPlies save n g') := by
  induction n generalizing g g' with
  | zero => exact .ok ⟨rfl, h⟩
  | succ n ih =>
    have hinside := h.log_inside
    have hlog' := h.log
    rw [Game.undoPlies, Game.undoPlies]
    rcases hlog : g.log with ⟨_ | ⟨e, rest⟩, undone⟩
    · rw [hlog] at hinside hlog'
      rw [hlog']
      cases save with
      | true => exact .ok ⟨rfl, h.withLog rfl hinside⟩
      | false => exact .ok ⟨rfl, h.withLog rfl fun e he => absurd he List.not_mem_nil⟩
    · rw [hlog] at hinside hlog'
      rw [hlog']
      have hrest : ∀ f ∈ rest, bounds.contains f.ply.source ∧ bounds.contains f.ply.target :=
        fun f hf => hinside f (List.mem_append_left _ (List.mem_cons_of_mem _ hf))
      cases save with
      | true =>
        have hpopped := h.withLog (l := ⟨rest, e :: undone⟩) rfl fun f hf => ?_
        · refine (hpopped.revert e.ply).bind fun g₁ g₁' h₁ => ?_
          refine (ih (h₁.withTurn (congrArg Colour.other h₁.turn))).bind fun r r' hr =>
            .ok ⟨congrArg (· + 1) hr.1, hr.2⟩
        · rw [List.mem_append, List.mem_cons] at hf
          refine hinside f (List.mem_append.2 ?_)
          rw [List.mem_cons]
          tauto
      | false =>
        have hpopped := h.withLog (l := ⟨rest, []⟩) rfl fun f hf => ?_
        · refine (hpopped.revert e.ply).bind fun g₁ g₁' h₁ => ?_
          refine (ih (h₁.withTurn (congrArg Colour.other h₁.turn))).bind fun r r' hr =>
            .ok ⟨congrArg (· + 1) hr.1, hr.2⟩
        · rw [List.append_nil] at hf
          exact hrest f hf

theorem undo (h : Relabelled bounds σ g g') (n : Nat) (save : Bool) :
    Alike (Relabels bounds σ) (g.undo n save) (g'.undo n save) := by
  refine (h.undoPlies save n).bind_eq fun count g₁ g₁' h₁ => ?_
  dsimp only
  split
  · exact .ok ⟨rfl, h₁⟩
  · have h₂ := h₁.refreshVolatile
    have hstatus : (g₁'.refreshVolatile.log.last?.map (·.status)).getD
        g₁'.refreshVolatile.initial =
          (g₁.refreshVolatile.log.last?.map (·.status)).getD g₁.refreshVolatile.initial := by
      rw [h₂.log, h₂.initial, Log.last?, Log.last?, Symmetry.log, List.head?_map, Option.map_map]
      exact congrArg (Option.getD · _) (congrArg (Option.map · _)
        (funext fun e => status_relabel e.status))
    exact .ok ⟨hstatus, h₂.withStatus hstatus⟩

theorem redoPlies (h : Relabelled bounds σ g g') (n : Nat) :
    Alike (Relabels bounds σ) (Game.redoPlies n g) (Game.redoPlies n g') := by
  induction n generalizing g g' with
  | zero => exact .ok ⟨rfl, h⟩
  | succ n ih =>
    have hinside := h.log_inside
    have hlog' := h.log
    rw [Game.redoPlies, Game.redoPlies]
    rcases hlog : g.log with ⟨committed, _ | ⟨e, rest⟩⟩
    · rw [hlog] at hinside hlog'
      rw [hlog']
      exact .ok ⟨rfl, h.withLog rfl hinside⟩
    · rw [hlog] at hinside hlog'
      rw [hlog']
      have hpushed := h.withLog (l := ⟨e :: committed, rest⟩) rfl fun f hf => ?_
      · refine (hpushed.apply e.ply).bind fun g₁ g₁' h₁ => ?_
        refine (ih ((h₁.withTurn (congrArg Colour.other h₁.turn)).withStatus
          (status_relabel e.status))).bind fun r r' hr => .ok ⟨congrArg (· + 1) hr.1, hr.2⟩
      · refine hinside f ?_
        simp only [List.mem_append, List.mem_cons] at hf ⊢
        tauto

theorem redo (h : Relabelled bounds σ g g') (n : Nat) :
    Alike (Relabels bounds σ) (g.redo n) (g'.redo n) := by
  refine (h.redoPlies n).bind_eq fun count g₁ g₁' h₁ => ?_
  dsimp only
  split
  · exact .ok ⟨rfl, h₁⟩
  · exact .ok ⟨h₁.refreshVolatile.status, h₁.refreshVolatile⟩

/-- A ply promotes the image of a piece when it promotes the piece. -/
theorem kindBefore_ply {kindOf kindOf' : PieceId → Option Kind} (h : ∀ i, kindOf' (σ i) = kindOf i)
    (p : Ply) (i : PieceId) : Game.kindBefore kindOf' ((relabel bounds σ).ply p) (σ i) =
      Game.kindBefore kindOf p i := by
  rw [Game.kindBefore, Game.kindBefore, Symmetry.ply]
  cases p.effect with
  | none => exact h i
  | some e =>
    cases e with
    | relocate | remove => exact h i
    | promote source target => simp [Symmetry.sideEffect, h]

/-- Moves are written alike when relabelled pieces have the same kinds. -/
theorem writePlies_eq {kindOf kindOf' : PieceId → Option Kind} (log : List LogEntry)
    (written : List MoveText) (h : ∀ i, kindOf' (σ i) = kindOf i) :
    Game.writePlies kindOf' (log.map (relabel bounds σ).entry) written =
      Game.writePlies kindOf log written := by
  induction log generalizing kindOf kindOf' written with
  | nil => rfl
  | cons e earlier ih =>
    have hbefore : ∀ i, Game.kindBefore kindOf' ((relabel bounds σ).ply e.ply) (σ i) =
        Game.kindBefore kindOf e.ply i := kindBefore_ply h e.ply
    have htaken : ((relabel bounds σ).ply e.ply).taken.isSome = e.ply.taken.isSome := by
      rw [taken_ply, Option.isSome_map]
    have hkind : Game.kindBefore kindOf' ((relabel bounds σ).ply e.ply)
        ((relabel bounds σ).ply e.ply).piece = Game.kindBefore kindOf e.ply e.ply.piece :=
      hbefore e.ply.piece
    rw [List.map_cons, Game.writePlies_cons, Game.writePlies_cons]
    simp only [Symmetry.entry, hkind, htaken]
    exact ih _ hbefore

section Views

variable (h : Relabelled bounds σ g g')
include h

theorem king?_relabel (c : Colour) : g'.king? c = g.king? c :=
  (h.king?_eq c).trans Option.map_id'

theorem text_eq : g'.text = g.text := by
  have hturn : g'.turn = g.turn := h.turn
  rw [Game.text, Game.text, hturn, Board.text, Board.text, pieces_eq h.board]

/-- The scores of the positions are equal. -/
theorem evaluate_eq : g'.evaluate = g.evaluate := by
  have hside (c : Colour) : g'.sideScore c = g.sideScore c := by
    have hmobility : (g'.threats.get c).mobility = (g.threats.get c).mobility :=
      (h.threats c).mobility_eq
    rw [Game.sideScore, Game.sideScore, Game.material, Game.material, pieces_eq h.board, h.pieceSet,
      hmobility]
  rw [Game.evaluate, Game.evaluate, h.status, hside, hside]

/-- The same moves are written. -/
theorem history_eq : g'.history = g.history := by
  rw [Game.history, Game.history, h.log]
  exact writePlies_eq _ _ fun i =>
    congrArg (Option.map (·.kind)) ((h.board.piece?_eq i).trans Option.map_id')

end Views

end Relabelled

/-- Searches on games that differ in the identities only, with the same number of nodes. -/
structure RelabelledSearch (bounds : Bounds) (σ : Equiv.Perm PieceId) (s s' : Search) : Prop where
  game : Relabelled bounds σ s.game s'.game
  nodes : s'.nodes = s.nodes

/-- Equal answers, with searches on games that differ in the identities only. -/
def Searches (bounds : Bounds) (σ : Equiv.Perm PieceId) {α : Type} (r r' : α × Search) : Prop :=
  r'.1 = r.1 ∧ RelabelledSearch bounds σ r.2 r'.2

namespace RelabelledSearch

open Search

variable {s s' : Search} {g g' : Game}

/-- A scorer that gives equal scores. -/
def Scorers (bounds : Bounds) (σ : Equiv.Perm PieceId) (scorer : Scorer) : Prop :=
  ∀ {s s'} w, RelabelledSearch bounds σ s s' → Alike (Searches bounds σ) (scorer w s) (scorer w s')

theorem tryAction {scorer : Scorer} (hscorer : Scorers bounds σ scorer)
    (h : RelabelledSearch bounds σ s s') (w : Window) (a : Action) :
    Alike (Searches bounds σ) (Search.tryAction scorer w a s) (Search.tryAction scorer w a s') := by
  rw [Search.tryAction, Search.tryAction]
  refine (h.game.update a).bind_eq fun result g₁ g₁' h₁ => ?_
  cases result with
  | error e => exact .ok ⟨rfl, h₁, h.nodes⟩
  | ok status =>
    have hs : RelabelledSearch bounds σ ⟨g₁, s.nodes⟩ ⟨g₁', s'.nodes⟩ := ⟨h₁, h.nodes⟩
    refine (hscorer w hs).bind fun r r' hr => ?_
    exact (hr.2.game.undo 1 false).bind fun q q' hq =>
      .ok ⟨congrArg some hr.1, hq.2, hr.2.nodes⟩

theorem scoreActions {scorer : Scorer} (hscorer : Scorers bounds σ scorer) (maximising : Bool)
    (actions : List Action) (best : Score) (w : Window) (h : RelabelledSearch bounds σ s s') :
    Alike (Searches bounds σ) (Search.scoreActions scorer maximising actions best w s)
      (Search.scoreActions scorer maximising actions best w s') := by
  induction actions generalizing best w s s' with
  | nil => exact .ok ⟨rfl, h⟩
  | cons a rest ih =>
    rw [Search.scoreActions, Search.scoreActions]
    refine (tryAction hscorer h w a).bind_eq fun value s₁ s₁' h₁ => ?_
    cases value with
    | none => exact ih best w h₁
    | some value =>
      dsimp only
      split
      · exact .ok ⟨rfl, h₁⟩
      · exact ih _ _ h₁

theorem alphaBeta (depth : Nat) (maximising : Bool) :
    Scorers bounds σ (Search.alphaBeta depth maximising) := by
  induction depth generalizing maximising with
  | zero =>
    intro s s' w h
    exact .ok ⟨h.game.evaluate_eq, h.game, congrArg (· + 1) h.nodes⟩
  | succ depth ih =>
    intro s s' w h
    rw [Search.alphaBeta, Search.alphaBeta, h.game.status, h.nodes]
    dsimp only
    split
    · exact .ok ⟨h.game.evaluate_eq, h.game, rfl⟩
    · refine h.game.legalActions.bind_eq fun actions g₁ g₁' h₁ => ?_
      dsimp only
      split
      · exact .ok ⟨h₁.evaluate_eq, h₁, rfl⟩
      · exact scoreActions (ih !maximising) maximising actions _ w ⟨h₁, rfl⟩

theorem chooseAction {scorer : Scorer} (hscorer : Scorers bounds σ scorer) (greater : Bool)
    (actions : List Action) (best : Option (Action × Score)) (w : Window)
    (h : RelabelledSearch bounds σ s s') :
    Alike (Searches bounds σ) (Search.chooseAction scorer greater actions best w s)
      (Search.chooseAction scorer greater actions best w s') := by
  induction actions generalizing best w s s' with
  | nil => exact .ok ⟨rfl, h⟩
  | cons a rest ih =>
    rw [Search.chooseAction, Search.chooseAction]
    refine (tryAction hscorer h w a).bind_eq fun value s₁ s₁' h₁ => ?_
    cases value with
    | none => exact ih best w h₁
    | some value =>
      dsimp only
      split
      · exact ih _ _ h₁
      · exact ih _ _ h₁

theorem nextBest (h : RelabelledSearch bounds σ s s') (depth : Nat) (greater : Bool) :
    Alike (Searches bounds σ) (s.nextBest depth greater) (s'.nextBest depth greater) := by
  rw [Search.nextBest, Search.nextBest, h.nodes]
  refine h.game.legalActions.bind_eq fun actions g₁ g₁' h₁ => ?_
  exact chooseAction (alphaBeta _ _) greater actions none .full ⟨h₁, rfl⟩

theorem bestAction (h : RelabelledSearch bounds σ s s') (config : SearchConfig) :
    Alike (Searches bounds σ) (s.bestAction config) (s'.bestAction config) := by
  have hturn : s'.game.turn = s.game.turn := h.game.turn
  rw [Search.bestAction, Search.bestAction, hturn]
  exact h.nextBest _ _

theorem deepen (maximising : Bool) (depths : List Nat) (value : Score)
    (h : RelabelledSearch bounds σ s s') : Alike (Searches bounds σ)
      (Search.deepen maximising depths value s) (Search.deepen maximising depths value s') := by
  induction depths generalizing value s s' with
  | nil => exact .ok ⟨rfl, h⟩
  | cons depth deeper ih =>
    rw [Search.deepen, Search.deepen]
    refine (alphaBeta depth maximising .full h).bind_eq fun v s₁ s₁' h₁ => ?_
    dsimp only
    split
    · exact .ok ⟨rfl, h₁⟩
    · exact ih _ h₁

theorem minimax (h : RelabelledSearch bounds σ s s') (config : SearchConfig) (depth : Nat) :
    Alike (Searches bounds σ) (s.minimax config depth) (s'.minimax config depth) := by
  have hturn : s'.game.turn = s.game.turn := h.game.turn
  rw [Search.minimax, Search.minimax, hturn, h.game.evaluate_eq]
  exact deepen _ _ _ h

end RelabelledSearch

namespace Relabelled

variable {g g' : Game}

theorem sumOver {count : Game → Except Fault (Nat × Game)}
    (hcount : ∀ {g g'}, Relabelled bounds σ g g' → Alike (Relabels bounds σ) (count g) (count g'))
    (actions : List Action) (h : Relabelled bounds σ g g') :
    Alike (Relabels bounds σ) (Game.sumOver count actions g) (Game.sumOver count actions g') := by
  induction actions generalizing g g' with
  | nil => exact .ok ⟨rfl, h⟩
  | cons a rest ih =>
    rw [Game.sumOver, Game.sumOver]
    refine (h.update a).bind_eq fun result g₁ g₁' h₁ => ?_
    cases result with
    | error e => exact ih h₁
    | ok status =>
      refine (hcount h₁).bind fun r r' hr => (hr.2.undo 1 false).bind fun q q' hq => ?_
      refine (ih hq.2).bind fun t t' ht => .ok ⟨?_, ht.2⟩
      show r'.1 + t'.1 = r.1 + t.1
      rw [hr.1, ht.1]

theorem perft (depth : Nat) (h : Relabelled bounds σ g g') :
    Alike (Relabels bounds σ) (g.perft depth) (g'.perft depth) := by
  induction depth generalizing g g' with
  | zero => exact .ok ⟨rfl, h⟩
  | succ depth ih =>
    rw [Game.perft, Game.perft]
    refine h.legalActions.bind_eq fun actions g₁ g₁' h₁ => ?_
    dsimp only
    split
    · exact .ok ⟨rfl, h₁⟩
    · exact sumOver ih actions h₁

theorem perftByRoot (depth : Nat) (h : Relabelled bounds σ g g') :
    Alike (Relabels bounds σ) (g.perftByRoot depth) (g'.perftByRoot depth) := by
  refine h.legalActions.bind_eq fun actions g₁ g₁' h₁ => ?_
  dsimp only
  split
  · exact .ok ⟨rfl, h₁⟩
  · exact sumOver (perft _) actions h₁

end Relabelled

end VariantChess
