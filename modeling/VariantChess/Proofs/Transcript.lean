import VariantChess.Proofs.RelabelledPlay
import VariantChess.Proofs.Run

/-!
# What a game tells without naming a piece

The answers of a game and what it shows between them name pieces by the points on which they are
recorded. A transcript lists them along a sequence of operations, up to the first fault. Games that
differ in the identities of their pieces only have the same transcripts, so no order in which the
identities put a set of pieces leaks into anything that can be observed.
-/

namespace VariantChess

/-- Whether one of some pieces is recorded on a point. -/
def Board.records (b : Board) (ids : OrderedSet PieceId) (p : Point) : Bool :=
  ids.members.any fun id => (b.piece? id).any (·.point = p)

/-- What an operation answers, with points in place of pieces. -/
inductive Answer where
  | updated (result : Except Rejection Status)
  | status (status : Status)
  | actions (actions : List Action)
  /-- From which points a piece can move to which. -/
  | moves (moves : Point → Point → Bool)
  | choice (best : Option (Action × Score)) (nodes : Nat)
  | value (value : Score) (nodes : Nat)
  | count (count : Nat)

/-- The answer to an operation, and the game after it. -/
def Operation.answer (o : Operation) (g : Game) : Except Fault (Answer × Game) :=
  match o with
  | .update a => (g.update a).map fun r => (.updated r.1, r.2)
  | .submit a => (g.submit a).map fun r => (.status r.1, r.2)
  | .undo n save => (g.undo n save).map fun r => (.status r.1, r.2)
  | .redo n => (g.redo n).map fun r => (.status r.1, r.2)
  | .legalActions => g.legalActions.map fun r => (.actions r.1, r.2)
  | .moveMap c => (g.moveMap c).map fun r =>
      (.moves fun p q => r.2.board.records (r.1.moversTo q) p, r.2)
  | .nextBest depth greater => ((Search.of g).nextBest depth greater).map fun r =>
      (.choice r.1 r.2.nodes, r.2.game)
  | .bestAction config => ((Search.of g).bestAction config).map fun r =>
      (.choice r.1 r.2.nodes, r.2.game)
  | .minimax config depth => ((Search.of g).minimax config depth).map fun r =>
      (.value r.1 r.2.nodes, r.2.game)
  | .perft depth => (g.perft depth).map fun r => (.count r.1, r.2)
  | .perftByRoot depth => (g.perftByRoot depth).map fun r => (.count r.1, r.2)

/-- An operation answers along with what it does. -/
theorem Operation.map_answer (o : Operation) (g : Game) :
    (o.answer g).map (·.2) = o.perform g := by
  have hmap {α : Type} (x : Except Fault α) (f : α → Answer × Game) :
      (x.map f).map (·.2) = x.map fun r => (f r).2 := by
    cases x <;> rfl
  cases o <;> exact hmap _ _

/-- What a game shows, with points in place of pieces. -/
structure View where
  turn : Colour
  status : Status
  /-- The side to move and the pieces on the board, in point order. -/
  text : List Char
  king : Colour → Option Point
  history : List MoveText
  /-- Which points each colour threatens, and from where. -/
  threatens : Colour → Point → Point → Bool
  score : Score

namespace Game

/-- What a game shows. -/
def view (g : Game) : View where
  turn := g.turn
  status := g.status
  text := g.text
  king := g.king?
  history := g.history
  threatens c p q := g.board.records ((g.threats.get c).threatsAt q) p
  score := g.evaluate

/-- The answers to some operations, each with what the game shows after it; nothing comes after a
fault. -/
def transcript (g : Game) : List Operation → List (Option (Answer × View))
  | [] => []
  | o :: rest =>
    match o.answer g with
    | .error _ => [none]
    | .ok (answer, g) => some (answer, g.view) :: g.transcript rest

end Game

variable {bounds : Bounds} {σ : Equiv.Perm PieceId} {g g' : Game}

/-- Images of pieces are recorded on the images of the points. -/
theorem Symmetry.ImageBoard.records_eq {T : Symmetry bounds} {b b' : Board}
    (h : T.ImageBoard b b') {ids ids' : OrderedSet PieceId} (hids : ∀ i, T.id i ∈ ids' ↔ i ∈ ids)
    (p : Point) : b'.records ids' (T.point p) = b.records ids p := by
  have hpiece (i : PieceId) : ((b'.piece? (T.id i)).any fun q => q.point = T.point p) =
      (b.piece? i).any fun q => q.point = p := by
    rw [h.piece?_eq, Option.any_map]
    exact congrArg (Option.any · _)
      (funext fun q => decide_eq_decide.2 T.point.apply_eq_iff_eq)
  rw [Bool.eq_iff_iff, Board.records, Board.records, List.any_eq_true, List.any_eq_true]
  constructor
  · rintro ⟨i', hi', hp⟩
    obtain ⟨i, rfl⟩ := T.id.surjective i'
    exact ⟨i, (hids i).1 hi', hpiece i ▸ hp⟩
  · rintro ⟨i, hi, hp⟩
    exact ⟨T.id i, (hids i).2 hi, (hpiece i).symm ▸ hp⟩

namespace Relabelled

/-- Games that differ in the identities of their pieces only show the same. -/
theorem view_eq (h : Relabelled bounds σ g g') : g'.view = g.view := by
  have hking : g'.king? = g.king? := funext h.king?_relabel
  have hturn : g'.turn = g.turn := h.turn
  have hthreats (c : Colour) (p q : Point) :
      g'.board.records ((g'.threats.get c).threatsAt q) p =
        g.board.records ((g.threats.get c).threatsAt q) p :=
    h.board.records_eq (fun _ => (h.threats c).mem_threatsAt_iff) p
  simp only [Game.view, hturn, h.status, h.text_eq, hking, h.history_eq, hthreats, h.evaluate_eq]

/-- Operations have equal answers on them. -/
theorem answer (h : Relabelled bounds σ g g') (o : Operation) :
    Alike (Relabels bounds σ) (o.answer g) (o.answer g') := by
  have hs : RelabelledSearch bounds σ (.of g) (.of g') := ⟨h, rfl⟩
  cases o with
  | update a => exact (h.update a).map fun _ _ hr => ⟨congrArg Answer.updated hr.1, hr.2⟩
  | submit a => exact (h.submit a).map fun _ _ hr => ⟨congrArg Answer.status hr.1, hr.2⟩
  | undo n save => exact (h.undo n save).map fun _ _ hr => ⟨congrArg Answer.status hr.1, hr.2⟩
  | redo n => exact (h.redo n).map fun _ _ hr => ⟨congrArg Answer.status hr.1, hr.2⟩
  | legalActions => exact h.legalActions.map fun _ _ hr => ⟨congrArg Answer.actions hr.1, hr.2⟩
  | moveMap c =>
    refine (h.moveMap c).map fun r r' hr => ⟨congrArg Answer.moves ?_, hr.2⟩
    exact funext fun p => funext fun q => hr.2.board.records_eq (fun i => hr.1 i q) p
  | nextBest depth greater =>
    refine (hs.nextBest depth greater).map fun r r' hr => ⟨?_, hr.2.game⟩
    exact congrArg₂ Answer.choice hr.1 hr.2.nodes
  | bestAction config =>
    refine (hs.bestAction config).map fun r r' hr => ⟨?_, hr.2.game⟩
    exact congrArg₂ Answer.choice hr.1 hr.2.nodes
  | minimax config depth =>
    refine (hs.minimax config depth).map fun r r' hr => ⟨?_, hr.2.game⟩
    exact congrArg₂ Answer.value hr.1 hr.2.nodes
  | perft depth => exact (h.perft depth).map fun _ _ hr => ⟨congrArg Answer.count hr.1, hr.2⟩
  | perftByRoot depth =>
    exact (h.perftByRoot depth).map fun _ _ hr => ⟨congrArg Answer.count hr.1, hr.2⟩

/-- Their transcripts are equal along any operations. -/
theorem transcript_eq (h : Relabelled bounds σ g g') (ops : List Operation) :
    g'.transcript ops = g.transcript ops := by
  induction ops generalizing g g' with
  | nil => rfl
  | cons o rest ih =>
    have halike := h.answer o
    rw [Game.transcript, Game.transcript]
    generalize o.answer g = x at halike
    generalize o.answer g' = x' at halike
    cases halike with
    | error e e' => rfl
    | @ok r r' hr =>
      obtain ⟨answer, g₁⟩ := r
      obtain ⟨answer', g₁'⟩ := r'
      obtain ⟨hanswer, h₁⟩ := hr
      obtain rfl : answer' = answer := hanswer
      show some (answer', g₁'.view) :: g₁'.transcript rest =
        some (answer', g₁.view) :: g₁.transcript rest
      rw [h₁.view_eq, ih h₁]

end Relabelled

end VariantChess
