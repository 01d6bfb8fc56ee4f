import VariantChess.Proofs.Actions
import VariantChess.Proofs.Candidates
import VariantChess.Proofs.Checkmate
import VariantChess.Proofs.Conditions
import VariantChess.Proofs.KingSafety

/-!
# Captures are foreseen

What a piece may move to and what it threatens are walked differently. Threats are found when
nothing is known of the opponent's threats, and at another time than the plies. A movement that
attacks without asking for the opponent's threats nevertheless threatens every point of which it can
take the occupant. In a game with such movements only, the mover of a legal ply that takes a piece
is therefore listed at the point in the threat map of its side.
-/

namespace VariantChess

namespace Condition

/-- Whether a condition asks for the opponent's threats. -/
def asksThreat : Condition → Bool
  | .threat .. => true
  | _ => false

/-- A condition that does not ask for the opponent's threats is judged alike without them. -/
theorem holds_unopposed {c : Condition} (h : c.asksThreat = false) (s : Situation) :
    c.holds { s with opposing := none } = c.holds s := by
  cases c with
  | threat => cases h
  | property ref => cases ref <;> rfl
  | pieces left right => cases left <;> cases right <;> rfl
  | log | onBoard => rfl

end Condition

namespace Movement

/-- Movements that do not ask for the opponent's threats when they attack. -/
def Heedless (m : Movement) : Prop := m.isAttack → ∀ c ∈ m.conditions, c.asksThreat = false

instance (m : Movement) : Decidable m.Heedless := inferInstanceAs (Decidable (_ → ∀ c ∈ _, _))

variable {m : Movement} {s : Situation} {q : Int × Int} {k : Nat} {p : Point}

/-- What a slide may go on past when it moves, its threats pass as well. -/
theorem Passable.threats (h : Passable s .moves p) : Passable s .threats p := by
  rcases h with hempty | ⟨hmode, -⟩
  · exact .inl hempty
  · cases hmode

/-- An attack threatens whatever stands on a point, and the point if nothing does. -/
theorem endsOn_threats (ha : m.isAttack) (s : Situation) (p : Point) : m.EndsOn s .threats p := by
  cases hp : s.board.pieceAt? p with
  | none => exact .inl ⟨hp, .inr ⟨rfl, ha⟩⟩
  | some piece => exact .inr ⟨piece, hp, ha, .inr rfl⟩

/-- An attack that does not ask for the opponent's threats threatens the points that it moves to,
while nothing is known of the opponent. -/
theorem Admits.threatens (hm : m.Heedless) (ha : m.isAttack) (h : m.Admits s .moves q k p) :
    m.Admits { s with opposing := none } .threats q k p where
  reflects := h.reflects
  unblocked hs j hj := by
    obtain ⟨r, hr, hpass⟩ := h.unblocked hs j hj
    exact ⟨r, hr, hpass.threats⟩
  endsOn := endsOn_threats ha _ p
  holds c hc := (Condition.holds_unopposed (hm ha c hc) (s.heading p)).trans (h.holds c hc)

/-- A movement that takes a piece is an attack on a hostile piece and threatens its point. -/
theorem threatens_of_occupied (hm : m.Heedless) (hp : p ∈ m.candidates s .moves) {piece : Piece}
    (hpiece : s.board.pieceAt? p = some piece) :
    piece.colour ≠ s.colour ∧ p ∈ m.candidates { s with opposing := none } .threats := by
  obtain ⟨ha, hhostile⟩ := isAttack_of_occupied hp hpiece
  obtain ⟨q, hq, k, hadmits⟩ := mem_candidates_iff_admits.1 hp
  exact ⟨hhostile, mem_candidates_iff_admits.2 ⟨q, hq, k, hadmits.threatens hm ha⟩⟩

end Movement

namespace PieceSet

/-- Piece sets in which no attack asks for the opponent's threats. -/
def Heedless (set : PieceSet) : Prop := ∀ kind, ∀ m ∈ set.movements kind, m.Heedless

/-- Of the movements of the chessmen castling alone asks for threats, and it takes nothing; so only
custom pieces can attack by the opponent's threats. -/
theorem heedless_of_customs {set : PieceSet}
    (h : ∀ e ∈ set.customs.entries, ∀ m ∈ e.2.movements, m.Heedless) : set.Heedless := by
  intro kind m hm
  cases kind with
  | standard c =>
    have hall : ∀ c : Chessman, ∀ m ∈ c.movements, m.Heedless := by
      intro c
      cases c <;> decide +kernel
    exact hall c m hm
  | custom code =>
    obtain ⟨piece, hentry, hm⟩ := mem_movements_custom.1 hm
    exact h _ hentry m hm

end PieceSet

namespace Game

variable {g h g₀ : Game} {ops : List Operation} {set : PieceSet} {layout : List Char}
  {config : GameConfig} {c : Colour} {id victim : PieceId} {p : Point} {ply : Ply}

/-- A planned ply of a piece on the board that takes another one takes a hostile piece, which the
threat map of the mover's side lists as threatened by the mover. -/
theorem Kept.foreseen (hk : g.Kept) (hset : g.pieceSet.Heedless) (hplan : g.plan? id p = some ply)
    (howns : g.board.owns c id) (hhas : g.board.has id) (hon : g.board.on? p = some victim) :
    g.board.owns c.other victim ∧ id ∈ (g.threats.get c).threatsAt p := by
  obtain ⟨owner, howner, rfl⟩ := Board.owns_iff.1 howns
  obtain ⟨m, hm, hmem, -⟩ := exists_movement_of_plan? howner hplan
  obtain ⟨piece, hpiece, -⟩ := hk.sound p victim hon
  have hat : g.board.pieceAt? p = some piece := by
    rw [Board.pieceAt?, hon, Option.bind_some, hpiece]
  obtain ⟨hhostile, hthreat⟩ := Movement.threatens_of_occupied (hset _ m hm) hmem hat
  refine ⟨?_, hk.fresh.mem_threatsAt_iff.2 ⟨howns, hhas, (mem_reach_iff howner).2 ⟨m, ?_, hthreat⟩⟩⟩
  · rw [Board.owns_iff_of_piece? hpiece]
    exact (Colour.eq_or_eq_other _ _).resolve_left hhostile
  · rw [movementsOf_eq_of_piece? howner]
    exact hm

/-- In every game of a run, from any layout and with a regular piece set in which no attack asks for
the opponent's threats, every move that the move map of either colour lists for an occupied point is
that of a piece of the colour against a hostile one, and the mover is listed at the point in the
threat map of its colour. -/
theorem foreseen_of_run (hset : set.Regular) (hheedless : set.Heedless)
    (hstart : start set layout config = .ok g₀) (hrun : g₀.run ops = .ok g) {moves : MoveMap}
    (hmoves : g.moveMap c = .ok (moves, h)) (hid : id ∈ moves.moversTo p)
    (hon : g.board.on? p = some victim) :
    g.board.owns c id ∧ g.board.owns c.other victim ∧ id ∈ (g.threats.get c).threatsAt p := by
  have h₀ := opening_of_regular hset hstart
  have hreached := h₀.reached_of_run hrun
  have hk := hreached.kept h₀
  have hpieces : g.pieceSet = set :=
    (hreached.line.fixed h₀).1.trans (of_start hset hstart).1
  obtain ⟨-, rfl⟩ := hk.moveMap_eq_ok hmoves
  obtain ⟨ply, hply, hmove⟩ := List.mem_map.1 (MoveMap.mem_moversTo_ofMoves.1 hid)
  obtain ⟨rfl, rfl⟩ := Prod.mk.inj hmove
  obtain ⟨hsource, howns, -, hplan, -⟩ := hk.of_mem_legal hply
  exact ⟨howns, hk.foreseen (hpieces ▸ hheedless) hplan howns
    (hk.sound.has_iff.2 ⟨_, hsource⟩) hon⟩

/-- After the first move of a rook a wary piece can take the rook, which it threatens. -/
theorem foreseen_of_run_wary : ∃ g₀ g moves h,
    start warySet "w wKa1 wRa2* b~wary~b1 bKc3".toList smallConfig = .ok g₀ ∧
      g₀.run [.update ⟨.white, .ofCoords 0 1, .ofCoords 1 1⟩] = .ok g ∧
      g.moveMap .black = .ok (moves, h) ∧ ⟨2⟩ ∈ moves.moversTo (.ofCoords 1 1) ∧
      g.board.on? (.ofCoords 1 1) = some ⟨1⟩ ∧ g.board.owns .white ⟨1⟩ ∧
      ⟨2⟩ ∈ (g.threats.get .black).threatsAt (.ofCoords 1 1) := by
  have hheedless : warySet.Heedless := PieceSet.heedless_of_customs (by decide +kernel)
  obtain ⟨g₀, g, hstart, hrun, htest⟩ :=
    exists_run_passing warySet "w wKa1 wRa2* b~wary~b1 bKc3".toList smallConfig
      [.update ⟨.white, .ofCoords 0 1, .ofCoords 1 1⟩]
      (fun _ g => g.board.on? (.ofCoords 1 1) = some ⟨1⟩ &&
        (g.moveMap .black).toOption.any fun r : MoveMap × Game =>
          (r.1.moversTo (.ofCoords 1 1)).contains ⟨2⟩)
      (by decide +kernel)
  rw [Bool.and_eq_true, decide_eq_true_eq] at htest
  obtain ⟨hon, hlisted⟩ := htest
  obtain ⟨⟨moves, h⟩, hmoves, hid⟩ := (Option.any_eq_true _ _).1 hlisted
  rw [toOption_eq_some_iff] at hmoves
  rw [OrderedSet.contains_iff] at hid
  obtain ⟨-, howns, hthreat⟩ := foreseen_of_run regular_wary hheedless hstart hrun hmoves hid hon
  exact ⟨g₀, g, moves, h, hstart, hrun, hmoves, hid, hon, howns, hthreat⟩

end Game

end VariantChess
