import VariantChess.Proofs.Mate
import VariantChess.Proofs.Run

/-!
# A won game leaves no reply

A mate is found without asking for every reply: the other pieces of the checked side are only asked
whether they take the attacker or step between it and the king, and not at all when there are two
attackers. With a plain piece set nothing is missed, so an accepted action that wins leaves the
other side without a legal ply.

A slide that is not straight breaks this. The path from a knight's jump away holds no points, so a
ply that interposes on a longer line of such jumps is not counted as an answer.
-/

namespace VariantChess

namespace PieceSet

/-- A piece set is plain when its custom pieces have plain movements and are not taken for pawns. -/
def Plain (set : PieceSet) : Prop :=
  ∀ e ∈ set.customs.entries, e.1 ≠ "P" ∧ ∀ m ∈ e.2.movements, m.Plain

instance (set : PieceSet) : Decidable set.Plain := inferInstanceAs (Decidable (∀ e ∈ _, _))

end PieceSet

namespace Game

variable {g₀ g h : Game} {set : PieceSet} {layout : List Char} {config : GameConfig}
  {ops : List Operation} {a : Action} {c winner : Colour}

/-- A game that is started with a plain piece set is crowned. -/
theorem crowned_of_start (hset : set.Regular) (hplain : set.Plain)
    (hstart : start set layout config = .ok g₀) : g₀.Crowned := by
  obtain ⟨hpieces, turn, hread, hkings⟩ := of_start hset hstart
  apply crowned_of_read hread _ hkings
  intro id q code hq hkind
  have hknown := Board.knows_of_read hread hq
  rw [hkind, PieceSet.knows, OrderedMap.contains, Option.isSome_iff_exists] at hknown
  obtain ⟨piece, hpiece⟩ := hknown
  refine ⟨(hplain _ (OrderedMap.get?_eq_some_iff.1 hpiece)).1, fun m hm => ?_⟩
  rw [hkind, hpieces] at hm
  obtain ⟨piece', hentry, hm⟩ := PieceSet.mem_movements_custom.1 hm
  exact (hplain _ hentry).2 m hm

/-- The verdict is a win only for the side that has played, and when the other side's king is
mated. -/
theorem of_judged_eq_won (hwon : g.judged c = .won winner) :
    winner = c ∧ g.inCheck c.other ∧ g.mated c.other := by
  rw [judged] at hwon
  split at hwon
  · cases hwon
  · split at hwon
    · next hcheck =>
      split at hwon
      · next hmated => exact ⟨(Status.won.inj hwon).symm, hcheck, hmated⟩
      · cases hwon
    · split at hwon <;> cases hwon

/-- In every game of a run, from any layout and with any regular and plain piece set, an accepted
action that wins leaves no reply: the move map of the other side is found, and it is empty. -/
theorem moveMap_of_won (hset : set.Regular) (hplain : set.Plain)
    (hstart : start set layout config = .ok g₀) (hrun : g₀.run ops = .ok g)
    (hupdate : g.update a = .ok (.ok (.won winner), h)) :
    ∃ moves, h.moveMap winner.other = .ok (moves, h) ∧ ∀ p, moves.canReach p = false := by
  have h₀ := opening_of_regular hset hstart
  have hreached := h₀.reached_of_run hrun
  have hnext := hreached.update h₀ hupdate
  have hk := hnext.kept h₀
  have hcrowned := hnext.crowned h₀ (crowned_of_start hset hplain hstart)
  obtain ⟨_, hr, -⟩ | ⟨ply, status, hr, -, -, -, hstatus⟩ :=
    (hreached.kept h₀).update_cases hupdate
  · cases hr
  obtain rfl := Except.ok.inj hr
  obtain ⟨rfl, hcheck, hmated⟩ := of_judged_eq_won hstatus.symm
  have hnone := hcrowned.legal_eq_nil_of_mated hk hcheck hmated
  have hplies := hk.legalPlies_of_playable (hcrowned.plain.playable hk) g.turn.other
  rw [hnone] at hplies
  refine ⟨.ofMoves [], bind_eq_ok_iff.2 ⟨_, hplies, rfl⟩, fun p => ?_⟩
  rw [MoveMap.canReach, MoveMap.ofMoves, List.foldl_nil, PieceIndex.contains, PieceIndex.get_empty,
    Option.isSome_none]

/-- A custom piece that moves like a rook. -/
def chariot : CustomPiece where
  value := 4
  movements := Orthodox.rook

/-- The chessmen and the chariot. -/
def chariotSet : PieceSet := ⟨.insert .empty "chariot" chariot⟩

/-- A chariot mates a king in the corner, which has no reply. -/
theorem moveMap_of_won_chariot : ∃ g₀ g h moves,
    start chariotSet "w wKc1 w~chariot~a1 bKc3".toList smallConfig = .ok g₀ ∧
      g₀.run [.legalActions] = .ok g ∧
      g.update ⟨.white, .ofCoords 0 0, .ofCoords 0 2⟩ = .ok (.ok (.won .white), h) ∧
      h.moveMap .black = .ok (moves, h) ∧ ∀ p, moves.canReach p = false := by
  have hregular : chariotSet.Regular := PieceSet.regular_of_free (by decide +kernel)
  have hplain : chariotSet.Plain := by decide +kernel
  obtain ⟨g₀, g, status, h, hstart, hrun, hupdate, hwon⟩ :=
    exists_accepted chariotSet "w wKc1 w~chariot~a1 bKc3".toList smallConfig [.legalActions]
      ⟨.white, .ofCoords 0 0, .ofCoords 0 2⟩ (fun _ _ status _ => status = .won .white)
      (by decide +kernel)
  obtain rfl := of_decide_eq_true hwon
  obtain ⟨moves, hmoves, hnone⟩ := moveMap_of_won hregular hplain hstart hrun hupdate
  exact ⟨g₀, g, h, moves, hstart, hrun, hupdate, hmoves, hnone⟩

/-- A piece that slides by knight's jumps. -/
def rider : CustomPiece where
  value := 3
  movements :=
    let jumps := [(1, 2), (2, 4)].filterMap fun d => Point.locate? d.1 d.2
    [(Movement.slide (.ofPoints jumps)).reflected true true]

/-- The chessmen and the rider. -/
def riderSet : PieceSet := ⟨.insert .empty "rider" rider⟩

/-- The settings of a game on three files and five ranks. -/
def tallConfig : GameConfig :=
  { bounds := (Bounds.ofSize 3 5).toOption.getD .orthodox }

/-- A rook uncovers the line of a rider to the king. This is taken for mate, but a pawn can step
between the two. -/
theorem moveMap_of_won_rider : ∃ g₀ g h k moves,
    PieceSet.orthodox.register "rider" rider = .ok riderSet ∧
      start riderSet "w w~rider~a1 wKc1 wRb3 bPb4 bPc4 bPb5 bKc5".toList tallConfig = .ok g₀ ∧
      g₀.run [] = .ok g ∧
      g.update ⟨.white, .ofCoords 1 2, .ofCoords 1 0⟩ = .ok (.ok (.won .white), h) ∧
      h.moveMap .black = .ok (moves, k) ∧ moves.canReach (.ofCoords 1 2) := by
  have hregister : PieceSet.orthodox.register "rider" rider = .ok riderSet := by decide +kernel
  obtain ⟨g₀, g, status, h, hstart, hrun, hupdate, htest⟩ :=
    exists_accepted riderSet "w w~rider~a1 wKc1 wRb3 bPb4 bPc4 bPb5 bKc5".toList tallConfig []
      ⟨.white, .ofCoords 1 2, .ofCoords 1 0⟩
      (fun _ _ status h => status = .won .white &&
        (h.moveMap .black).toOption.any fun r : MoveMap × Game => r.1.canReach (.ofCoords 1 2))
      (by decide +kernel)
  rw [Bool.and_eq_true, decide_eq_true_eq, Option.any_eq_true] at htest
  obtain ⟨rfl, ⟨moves, k⟩, hmoves, hreply⟩ := htest
  exact ⟨g₀, g, h, k, moves, hregister, hstart, hrun, hupdate, toOption_eq_some_iff.1 hmoves,
    hreply⟩

end Game

end VariantChess
