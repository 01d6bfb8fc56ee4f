import VariantChess.Proofs.Actions
import VariantChess.Proofs.Chronicle
import VariantChess.Proofs.ScoreRange
import VariantChess.Proofs.ThreatExtent

/-!
# Scores of games that are not decided

The score of a won game stands apart only as far as values and boards are small. With any piece set
and on any board, a game that is not won scores at most what every piece of its layout is worth if it
has the greatest value and threatens every point. If this is less than the score of a won game, that
score tells the won games from all others. If it is not, a game in progress may have that score, since
the value of a registered piece is not bounded.
-/

namespace VariantChess

/-- A sum of integers of absolute value at most `k` is bounded by their number. -/
theorem natAbs_foldr_add_le {α : Type} {f : α → Int} {k : Nat} {l : List α}
    (h : ∀ a ∈ l, (f a).natAbs ≤ k) :
    (l.foldr (fun a n => f a + n) 0).natAbs ≤ l.length * k := by
  induction l with
  | nil => exact Nat.zero_le _
  | cons a rest ih =>
    rw [List.forall_mem_cons] at h
    have hrest := ih h.2
    rw [List.foldr_cons, List.length_cons, Nat.succ_mul]
    omega

namespace Board

variable {b b' : Board} {id : PieceId}

/-- The pieces on record, on the board or taken off it. -/
def recorded (b : Board) : List PieceId := (List.range b.roster.size).map .mk

@[simp] theorem length_recorded (b : Board) : b.recorded.length = b.roster.size := by
  simp [recorded]

theorem mem_recorded {q : Piece} (hq : b.piece? id = some q) : id ∈ b.recorded :=
  List.mem_map.2 ⟨id.index, List.mem_range.2 (Array.getElem?_eq_some_iff.1 hq).1, rfl⟩

/-- On a sound board stand at most as many pieces as are on record. -/
theorem Sound.length_pieces_le (hb : b.Sound) : b.pieces.length ≤ b.roster.size := by
  rw [← length_recorded]
  refine (List.length_filterMap_le _ _).trans (hb.nodup_ids.length_le_of_subset fun id hid => ?_)
  obtain ⟨q, hq, -⟩ := Board.has_iff.1 (hb.mem_ids.1 hid)
  exact mem_recorded hq

/-- Boards with the same outline have as many pieces on record. -/
theorem SameOutline.size_eq (h : b.SameOutline b') : b'.roster.size = b.roster.size := by
  have hlength := congrArg List.length (roster_map_eq h.colour)
  rwa [List.length_map, List.length_map, Array.length_toList, Array.length_toList] at hlength

/-- What the pieces on record add up to if each of them is worth `v` and threatens every point of the
board. -/
def scoreLimit (b : Board) (v : Nat) : Nat :=
  b.roster.size * (v + 4 * (b.bounds.height * b.bounds.width))

/-- The limit depends on the outline of a board only. -/
theorem SameOutline.scoreLimit_eq (h : b.SameOutline b') (v : Nat) :
    b'.scoreLimit v = b.scoreLimit v := by
  rw [scoreLimit, scoreLimit, h.bounds, h.size_eq]

end Board

namespace Game

variable {b₀ : Board} {g : Game} {v : Nat}

/-- Each side threatens at most every point with every piece on record. -/
theorem Within.mobility_le (hg : Within b₀ g) (c : Colour) : (g.threats.get c).mobility ≤
    b₀.roster.size * (b₀.bounds.height * b₀.bounds.width) := by
  rw [← b₀.length_recorded, ← Bounds.length_points]
  refine ThreatMap.mobility_le fun id s hs => ?_
  obtain ⟨howns, hinside⟩ := hg.stored c id s hs
  obtain ⟨q, hq, -⟩ := Board.owns_iff.1 howns
  exact ⟨Board.mem_recorded hq, (OrderedSet.nodup s).length_le_of_subset fun p hp =>
    Bounds.mem_points.2 (hinside p hp)⟩

/-- The sides differ in material by at most the greatest value for every piece on the board. -/
theorem natAbs_material_sub_le (hvalue : ∀ k, (g.pieceSet.value k).natAbs ≤ v) :
    (g.material .white - g.material .black).natAbs ≤ g.board.pieces.length * v := by
  have hside (c : Colour) : (g.material c).natAbs ≤
      (g.board.pieces.filter (·.colour = c)).length * v :=
    natAbs_foldr_add_le fun q _ => hvalue q.kind
  have hsplit : g.board.pieces.length = (g.board.pieces.filter (·.colour = .white)).length +
      (g.board.pieces.filter (·.colour = .black)).length := by
    rw [List.length_eq_length_filter_add fun q : Piece => q.colour = .white]
    congr 3
    funext q
    cases q.colour <;> rfl
  have hwhite := hside .white
  have hblack := hside .black
  rw [hsplit, Nat.add_mul]
  omega

/-- A game that is not won scores at most the limit. -/
theorem Within.natAbs_evaluate_le (hg : Within b₀ g) (hb : g.board.Sound)
    (hvalue : ∀ k, (g.pieceSet.value k).natAbs ≤ v) (hstatus : ∀ c, g.status ≠ .won c) :
    g.evaluate.centipawns.natAbs ≤ b₀.scoreLimit v := by
  have hmaterial := natAbs_material_sub_le hvalue
  have hpieces : g.board.pieces.length * v ≤ b₀.roster.size * v :=
    Nat.mul_le_mul_right v (hg.outline.size_eq ▸ hb.length_pieces_le)
  have hwhite := hg.mobility_le .white
  have hblack := hg.mobility_le .black
  have hlimit : b₀.scoreLimit v = b₀.roster.size * v +
      4 * (b₀.roster.size * (b₀.bounds.height * b₀.bounds.width)) := by
    rw [Board.scoreLimit, Nat.mul_add, Nat.mul_left_comm]
  have hscore : (g.sideScore .white - g.sideScore .black).centipawns =
      g.material .white + (g.threats.get .white).mobility * 4 -
        (g.material .black + (g.threats.get .black).mobility * 4) := rfl
  have hdiff : (g.sideScore .white - g.sideScore .black).centipawns.natAbs ≤ b₀.scoreLimit v := by
    rw [hscore, hlimit]
    omega
  rw [evaluate]
  split
  · next hwon => exact absurd hwon (hstatus _)
  · next hwon => exact absurd hwon (hstatus _)
  · exact Nat.zero_le _
  · exact hdiff

variable {g₀ : Game} {set : PieceSet} {layout : List Char} {config : GameConfig}
  {ops : List Operation}

/-- In every game of a run, from any layout, inside any bounds and with any piece set whose values
are at most `v` in size, a won game has the score of a won game for its winner, and a game that is not
won scores at most the limit of the layout for `v`. If that limit is less than the score of a won
game, the score reports a decided game exactly if the game is won. -/
theorem isWin_of_run (hstart : start set layout config = .ok g₀) (hrun : g₀.run ops = .ok g)
    (hvalue : ∀ k, (set.value k).natAbs ≤ v) :
    (∀ c, g.status = .won c → g.evaluate = wonScore c ∧ g.evaluate.isWin) ∧
      ((∀ c, g.status ≠ .won c) → g.evaluate.centipawns.natAbs ≤ g₀.board.scoreLimit v) ∧
      (g₀.board.scoreLimit v < Score.win.centipawns →
        (g.evaluate.isWin ↔ ∃ c, g.status = .won c)) := by
  obtain ⟨board, first, hread, hwithin₀⟩ := within_of_start hstart
  have hwithin := (preserved_within board).run hwithin₀ hrun
  obtain ⟨_, _, hread', -, -, -, hg⟩ := chronicled_of_run hstart hrun
  have hsound := hg.played.sound (Board.of_read hread').1
  have hset : g.pieceSet = set := by
    obtain ⟨_, _, _, _, _, -, rfl⟩ := frame_of_start hstart
    exact hg.settings.pieceSet
  have hwon (c : Colour) (hc : g.status = .won c) :
      g.evaluate = wonScore c ∧ g.evaluate.isWin := by
    rw [evaluate_of_won hc]
    cases c <;> decide
  have hlimit (hopen : ∀ c, g.status ≠ .won c) :
      g.evaluate.centipawns.natAbs ≤ g₀.board.scoreLimit v := by
    rw [hwithin₀.outline.scoreLimit_eq]
    exact hwithin.natAbs_evaluate_le hsound (hset ▸ hvalue) hopen
  refine ⟨hwon, hlimit, fun hsmall => ⟨fun hscore => ?_, fun ⟨c, hc⟩ => (hwon c hc).2⟩⟩
  by_contra hopen
  have hle := hlimit fun c hc => hopen ⟨c, hc⟩
  have hwin : Score.win.centipawns ≤ g.evaluate.centipawns.natAbs := of_decide_eq_true hscore
  omega

/-- No chessman is worth more than a queen. -/
theorem natAbs_value_orthodox (k : Kind) : (PieceSet.orthodox.value k).natAbs ≤ 900 := by
  cases k with
  | standard m => cases m <;> decide
  | custom code => exact Nat.zero_le _

/-- A rook mates; the score reports the win, and did not do so before. -/
theorem isWin_of_run_small : ∃ g₀ g,
    start .orthodox "w wKc1 wRa1 bKc3".toList smallConfig = .ok g₀ ∧
      g₀.run [.update ⟨.white, .ofCoords 0 0, .ofCoords 0 2⟩] = .ok g ∧
      g₀.board.scoreLimit 900 < Score.win.centipawns ∧ g.status = .won .white ∧
      g.evaluate.isWin ∧ ¬g₀.evaluate.isWin := by
  obtain ⟨g₀, g, hstart, hrun, htest⟩ :=
    exists_run_passing .orthodox "w wKc1 wRa1 bKc3".toList smallConfig
      [.update ⟨.white, .ofCoords 0 0, .ofCoords 0 2⟩]
      (fun g₀ g => g₀.board.scoreLimit 900 < Score.win.centipawns && g.status = .won .white &&
        g₀.status = .pending)
      (by decide +kernel)
  simp only [Bool.and_eq_true, decide_eq_true_eq] at htest
  obtain ⟨⟨hlimit, hwon⟩, hpending⟩ := htest
  have hidle : g₀.run [] = .ok g₀ := rfl
  obtain ⟨-, -, hfirst⟩ := isWin_of_run hstart hidle natAbs_value_orthodox
  obtain ⟨-, -, hlast⟩ := isWin_of_run hstart hrun natAbs_value_orthodox
  refine ⟨g₀, g, hstart, hrun, hlimit, hwon, (hlast hlimit).2 ⟨_, hwon⟩, ?_⟩
  rw [hfirst hlimit, hpending]
  rintro ⟨c, hc⟩
  cases hc

/-- A piece that does not move and is worth a won game. -/
def crown : CustomPiece where
  value := 100000
  movements := []

/-- The chessmen and the crown. -/
def crownSet : PieceSet := ⟨.insert .empty "crown" crown⟩

/-- White has a crown. The game has not begun, but its score is that of a game won by white and is
written as one. -/
theorem isWin_of_start_crown : ∃ g₀,
    PieceSet.orthodox.register "crown" crown = .ok crownSet ∧
      start crownSet "w wKa1 w~crown~b1 bKc3".toList smallConfig = .ok g₀ ∧
      g₀.status = .pending ∧ g₀.evaluate = Score.win ∧ g₀.evaluate.isWin ∧
      toString g₀.evaluate = "white wins" := by
  have hregister : PieceSet.orthodox.register "crown" crown = .ok crownSet := by decide +kernel
  obtain ⟨g₀, g, hstart, hrun, htest⟩ :=
    exists_run_passing crownSet "w wKa1 w~crown~b1 bKc3".toList smallConfig []
      (fun g₀ _ => g₀.status = .pending && g₀.evaluate = Score.win) (by decide +kernel)
  rw [Bool.and_eq_true, decide_eq_true_eq, decide_eq_true_eq] at htest
  obtain ⟨hpending, hscore⟩ := htest
  refine ⟨g₀, hregister, hstart, hpending, hscore, ?_⟩
  rw [hscore]
  exact ⟨by decide, rfl⟩

end Game

end VariantChess
