import Mathlib.Data.List.Nodup
import Mathlib.Tactic.Ring
import VariantChess.Score
import VariantChess.Proofs.StandardGame

/-!
# The range of static scores

A chessman threatens points on the lines through its own point and points a knight's jump away, so
their number is bounded by the sides of the board. Every point of the board holds one piece at most,
and no chessman is worth more than a queen. Both together bound what a side can score in a game of
chessmen that is not decided. On the largest board the bound is below the sentinel of a search, and
on the orthodox board it is below the score of a won game.
-/

namespace VariantChess

namespace Bounds

/-- The number of files. -/
def width (b : Bounds) : Nat := b.greatest.x.val + 1 - b.least.x.val

/-- The number of ranks. -/
def height (b : Bounds) : Nat := b.greatest.y.val + 1 - b.least.y.val

theorem width_le (b : Bounds) : b.width ≤ 26 := by
  have hlt := b.x_lt
  rw [width]
  omega

theorem height_le (b : Bounds) : b.height ≤ 26 := by
  have hlt := b.y_lt
  rw [height]
  omega

theorem length_span (a c : Coord) : (span a c).length = c.val + 1 - a.val := by
  rw [span, List.length_ofFn]

/-- There are as many points as files times ranks. -/
theorem length_points (b : Bounds) : b.points.length = b.height * b.width := by
  rw [points, List.length_flatMap]
  simp only [List.length_map, length_span]
  rw [List.map_const', List.sum_replicate_nat, length_span, height, width]

/-- The displacements of a knight. -/
def knightJumps : List (Int × Int) :=
  [(1, 2), (1, -2), (-1, 2), (-1, -2), (2, 1), (2, -1), (-2, 1), (-2, -1)]

/-- The points on the lines through a point, and those a knight's jump away from it. -/
def sight (b : Bounds) (o : Point) : List Point :=
  let files := span b.least.x b.greatest.x
  (span b.least.y b.greatest.y).map (⟨o.x, ·⟩) ++ files.map (⟨·, o.y⟩) ++
    files.filterMap (fun x => Point.locate? x.val (o.y.val + (x.val - o.x.val))) ++
    files.filterMap (fun x => Point.locate? x.val (o.y.val - (x.val - o.x.val))) ++
    knightJumps.filterMap fun d => o.offset? d.1 d.2

/-- A line runs through every file or every rank at most once. -/
theorem length_sight_le (b : Bounds) (o : Point) :
    (b.sight o).length ≤ b.height + 3 * b.width + 8 := by
  have hdiagonal : ∀ f : Coord → Option Point,
      ((span b.least.x b.greatest.x).filterMap f).length ≤ b.width := by
    intro f
    rw [width, ← length_span]
    exact List.length_filterMap_le _ _
  have hjumps : (knightJumps.filterMap fun d => o.offset? d.1 d.2).length ≤ 8 :=
    List.length_filterMap_le _ _
  have hrising := hdiagonal fun x => Point.locate? x.val (o.y.val + (x.val - o.x.val))
  have hfalling := hdiagonal fun x => Point.locate? x.val (o.y.val - (x.val - o.x.val))
  have hfile : (span b.least.y b.greatest.y).length = b.height := length_span _ _
  have hrank : (span b.least.x b.greatest.x).length = b.width := length_span _ _
  simp only [sight, List.length_append, List.length_map]
  omega

end Bounds

/-- A displacement along a file, a rank or a diagonal or by a knight's jump. -/
def InSight (d : Int × Int) : Prop :=
  d.1 = 0 ∨ d.2 = 0 ∨ d.1.natAbs = d.2.natAbs ∨ d ∈ Bounds.knightJumps

instance (d : Int × Int) : Decidable (InSight d) := inferInstanceAs (Decidable (_ ∨ _))

/-- The points of a board at such a displacement are listed. -/
theorem Bounds.mem_sight {b : Bounds} {o p : Point} (hp : b.contains p)
    (hsight : InSight (Point.delta o p)) : p ∈ b.sight o := by
  obtain ⟨hx, hy⟩ := contains_iff.1 hp
  have hfile : p.x ∈ span b.least.x b.greatest.x := mem_span.2 hx
  have hrank : p.y ∈ span b.least.y b.greatest.y := mem_span.2 hy
  simp only [sight, List.mem_append, List.mem_map, List.mem_filterMap]
  rcases hsight with hzero | hzero | hequal | hjump
  · refine .inl (.inl (.inl (.inl ⟨p.y, hrank, ?_⟩)))
    rw [Point.delta] at hzero
    exact Point.mk.injEq .. ▸ ⟨Fin.ext (by dsimp only at hzero; omega), rfl⟩
  · refine .inl (.inl (.inl (.inr ⟨p.x, hfile, ?_⟩)))
    rw [Point.delta] at hzero
    exact Point.mk.injEq .. ▸ ⟨rfl, Fin.ext (by dsimp only at hzero; omega)⟩
  · rw [Point.delta] at hequal
    dsimp only at hequal
    by_cases hrising : (p.x.val : Int) - o.x.val = p.y.val - o.y.val
    · exact .inl (.inl (.inr ⟨p.x, hfile, Point.locate?_eq_some_iff.2 ⟨rfl, by omega⟩⟩))
    · exact .inl (.inr ⟨p.x, hfile, Point.locate?_eq_some_iff.2 ⟨rfl, by omega⟩⟩)
  · exact .inr ⟨_, hjump, Point.offset?_eq_some_iff.2 rfl⟩

/-- Reflecting a displacement keeps it in sight. -/
theorem InSight.reflect {d q : Int × Int} (hd : InSight d) (hx : q.1 = 1 ∨ q.1 = -1)
    (hy : q.2 = 1 ∨ q.2 = -1) : InSight (q.1 * d.1, q.2 * d.2) := by
  rcases hd with hzero | hzero | hequal | hjump
  · exact .inl (by simp [hzero])
  · exact .inr (.inl (by simp [hzero]))
  · refine .inr (.inr (.inl ?_))
    rcases hx with hx | hx <;> rcases hy with hy | hy <;> simp [hx, hy, hequal]
  · have hall : ∀ x ∈ ([1, -1] : List Int), ∀ y ∈ ([1, -1] : List Int), ∀ d ∈ Bounds.knightJumps,
        (x * d.1, y * d.2) ∈ Bounds.knightJumps := by
      decide
    exact .inr (.inr (.inr (hall _ (by simpa using hx) _ (by simpa using hy) _ hjump)))

/-- The attacks of the chessmen go along lines or by a knight's jump. -/
theorem Chessman.inSight {c : Chessman} {m : Movement} (hm : m ∈ c.movements) (ha : m.isAttack)
    {step : Point} (hstep : step ∈ m.template.points) :
    InSight (step.x.val, step.y.val) := by
  have hall : ∀ c : Chessman, ∀ m ∈ c.movements, m.isAttack →
      ∀ step ∈ m.template.points, InSight (step.x.val, step.y.val) := by
    intro c
    cases c <;> decide +kernel
  exact hall c m hm ha step hstep

/-- What a chessman threatens is in its sight. -/
theorem Chessman.mem_sight {c : Chessman} {m : Movement} (hm : m ∈ c.movements) {s : Situation}
    {p : Point} (hp : p ∈ m.candidates s .threats) : p ∈ s.board.bounds.sight s.origin := by
  obtain ⟨hattack, hwalk, -⟩ := Movement.mem_candidates.1 hp
  obtain ⟨q, hq, harm⟩ := Movement.mem_walk.1 hwalk
  obtain ⟨i, step, hstep, hland, -, -⟩ := Movement.mem_arm.1 harm
  obtain ⟨hdelta, hin⟩ := Movement.landing?_eq_some_iff.1 hland
  obtain ⟨hx, hy⟩ := Movement.sign_of_mem_quadrants hq
  apply Bounds.mem_sight hin
  rw [hdelta]
  exact (Chessman.inSight hm (hattack rfl) (List.mem_of_getElem? hstep)).reflect hx hy

/-- A sum of numbers that are at most `k` is bounded by their number. -/
theorem foldr_add_le {α : Type} {f : α → Nat} {k : Nat} {l : List α} (h : ∀ a ∈ l, f a ≤ k) :
    l.foldr (fun a n => f a + n) 0 ≤ l.length * k := by
  induction l with
  | nil => exact Nat.zero_le _
  | cons a rest ih =>
    rw [List.forall_mem_cons] at h
    have hrest := ih h.2
    rw [List.foldr_cons, List.length_cons, Nat.succ_mul]
    omega

/-- The threats of a map are bounded by the number of pieces that it may store and what it may store
for one of them. -/
theorem ThreatMap.mobility_le {m : ThreatMap} {ids : List PieceId} {k : Nat}
    (h : ∀ id s, m.byPiece.get? id = some s → id ∈ ids ∧ s.size ≤ k) :
    m.mobility ≤ ids.length * k := by
  have hentry (e : PieceId × OrderedSet Point) (he : e ∈ m.byPiece.entries) :
      e.1 ∈ ids ∧ e.2.size ≤ k :=
    h e.1 e.2 (OrderedMap.get?_eq_some_iff.2 he)
  have hcount : m.byPiece.values.length ≤ ids.length := by
    rw [OrderedMap.values, List.length_map, ← List.length_map (·.1)]
    refine m.byPiece.nodup_keys.length_le_of_subset fun i hi => ?_
    obtain ⟨e, he, rfl⟩ := List.mem_map.1 hi
    exact (hentry e he).1
  refine (foldr_add_le fun s hs => ?_).trans (Nat.mul_le_mul_right _ hcount)
  obtain ⟨e, he, rfl⟩ := List.mem_map.1 hs
  exact (hentry e he).2

/-- On a board there are at most as many pieces as points. -/
theorem Board.length_ids_le (b : Board) : b.ids.length ≤ b.bounds.height * b.bounds.width := by
  rw [← Bounds.length_points]
  exact List.length_filterMap_le _ _

/-- No chessman is worth more than a queen, and none less than nothing. -/
theorem Chessman.value_mem {m : Chessman} : 0 ≤ m.value ∧ m.value ≤ 900 := by
  cases m <;> decide

/-- The most that one side can score on a board in an undecided game of chessmen. -/
def Bounds.scoreBound (b : Bounds) : Nat := b.height * b.width * (900 + 4 * (b.height + 3 * b.width + 8))

/-- No board is large enough for the sentinel of a search. -/
theorem Bounds.scoreBound_lt (b : Bounds) : b.scoreBound < 1000000 := by
  have harea : b.height * b.width ≤ 26 * 26 := Nat.mul_le_mul b.height_le b.width_le
  have hpiece : 900 + 4 * (b.height + 3 * b.width + 8) ≤ 1348 := by
    have hwidth := b.width_le
    have hheight := b.height_le
    omega
  exact (Nat.mul_le_mul harea hpiece).trans_lt (by decide)

/-- The score is at most that of a won game, for either side. -/
def Score.Bounded (v : Score) : Prop := -Score.win ≤ v ∧ v ≤ Score.win

/-- The score lies between the sentinels of a search. -/
def Score.InRange (v : Score) : Prop := -Score.infinity < v ∧ v < Score.infinity

namespace Game

variable {g : Game} {c : Colour} {id : PieceId}

/-- The number of threats of a piece is bounded by the sides of the board. -/
theorem Kept.size_reach_le (hk : g.Kept) (hkinds : g.board.Standard) (c : Colour) (id : PieceId) :
    ((g.threats.get c).reach id).size ≤ g.board.bounds.height + 3 * g.board.bounds.width + 8 := by
  cases howner : g.board.piece? id with
  | none =>
    have hempty : ((g.threats.get c).reach id).members = [] := by
      rw [List.eq_nil_iff_forall_not_mem]
      intro p hp
      obtain ⟨howns, -⟩ := hk.fresh.mem_reach_iff.1 hp
      obtain ⟨q, hq, -⟩ := Board.owns_iff.1 howns
      rw [howner] at hq
      cases hq
    rw [OrderedSet.size, hempty]
    exact Nat.zero_le _
  | some owner =>
    obtain ⟨m, hkind⟩ := hkinds id owner howner
    have hsub : ((g.threats.get c).reach id).members ⊆ g.board.bounds.sight owner.point := by
      intro p hp
      obtain ⟨-, -, hreach⟩ := hk.fresh.mem_reach_iff.1 hp
      rw [Game.reach, movementsOf, Situation.of?, howner] at hreach
      obtain ⟨movement, hmovement, hp⟩ := List.mem_flatMap.1 hreach
      rw [Option.map_some, Option.getD_some, hkind] at hmovement
      exact Chessman.mem_sight hmovement hp
    exact (List.Nodup.length_le_of_subset (OrderedSet.nodup _) hsub).trans
      (Bounds.length_sight_le _ _)

/-- The threats of one side are bounded by the number of points of the board and what one piece can
threaten from one of them. -/
theorem Kept.mobility_le (hk : g.Kept) (hkinds : g.board.Standard) (c : Colour) :
    (g.threats.get c).mobility ≤ g.board.bounds.height * g.board.bounds.width *
      (g.board.bounds.height + 3 * g.board.bounds.width + 8) := by
  refine (ThreatMap.mobility_le fun id s hs => ?_).trans
    (Nat.mul_le_mul_right _ g.board.length_ids_le)
  have hreach : (g.threats.get c).reach id = s := by
    rw [ThreatMap.reach, hs, Option.getD_some]
  refine ⟨?_, hreach ▸ hk.size_reach_le hkinds c id⟩
  have hstored := (hk.fresh.coherent c).stored_nonempty _ _ hs
  rw [← Bool.not_eq_true, OrderedSet.isEmpty_iff] at hstored
  obtain ⟨p, hp⟩ := not_forall.1 hstored
  rw [not_not, ← hreach] at hp
  exact hk.sound.mem_ids.2 (hk.fresh.mem_reach_iff.1 hp).2.1

/-- The material of one side is bounded by the number of points of the board. -/
theorem material_mem (hkinds : g.board.Standard) (c : Colour) : 0 ≤ g.material c ∧
    g.material c ≤ (g.board.bounds.height * g.board.bounds.width : Nat) * 900 := by
  have hcount : (g.board.pieces.filter (·.colour = c)).length ≤
      g.board.bounds.height * g.board.bounds.width :=
    (List.length_filter_le _ _).trans ((List.length_filterMap_le _ _).trans g.board.length_ids_le)
  have hvalue : ∀ q ∈ g.board.pieces.filter (·.colour = c),
      0 ≤ g.pieceSet.value q.kind ∧ g.pieceSet.value q.kind ≤ 900 := by
    intro q hq
    obtain ⟨id, -, hid⟩ := List.mem_filterMap.1 (List.mem_of_mem_filter hq)
    obtain ⟨m, hm⟩ := hkinds id q hid
    rw [hm]
    exact Chessman.value_mem
  have hsum : ∀ l : List Piece,
      (∀ q ∈ l, 0 ≤ g.pieceSet.value q.kind ∧ g.pieceSet.value q.kind ≤ 900) →
        0 ≤ l.foldr (fun q v => g.pieceSet.value q.kind + v) 0 ∧
          l.foldr (fun q v => g.pieceSet.value q.kind + v) 0 ≤ l.length * 900 := by
    intro l
    induction l with
    | nil => simp
    | cons q rest ih =>
      intro h
      rw [List.forall_mem_cons] at h
      obtain ⟨hlow, hhigh⟩ := ih h.2
      rw [List.foldr_cons, List.length_cons]
      omega
  obtain ⟨hlow, hhigh⟩ := hsum _ hvalue
  refine ⟨hlow, hhigh.trans ?_⟩
  omega

/-- What one side contributes is not negative and bounded by the sides of the board. -/
theorem Kept.sideScore_mem (hk : g.Kept) (hkinds : g.board.Standard) (c : Colour) :
    0 ≤ (g.sideScore c).centipawns ∧ (g.sideScore c).centipawns ≤ g.board.bounds.scoreBound := by
  obtain ⟨hlow, hhigh⟩ := material_mem hkinds c
  have hmobility := hk.mobility_le hkinds c
  have hscore : (g.sideScore c).centipawns = g.material c + (g.threats.get c).mobility * 4 := rfl
  have hbound : g.board.bounds.scoreBound = g.board.bounds.height * g.board.bounds.width * 900 +
      4 * (g.board.bounds.height * g.board.bounds.width *
        (g.board.bounds.height + 3 * g.board.bounds.width + 8)) := by
    rw [Bounds.scoreBound]
    ring
  rw [hscore, hbound]
  generalize g.board.bounds.height * g.board.bounds.width *
    (g.board.bounds.height + 3 * g.board.bounds.width + 8) = threats at hmobility
  omega

/-- The score of a game that a colour has won. -/
def wonScore : Colour → Score
  | .white => .win
  | .black => -.win

/-- A won game has the score of its winner. -/
theorem evaluate_of_won (hwon : g.status = .won c) : g.evaluate = wonScore c := by
  rw [evaluate, hwon]
  cases c <;> rfl

/-- A game of chessmen is won and has the score of its winner, or its score is bounded by the sides of
the board. -/
theorem Kept.evaluate_cases (hk : g.Kept) (hkinds : g.board.Standard) :
    (∃ c, g.status = .won c ∧ g.evaluate = wonScore c) ∨
      g.evaluate.centipawns.natAbs ≤ g.board.bounds.scoreBound := by
  obtain ⟨hwhite, hwhite'⟩ := hk.sideScore_mem hkinds .white
  obtain ⟨hblack, hblack'⟩ := hk.sideScore_mem hkinds .black
  have hdiff : (g.sideScore .white - g.sideScore .black).centipawns.natAbs ≤
      g.board.bounds.scoreBound := by
    change ((g.sideScore .white).centipawns - (g.sideScore .black).centipawns).natAbs ≤ _
    omega
  cases hstatus : g.status with
  | won c => exact .inl ⟨c, rfl, evaluate_of_won hstatus⟩
  | stalemate =>
    rw [evaluate, hstatus]
    exact .inr (Nat.zero_le _)
  | _ =>
    rw [evaluate, hstatus]
    exact .inr hdiff

/-- The static score of a game of chessmen lies between the sentinels of a search. -/
theorem Kept.evaluate_inRange (hk : g.Kept) (hkinds : g.board.Standard) :
    g.evaluate.InRange := by
  change -1000000 < g.evaluate.centipawns ∧ g.evaluate.centipawns < 1000000
  obtain ⟨c, -, hscore⟩ | hle := hk.evaluate_cases hkinds
  · rw [hscore]
    cases c <;> decide
  · have hlt := g.board.bounds.scoreBound_lt
    omega

/-- On the orthodox board only a won game has the static score of one, and no score exceeds it. -/
theorem Kept.evaluate_orthodox (hk : g.Kept) (hkinds : g.board.Standard)
    (hbounds : g.board.bounds = .orthodox) :
    g.evaluate.Bounded ∧ (g.evaluate.isWin → ∃ c, g.status = .won c) := by
  have hwin : g.evaluate.isWin ↔ (100000 : Int) ≤ g.evaluate.centipawns.natAbs := decide_eq_true_iff
  change (-100000 ≤ g.evaluate.centipawns ∧ g.evaluate.centipawns ≤ 100000) ∧ _
  rw [hwin]
  obtain ⟨c, hc, hscore⟩ | hle := hk.evaluate_cases hkinds
  · refine ⟨?_, fun _ => ⟨c, hc⟩⟩
    rw [hscore]
    cases c <;> decide
  · have hlt : Bounds.orthodox.scoreBound < 100000 := by decide
    rw [hbounds] at hle
    omega

end Game

end VariantChess
