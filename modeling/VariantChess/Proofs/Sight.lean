import Mathlib.Data.List.Nodup
import VariantChess.Proofs.Walk

/-!
# Lines of sight

A slide looks along a file, a rank or a diagonal: the points of the line lie a number of unit steps
away. The path between two points of a line holds the points in between in its interior. When a
direct movement threatens a point and, from the same place, does not do so on another board, then it
slides, and on the other board some point of the line in between stops it. All chessmen move by
direct movements.
-/

namespace VariantChess

/-- A list without repeats keeps all of its entries when repeats are erased. -/
theorem eraseDups_of_nodup {α : Type} [BEq α] [LawfulBEq α] {l : List α} (h : l.Nodup) :
    l.eraseDups = l := by
  induction l with
  | nil => rfl
  | cons a rest ih =>
    obtain ⟨ha, hrest⟩ := List.nodup_cons.1 h
    have hfilter : rest.filter (fun b => !b == a) = rest := by
      refine List.filter_eq_self.2 fun b hb => ?_
      have hne : b ≠ a := fun hba => ha (hba ▸ hb)
      simpa using hne
    rw [List.eraseDups_cons, hfilter, ih hrest]

namespace Point

/-- A step to a neighbouring point in one of the eight directions. -/
structure IsStep (d : Int × Int) : Prop where
  files : d.1.natAbs ≤ 1
  ranks : d.2.natAbs ≤ 1
  ne_zero : d ≠ (0, 0)

/-- A point lies a number of steps in a direction from another. -/
def Along (p : Point) (d : Int × Int) (n : Nat) (q : Point) : Prop :=
  delta p q = (d.1 * n, d.2 * n)

variable {p q r : Point} {d e : Int × Int} {m n : Nat}

theorem along_iff : p.Along d n q ↔
    (q.x.val : Int) = p.x.val + d.1 * n ∧ (q.y.val : Int) = p.y.val + d.2 * n := by
  rw [Along, delta, Prod.mk.injEq]
  omega

/-- No steps lead nowhere else. -/
theorem along_zero (p : Point) (d : Int × Int) : p.Along d 0 p := by
  rw [along_iff, Int.natCast_zero, Int.mul_zero, Int.mul_zero, Int.add_zero, Int.add_zero]
  exact ⟨rfl, rfl⟩

/-- A step, a number of steps and a point lead to one point. -/
theorem Along.unique (hq : p.Along d n q) (hr : p.Along d n r) : q = r := by
  rw [along_iff] at hq hr
  cases q
  cases r
  rw [mk.injEq, Fin.ext_iff, Fin.ext_iff]
  dsimp only at hq hr
  omega

/-- From one point of a line to a later one it goes in the direction of the line. -/
theorem Along.sub (hq : p.Along d m q) (hr : p.Along d n r) (h : m ≤ n) :
    q.Along d (n - m) r := by
  rw [along_iff] at hq hr ⊢
  have hcast : ((n - m : Nat) : Int) = n - m := by omega
  rw [hcast, Int.mul_sub, Int.mul_sub]
  omega

/-- From a farther point of a line to a nearer one, both seen from the end of the line. -/
theorem Along.sub_end (hp : p.Along d m r) (hq : q.Along d n r) (h : m ≤ n) :
    q.Along d (n - m) p := by
  rw [along_iff] at hp hq ⊢
  have hcast : ((n - m : Nat) : Int) = n - m := by omega
  rw [hcast, Int.mul_sub, Int.mul_sub]
  omega

/-- The sign of a positive multiple of a number that is at most one in size is the number. -/
theorem sign_mul_of_natAbs_le_one {a : Int} (ha : a.natAbs ≤ 1) (hn : 0 < n) :
    (a * n).sign = a := by
  have hcast : (n : Int).sign = 1 := Int.sign_eq_one_of_pos (by omega)
  rw [Int.sign_mul, hcast, Int.mul_one]
  have hcases : a = -1 ∨ a = 0 ∨ a = 1 := by omega
  rcases hcases with rfl | rfl | rfl <;> rfl

/-- Two points determine the direction of their line. -/
theorem Along.step_unique (hd : IsStep d) (he : IsStep e) (hm : 0 < m) (hn : 0 < n)
    (h : p.Along d m q) (h' : p.Along e n q) : d = e := by
  have heq : (d.1 * m, d.2 * m) = ((e.1 * n, e.2 * n) : Int × Int) := h.symm.trans h'
  obtain ⟨h1, h2⟩ := Prod.mk.inj heq
  refine Prod.ext ?_ ?_
  · rw [← sign_mul_of_natAbs_le_one hd.files hm, h1, sign_mul_of_natAbs_le_one he.files hn]
  · rw [← sign_mul_of_natAbs_le_one hd.ranks hm, h2, sign_mul_of_natAbs_le_one he.ranks hn]

/-- The number of steps is the number of king steps. -/
theorem Along.distance_eq (hd : IsStep d) (h : p.Along d n q) : distance p q = n := by
  obtain ⟨hfiles, hranks, hne⟩ := hd
  have hone : d.1.natAbs = 1 ∨ d.2.natAbs = 1 := by
    by_contra hzero
    exact hne (Prod.ext (by dsimp only; omega) (by dsimp only; omega))
  have hx : d.1.natAbs * n ≤ n := by
    simpa using Nat.mul_le_mul_right n hfiles
  have hy : d.2.natAbs * n ≤ n := by
    simpa using Nat.mul_le_mul_right n hranks
  rw [distance, h, Int.natAbs_mul, Int.natAbs_mul, Int.natAbs_natCast]
  rcases hone with hone | hone
  · rw [hone, Nat.one_mul]
    exact Nat.max_eq_left hy
  · rw [hone, Nat.one_mul]
    exact Nat.max_eq_right hx

/-- A line of sight runs along a file, a rank or a diagonal. -/
theorem Along.colinear (hd : IsStep d) (h : p.Along d n q) : Path.colinear (delta p q) := by
  obtain ⟨hfiles, hranks, -⟩ := hd
  have hx : d.1 = -1 ∨ d.1 = 0 ∨ d.1 = 1 := by omega
  have hy : d.2 = -1 ∨ d.2 = 0 ∨ d.2 = 1 := by omega
  rw [h, Path.colinear]
  rcases hx with hx | hx | hx <;> rcases hy with hy | hy | hy <;> simp [hx, hy]

/-- No line leads to a point that is a knight's jump away. -/
theorem Along.not_knight (hd : IsStep d) (h : p.Along d n q) (hfiles : (delta p q).1.natAbs = 1) :
    (delta p q).2.natAbs ≠ 2 := by
  intro hranks
  rw [h, Int.natAbs_mul, Int.natAbs_natCast] at hfiles hranks
  obtain rfl := Nat.eq_one_of_mul_eq_one_left hfiles
  have hone := hd.ranks
  omega

/-- Every step of a line between two points leads to a point. -/
theorem Along.exists_between (hd : IsStep d) (h : p.Along d n q) {i : Nat} (hi : i ≤ n) :
    ∃ r, p.offset? (d.1 * i) (d.2 * i) = some r ∧ p.Along d i r := by
  obtain ⟨hfiles, hranks, -⟩ := hd
  rw [along_iff] at h
  have hx : d.1 = -1 ∨ d.1 = 0 ∨ d.1 = 1 := by omega
  have hy : d.2 = -1 ∨ d.2 = 0 ∨ d.2 = 1 := by omega
  have hpx := p.x.isLt
  have hpy := p.y.isLt
  have hqx := q.x.isLt
  have hqy := q.y.isLt
  have hlocate : (locate? (p.x.val + d.1 * i) (p.y.val + d.2 * i)).isSome := by
    rw [locate?, dif_pos]
    · rfl
    · rcases hx with hx | hx | hx <;> rcases hy with hy | hy | hy <;> rw [hx, hy] at h ⊢ <;> omega
  obtain ⟨r, hr⟩ := Option.isSome_iff_exists.1 hlocate
  exact ⟨r, hr, offset?_eq_some_iff.1 hr⟩

/-- The point a number of steps away; the point itself when the steps lead out of the square. -/
def stepped (p : Point) (d : Int × Int) (n : Nat) : Point :=
  (p.offset? (d.1 * n) (d.2 * n)).getD p

/-- The steps between two points of a line stay in the square. -/
theorem Along.stepped (hd : IsStep d) (h : p.Along d n q) {i : Nat} (hi : i ≤ n) :
    p.offset? (d.1 * i) (d.2 * i) = some (p.stepped d i) ∧ p.Along d i (p.stepped d i) := by
  obtain ⟨r, hoff, hr⟩ := h.exists_between hd hi
  rw [Point.stepped, hoff, Option.getD_some]
  exact ⟨rfl, hr⟩

/-- Different numbers of steps lead to different points. -/
theorem Along.count_unique (hd : IsStep d) (h : p.Along d m q) (h' : p.Along d n q) : m = n :=
  (h.distance_eq hd).symm.trans (h'.distance_eq hd)

/-- The path between two points of a line goes step by step. -/
theorem Along.points_between (hd : IsStep d) (hn : 0 < n) (h : p.Along d n q) :
    (Path.between p q).points = (List.range (n + 1)).map (p.stepped d) := by
  have hlist : (List.range (n + 1)).filterMap (fun i : Nat =>
      p.offset? ((delta p q).1.sign * i) ((delta p q).2.sign * i)) =
        (List.range (n + 1)).map (p.stepped d) := by
    rw [h, sign_mul_of_natAbs_le_one hd.files hn, sign_mul_of_natAbs_le_one hd.ranks hn,
      ← List.filterMap_eq_map]
    refine List.filterMap_congr fun i hi => ?_
    exact (h.stepped hd (Nat.lt_succ_iff.1 (List.mem_range.1 hi))).1
  have hnodup : ((List.range (n + 1)).map (p.stepped d)).Nodup := by
    refine List.Nodup.map_on (fun i hi j hj hij => ?_) List.nodup_range
    have hi' := (h.stepped hd (Nat.lt_succ_iff.1 (List.mem_range.1 hi))).2
    have hj' := (h.stepped hd (Nat.lt_succ_iff.1 (List.mem_range.1 hj))).2
    rw [hij] at hi'
    exact hi'.count_unique hd hj'
  rw [Path.between, if_pos (h.colinear hd), h.distance_eq hd, hlist]
  exact eraseDups_of_nodup hnodup

/-- The points strictly between the ends of a line lie in the interior of the path. -/
theorem Along.mem_interior (hd : IsStep d) (h : p.Along d n q) (hr : p.Along d m r)
    (hpos : 0 < m) (hlt : m < n) : r ∈ (Path.between p q).interior := by
  obtain ⟨k, rfl⟩ : ∃ k, n = k + 1 := ⟨n - 1, by omega⟩
  obtain rfl : r = p.stepped d m := hr.unique (h.stepped hd (Nat.le_of_lt hlt)).2
  rw [Path.interior, h.points_between hd (Nat.succ_pos k), ← List.map_tail, ← List.map_dropLast]
  refine List.mem_map_of_mem ?_
  rw [List.range_succ, List.range_succ_eq_map, List.cons_append, List.tail_cons,
    List.dropLast_concat]
  exact List.mem_map.2 ⟨m - 1, List.mem_range.2 (by omega), by omega⟩

end Point

namespace Path

variable {t : Path} {files ranks : Bool}

/-- The points of a ray are the multiples of a unit step along the files, the ranks or both. -/
def IsRay (t : Path) (files ranks : Bool) : Prop := (files || ranks) ∧
  t.points.map (fun p => (p.x.val, p.y.val)) = (List.range t.points.length).map fun k =>
    (if files then k + 1 else 0, if ranks then k + 1 else 0)

instance : Decidable (t.IsRay files ranks) := inferInstanceAs (Decidable (_ ∧ _))

/-- The entry of a ray at a position is that many steps and one more away. -/
theorem IsRay.coords (h : t.IsRay files ranks) {i : Nat} {step : Point}
    (hstep : t.points[i]? = some step) :
    step.x.val = (if files then i + 1 else 0) ∧ step.y.val = if ranks then i + 1 else 0 := by
  have hentry : (t.points.map fun p => (p.x.val, p.y.val))[i]? = some (step.x.val, step.y.val) := by
    rw [List.getElem?_map, hstep, Option.map_some]
  rw [h.2, List.getElem?_map, Option.map_eq_some_iff] at hentry
  obtain ⟨k, hk, hpair⟩ := hentry
  obtain ⟨hi, hk⟩ := List.getElem?_eq_some_iff.1 hk
  rw [List.getElem_range] at hk
  subst hk
  obtain ⟨hx, hy⟩ := Prod.mk.inj hpair
  exact ⟨hx.symm, hy.symm⟩

end Path

/-- The attack of a direct movement does not depend on conditions that are volatile, and if it
slides, it slides along a ray. -/
def Movement.Direct (m : Movement) : Prop := m.isVolatile = false ∧
  (m.isAttack → m.stride = .slide → ∃ files ranks, m.template.IsRay files ranks)

instance (m : Movement) : Decidable m.Direct := inferInstanceAs (Decidable (_ ∧ _))

/-- The movements of the chessmen are direct. -/
theorem Chessman.direct {c : Chessman} {m : Movement} (hm : m ∈ c.movements) : m.Direct := by
  have hall : ∀ c : Chessman, ∀ m ∈ c.movements, m.Direct := by
    intro c
    cases c <;> decide +kernel
  exact hall c m hm

namespace Movement

variable {m : Movement} {s s' : Situation}

/-- Templates are reflected by signs. -/
theorem sign_of_mem_quadrants {c : Colour} {q : Int × Int} (hq : q ∈ m.quadrants c) :
    (q.1 = 1 ∨ q.1 = -1) ∧ (q.2 = 1 ∨ q.2 = -1) := by
  have hforward := c.forward_eq
  rw [mem_quadrants_iff] at hq
  split at hq
  · obtain ⟨hx, hy⟩ := hq
    refine ⟨?_, ?_⟩
    · split at hx <;> simp [hx]
    · split at hy <;> omega
  · obtain ⟨hx, hy⟩ := hq
    omega

/-- A template point lands on the point of the board that its reflection leads to. -/
theorem landing?_eq_some_iff {q : Int × Int} {step p : Point} : landing? s q step = some p ↔
    Point.delta s.origin p = (q.1 * step.x.val, q.2 * step.y.val) ∧
      s.board.bounds.contains p := by
  rw [landing?, Bounds.locate?, Option.filter_eq_some_iff, Point.locate?_eq_some_iff, Point.delta,
    Prod.mk.injEq]
  constructor
  · rintro ⟨⟨hx, hy⟩, hin⟩
    exact ⟨⟨by omega, by omega⟩, hin⟩
  · rintro ⟨⟨hx, hy⟩, hin⟩
    exact ⟨⟨by omega, by omega⟩, hin⟩

end Movement

/-- A point is seen along a line that nothing in between stops. -/
structure Situation.Sees (s : Situation) (d : Int × Int) (n : Nat) (p : Point) : Prop where
  step : Point.IsStep d
  along : s.origin.Along d n p
  clear : ∀ i, 0 < i → i < n →
    ∃ r, s.origin.Along d i r ∧ Movement.passes s .threats (s.board.pieceAt? r)

/-- No piece of the own side stands on a line of sight. -/
theorem Situation.Sees.hostile {s : Situation} {d : Int × Int} {n i : Nat} {p r : Point}
    {piece : Piece} (h : s.Sees d n p) (hi : 0 < i) (hin : i < n) (hr : s.origin.Along d i r)
    (hpiece : s.board.pieceAt? r = some piece) : piece.colour ≠ s.colour := by
  obtain ⟨r', hr', hpass⟩ := h.clear i hi hin
  obtain rfl := hr.unique hr'
  rw [hpiece, Movement.passes, Bool.and_eq_true, Bool.and_eq_true] at hpass
  exact of_decide_eq_true hpass.1.2

/-- The step of a ray in a quadrant. -/
theorem Movement.along_of_landing? {s : Situation} {q : Int × Int} {t : Path} {files ranks : Bool}
    {i : Nat} {step p : Point} (hray : t.IsRay files ranks) (hstep : t.points[i]? = some step)
    (hland : Movement.landing? s q step = some p) :
    s.origin.Along (if files then q.1 else 0, if ranks then q.2 else 0) (i + 1) p := by
  obtain ⟨hx, hy⟩ := hray.coords hstep
  obtain ⟨hdelta, -⟩ := Movement.landing?_eq_some_iff.1 hland
  rw [Point.Along, hdelta, hx, hy]
  cases files <;> cases ranks <;> simp

/-- When an attack that is not volatile threatens a point and, from the same place on another board,
does not, then it slides there, and on the other board an earlier point of the slide stops it. -/
theorem Movement.exists_stop {m : Movement} (hv : m.isVolatile = false) {s s' : Situation}
    (hplace : s.SamePlace s') {p : Point} (hp : p ∈ m.candidates s .threats)
    (hp' : p ∉ m.candidates s' .threats) : m.stride = .slide ∧
      ∃ q ∈ m.quadrants s.colour, ∃ (i : Nat) (step : Point), m.template.points[i]? = some step ∧
        landing? s q step = some p ∧
        (∀ j < i, ∀ step', m.template.points[j]? = some step' →
          ∃ r, landing? s q step' = some r ∧ passes s .threats (s.board.pieceAt? r)) ∧
        ∃ j < i, ∃ step' r, m.template.points[j]? = some step' ∧ landing? s q step' = some r ∧
          passes s' .threats (s'.board.pieceAt? r) = false := by
  obtain ⟨hattack, hwalk, hholds⟩ := mem_candidates.1 hp
  have ha := hattack rfl
  have hnowalk : p ∉ m.walk s' .threats := by
    intro hwalk'
    exact hp' (mem_candidates.2 ⟨hattack, hwalk', (holds_iff_of_calm ha hv hplace p).2 hholds⟩)
  obtain ⟨q, hq, harm⟩ := mem_walk.1 hwalk
  obtain ⟨i, step, hstep, hland, -, hpass⟩ := mem_arm.1 harm
  -- the same template point lands on the point again, so a slide must have been stopped earlier
  have hstopped : ¬(m.stride = .slide → ∀ j < i, ∀ step', m.template.points[j]? = some step' →
      ∃ r, landing? s' q step' = some r ∧ passes s' .threats (s'.board.pieceAt? r)) := by
    intro hpass'
    refine hnowalk (mem_walk.2 ⟨q, hplace.colour ▸ hq, mem_arm.2
      ⟨i, step, hstep, ?_, reaches_threats ha _, hpass'⟩⟩)
    rw [landing?_eq_of_samePlace hplace, hland]
  have hs : m.stride = .slide := by
    by_contra hs
    exact hstopped fun h => absurd h hs
  refine ⟨hs, q, hq, i, step, hstep, hland, hpass hs, ?_⟩
  by_contra hnone
  refine hstopped fun _ j hj step' hstep' => ?_
  obtain ⟨r, hland', -⟩ := hpass hs j hj step' hstep'
  refine ⟨r, by rw [landing?_eq_of_samePlace hplace, hland'], ?_⟩
  by_contra hblocked
  exact hnone ⟨j, hj, step', r, hstep', hland', Bool.eq_false_iff.2 hblocked⟩

/-- In every quadrant a ray goes by a unit step. -/
theorem Movement.isStep_of_mem_quadrants {m : Movement} {c : Colour} {q : Int × Int}
    (hq : q ∈ m.quadrants c) {files ranks : Bool} (hray : files || ranks) :
    Point.IsStep (if files then q.1 else 0, if ranks then q.2 else 0) := by
  obtain ⟨hfile, hrank⟩ := sign_of_mem_quadrants hq
  refine ⟨?_, ?_, ?_⟩
  · cases files
    · exact Nat.zero_le 1
    · change q.1.natAbs ≤ 1
      omega
  · cases ranks
    · exact Nat.zero_le 1
    · change q.2.natAbs ≤ 1
      omega
  · intro hzero
    obtain ⟨hx, hy⟩ := Prod.mk.inj hzero
    cases files with
    | true =>
      change q.1 = 0 at hx
      omega
    | false =>
      cases ranks with
      | true =>
        change q.2 = 0 at hy
        omega
      | false => cases hray

/-- When a direct movement threatens a point and does not threaten it from the same place on another
board, then it sees the point along a line on the one board, and on the other something in between
stops it. -/
theorem Movement.Direct.exists_block {m : Movement} (hm : m.Direct) {s s' : Situation}
    (hplace : s.SamePlace s') {p : Point} (hp : p ∈ m.candidates s .threats)
    (hp' : p ∉ m.candidates s' .threats) :
    ∃ d n i r, s.Sees d n p ∧ 0 < i ∧ i < n ∧ s.origin.Along d i r ∧
      Movement.passes s' .threats (s'.board.pieceAt? r) = false := by
  obtain ⟨hs, q, hq, i, step, hstep, hland, hpass, j, hj, step', r, hstep', hland', hstops⟩ :=
    Movement.exists_stop hm.1 hplace hp hp'
  obtain ⟨files, ranks, hray⟩ := hm.2 ((Movement.mem_candidates.1 hp).1 rfl) hs
  refine ⟨_, i + 1, j + 1, r, ⟨Movement.isStep_of_mem_quadrants hq hray.1,
    Movement.along_of_landing? hray hstep hland, ?_⟩, Nat.succ_pos j, Nat.succ_lt_succ hj,
    Movement.along_of_landing? hray hstep' hland', hstops⟩
  intro l hl hln
  obtain ⟨k, rfl⟩ : ∃ k, l = k + 1 := ⟨l - 1, by omega⟩
  have hk : k < m.template.points.length := by
    have hi := (List.getElem?_eq_some_iff.1 hstep).1
    omega
  obtain ⟨r', hland'', hpass''⟩ := hpass k (by omega) _ (List.getElem?_eq_getElem hk)
  exact ⟨r', Movement.along_of_landing? hray (List.getElem?_eq_getElem hk) hland'', hpass''⟩

end VariantChess
