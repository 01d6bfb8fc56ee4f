import VariantChess.ThreatMap

/-!
# The two indices of a threat map

An index of pieces is canonical when none of its entries is empty. Then a point has an entry exactly
if a piece is listed there, and the entry is determined by the pieces listed. Listing and striking
keep an index canonical, since a point that loses its last piece loses its entry.

A threat map is coherent when its two indices tell the same story, its index of the points is
canonical and no piece is stored without a point. Clearing and assigning keep a map coherent, and a
coherent map is determined by the reach of each piece.
-/

namespace VariantChess

/-- An optional set that is not empty if it is there is determined by its members. -/
theorem OrderedSet.eq_ite_getD {α : Type} [Ord α] {entry : Option (OrderedSet α)}
    (h : ∀ s, entry = some s → s.isEmpty = false) :
    entry = if (entry.getD .empty).isEmpty then none else some (entry.getD .empty) := by
  cases entry with
  | none => rfl
  | some s => rw [Option.getD_some, h s rfl, if_neg Bool.false_ne_true]

namespace PieceIndex

variable {g : PieceIndex} {id i : PieceId} {p q : Point} {ps : List Point}

@[simp] theorem get_empty (p : Point) : empty.get p = none := Grid.get_fill none p

@[simp] theorem listed_empty (p : Point) : empty.listed p = .empty := by
  rw [listed, get_empty, Option.getD_none]

/-- Listing a piece at a point changes what is listed there only by that piece. -/
theorem mem_listed_add : i ∈ (g.add id p).listed q ↔ i ∈ g.listed q ∨ i = id ∧ q = p := by
  rw [listed, add, Grid.get_modify]
  by_cases hp : p = q
  · subst hp
    rw [if_pos rfl, Option.getD_some, OrderedSet.mem_insert, listed]
    grind
  · rw [if_neg hp, listed]
    grind

/-- Striking a piece from a point changes what is listed there only by that piece. -/
theorem mem_listed_strike : i ∈ (g.strike id p).listed q ↔ i ∈ g.listed q ∧ ¬(i = id ∧ q = p) := by
  rw [listed, strike, Grid.get_modify]
  by_cases hp : p = q
  · subst hp
    have hmem : i ∈ (((g.get p).map (·.erase id)).filter fun s => !s.isEmpty).getD .empty ↔
        i ≠ id ∧ i ∈ g.listed p := by
      cases hentry : g.get p with
      | none => simp [listed, hentry]
      | some s =>
        rw [Option.map_some, Option.filter_some, listed, hentry, Option.getD_some,
          ← OrderedSet.mem_erase]
        split
        · rfl
        · next hempty =>
          rw [Bool.not_eq_true, Bool.not_eq_false', OrderedSet.isEmpty_iff] at hempty
          exact iff_of_false (OrderedSet.not_mem_empty i) (hempty i)
    rw [if_pos rfl, hmem]
    grind
  · rw [if_neg hp, listed]
    grind

/-- Listing a piece at several points adds it there and leaves all other listings alone. -/
theorem mem_listed_foldl_add :
    i ∈ (ps.foldl (add · id) g).listed q ↔ i ∈ g.listed q ∨ i = id ∧ q ∈ ps := by
  induction ps generalizing g with
  | nil => simp
  | cons p rest ih =>
    rw [List.foldl_cons, ih, mem_listed_add, List.mem_cons]
    grind

/-- Striking a piece from several points removes it there and leaves all other listings alone. -/
theorem mem_listed_foldl_strike :
    i ∈ (ps.foldl (strike · id) g).listed q ↔ i ∈ g.listed q ∧ ¬(i = id ∧ q ∈ ps) := by
  induction ps generalizing g with
  | nil => simp
  | cons p rest ih =>
    rw [List.foldl_cons, ih, mem_listed_strike, List.mem_cons]
    grind

/-- No entry is without pieces. -/
def Canonical (g : PieceIndex) : Prop := ∀ p s, g.get p = some s → s.isEmpty = false

/-- The index without entries is canonical. -/
theorem Canonical.of_empty : empty.Canonical := fun p s hs => by simp at hs

/-- The entry of a point in a canonical index is determined by the pieces listed there. -/
theorem Canonical.get_eq (hg : g.Canonical) (p : Point) :
    g.get p = if (g.listed p).isEmpty then none else some (g.listed p) :=
  OrderedSet.eq_ite_getD (hg p)

/-- A point has an entry in a canonical index exactly if the set of pieces listed is not empty. -/
theorem Canonical.contains_eq (hg : g.Canonical) (p : Point) :
    g.contains p = !(g.listed p).isEmpty := by
  rw [contains, hg.get_eq]
  cases (g.listed p).isEmpty <;> rfl

/-- A point has an entry in a canonical index exactly if a piece is listed there. -/
theorem Canonical.contains_iff (hg : g.Canonical) : g.contains p ↔ ∃ id, id ∈ g.listed p := by
  rw [hg.contains_eq, Bool.not_eq_true', ← Bool.not_eq_true, OrderedSet.isEmpty_iff]
  simp

/-- Listing a piece keeps an index canonical. -/
theorem Canonical.add (hg : g.Canonical) (id : PieceId) (p : Point) : (g.add id p).Canonical := by
  intro q s hs
  rw [PieceIndex.add, Grid.get_modify] at hs
  split at hs
  · obtain rfl := Option.some.inj hs
    rw [← Bool.not_eq_true, OrderedSet.isEmpty_iff]
    exact fun hnone => hnone id (OrderedSet.mem_insert.2 (.inl rfl))
  · exact hg q s hs

/-- Striking a piece keeps an index canonical, since an entry left without pieces is dropped. -/
theorem Canonical.strike (hg : g.Canonical) (id : PieceId) (p : Point) :
    (g.strike id p).Canonical := by
  intro q s hs
  rw [PieceIndex.strike, Grid.get_modify] at hs
  split at hs
  · simpa using (Option.filter_eq_some_iff.1 hs).2
  · exact hg q s hs

/-- Listing a piece at several points keeps an index canonical. -/
theorem Canonical.foldl_add (hg : g.Canonical) (id : PieceId) (ps : List Point) :
    (ps.foldl (PieceIndex.add · id) g).Canonical := by
  induction ps generalizing g with
  | nil => exact hg
  | cons p rest ih => exact ih (hg.add id p)

/-- Striking a piece from several points keeps an index canonical. -/
theorem Canonical.foldl_strike (hg : g.Canonical) (id : PieceId) (ps : List Point) :
    (ps.foldl (PieceIndex.strike · id) g).Canonical := by
  induction ps generalizing g with
  | nil => exact hg
  | cons p rest ih => exact ih (hg.strike id p)

end PieceIndex

namespace ThreatMap

/-- The two indices agree, and none of them stores an empty set. -/
structure Coherent (m : ThreatMap) : Prop where
  mem_threatsAt_iff : ∀ p id, id ∈ m.threatsAt p ↔ p ∈ m.reach id
  canonical : m.byPoint.Canonical
  stored_nonempty : ∀ id s, m.byPiece.get? id = some s → s.isEmpty = false

/-- The map without threats is coherent. -/
theorem Coherent.of_empty : Coherent empty where
  mem_threatsAt_iff p id := by
    rw [threatsAt, reach_empty, empty, PieceIndex.listed_empty]
    simp
  canonical := .of_empty
  stored_nonempty id s h := by simp [empty] at h

/-- A coherent map threatens a point exactly if some piece does. -/
theorem Coherent.threatens_iff {m : ThreatMap} (h : m.Coherent) {p : Point} :
    m.threatens p ↔ ∃ id, id ∈ m.threatsAt p := h.canonical.contains_iff

/-- Clearing a piece of a coherent map strikes it from every point. -/
theorem Coherent.mem_threatsAt_clear {m : ThreatMap} (h : m.Coherent) (id i : PieceId)
    (p : Point) : i ∈ (m.clear id).threatsAt p ↔ i ∈ m.threatsAt p ∧ i ≠ id := by
  rw [threatsAt, clear, PieceIndex.mem_listed_foldl_strike]
  have hreach := h.mem_threatsAt_iff p id
  simp only [threatsAt, OrderedSet.mem_def] at hreach ⊢
  grind

/-- Clearing a piece keeps a map coherent. -/
theorem Coherent.clear {m : ThreatMap} (h : m.Coherent) (id : PieceId) : (m.clear id).Coherent where
  mem_threatsAt_iff p i := by
    rw [h.mem_threatsAt_clear, reach_clear, h.mem_threatsAt_iff]
    by_cases hi : i = id <;> simp [hi]
  canonical := h.canonical.foldl_strike id _
  stored_nonempty i s hs := by
    rw [ThreatMap.clear, OrderedMap.get?_erase] at hs
    split at hs
    · cases hs
    · exact h.stored_nonempty i s hs

/-- Assigning points to a piece keeps a map coherent. -/
theorem Coherent.assign {m : ThreatMap} (h : m.Coherent) (id : PieceId) (ps : List Point) :
    (m.assign id ps).Coherent := by
  have hc := h.clear id
  by_cases he : (OrderedSet.ofList ps).isEmpty
  · rw [ThreatMap.assign, if_pos he]
    exact hc
  · constructor
    · intro p i
      have hlist : i ∈ (m.assign id ps).threatsAt p ↔
          i ∈ (m.clear id).threatsAt p ∨ i = id ∧ p ∈ OrderedSet.ofList ps := by
        rw [ThreatMap.assign, if_neg he]
        exact PieceIndex.mem_listed_foldl_add
      rw [hlist, hc.mem_threatsAt_iff, reach_assign, reach_clear]
      by_cases hi : i = id <;> simp [hi]
    · rw [ThreatMap.assign, if_neg he]
      exact hc.canonical.foldl_add id _
    · intro i s hs
      rw [ThreatMap.assign, if_neg he, OrderedMap.get?_insert] at hs
      split at hs
      · obtain rfl := Option.some.inj hs
        simpa using he
      · exact hc.stored_nonempty i s hs

/-- A stored set of points is the reach of its piece. -/
theorem Coherent.get?_byPiece {m : ThreatMap} (h : m.Coherent) (id : PieceId) :
    m.byPiece.get? id = if (m.reach id).isEmpty then none else some (m.reach id) :=
  OrderedSet.eq_ite_getD (h.stored_nonempty id)

/-- Coherent maps in which every piece reaches the same points are equal. -/
theorem Coherent.ext_reach {m n : ThreatMap} (hm : m.Coherent) (hn : n.Coherent)
    (h : ∀ id, m.reach id = n.reach id) : m = n := by
  have hlisted (p : Point) : m.byPoint.listed p = n.byPoint.listed p :=
    OrderedSet.ext_mem fun id =>
      (hm.mem_threatsAt_iff p id).trans ((h id) ▸ (hn.mem_threatsAt_iff p id).symm)
  have hpoint : m.byPoint = n.byPoint := Grid.ext_get fun p => by
    rw [hm.canonical.get_eq, hn.canonical.get_eq, hlisted]
  have hpiece : m.byPiece = n.byPiece := OrderedMap.ext_get? fun id => by
    rw [hm.get?_byPiece, hn.get?_byPiece, h]
  cases m
  cases n
  exact congr (congrArg _ hpoint) hpiece

end ThreatMap

end VariantChess
