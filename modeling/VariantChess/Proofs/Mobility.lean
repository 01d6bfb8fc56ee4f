import Mathlib.Algebra.BigOperators.Finprod
import Mathlib.Combinatorics.Enumerative.DoubleCounting
import VariantChess.Proofs.ThreatIndex

/-!
# Counting threats

The mobility of a threat map is counted over the pieces that are stored. It is the sum over all
pieces of the number of points they threaten, since a piece that is not stored threatens none. In a
coherent map it is also the sum over all points of the number of pieces that threaten them: both
sums count the pairs of a piece and a point that it threatens.
-/

namespace VariantChess

/-- In a finite set that contains a set there are as many members of the set as it has. -/
theorem OrderedSet.card_filter_mem {α : Type} [Ord α] [Std.TransOrd α] [DecidableEq α]
    (s : OrderedSet α) {t : Finset α} (h : ∀ a ∈ s, a ∈ t) [DecidablePred (· ∈ s)] :
    (t.filter (· ∈ s)).card = s.size := by
  have hfilter : t.filter (· ∈ s) = s.members.toFinset := by
    ext a
    rw [Finset.mem_filter, List.mem_toFinset, ← mem_def, and_iff_right_of_imp (h a)]
  rw [hfilter, List.toFinset_card_of_nodup s.nodup, size]

namespace ThreatMap

variable {m : ThreatMap} {id : PieceId} {p : Point}

/-- A piece that threatens a point is stored. -/
theorem mem_keys_of_mem_reach (h : p ∈ m.reach id) : id ∈ m.byPiece.keys := by
  rw [reach] at h
  cases hs : m.byPiece.get? id with
  | none =>
    rw [hs] at h
    exact absurd h (OrderedSet.not_mem_empty p)
  | some s => exact List.mem_map.2 ⟨(id, s), OrderedMap.get?_eq_some_iff.1 hs, rfl⟩

/-- The mobility is the sum of what the stored pieces reach. -/
theorem mobility_eq_sum_keys (m : ThreatMap) :
    m.mobility = ∑ id ∈ m.byPiece.keys.toFinset, (m.reach id).size := by
  have hvalues : m.byPiece.values.map OrderedSet.size =
      m.byPiece.keys.map fun id => (m.reach id).size := by
    rw [OrderedMap.values, OrderedMap.keys, List.map_map, List.map_map]
    refine List.map_congr_left fun e he => ?_
    have hreach : m.reach e.1 = e.2 := by
      rw [reach, OrderedMap.get?_eq_some_iff.2 he, Option.getD_some]
    exact congrArg OrderedSet.size hreach.symm
  rw [List.sum_toFinset _ m.byPiece.nodup_keys, ← hvalues, List.sum, List.foldr_map]
  rfl

/-- The mobility is the sum of what all pieces reach. -/
theorem mobility_eq_finsum_reach (m : ThreatMap) : m.mobility = ∑ᶠ id, (m.reach id).size := by
  rw [mobility_eq_sum_keys]
  refine (finsum_eq_sum_of_support_subset _ fun id hid => ?_).symm
  obtain ⟨p, hp⟩ := List.exists_mem_of_ne_nil _ (List.ne_nil_of_length_pos (Nat.pos_of_ne_zero hid))
  exact List.mem_toFinset.2 (mem_keys_of_mem_reach hp)

/-- The mobility of a coherent map is the sum over all points of the pieces that threaten them. -/
theorem Coherent.mobility_eq_finsum_threatsAt (hm : m.Coherent) :
    m.mobility = ∑ᶠ p, (m.threatsAt p).size := by
  classical
  have hall (p : Point) : p ∈ Grid.points.toFinset := List.mem_toFinset.2 (Grid.mem_points p)
  have hreach (id : PieceId) :
      (Grid.points.toFinset.bipartiteAbove (fun id p => p ∈ m.reach id) id).card =
        (m.reach id).size :=
    (m.reach id).card_filter_mem fun p _ => hall p
  have hthreats (p : Point) :
      (m.byPiece.keys.toFinset.bipartiteBelow (fun id p => p ∈ m.reach id) p).card =
        (m.threatsAt p).size := by
    simp only [Finset.bipartiteBelow, ← hm.mem_threatsAt_iff]
    refine (m.threatsAt p).card_filter_mem fun id hid => List.mem_toFinset.2 ?_
    exact mem_keys_of_mem_reach ((hm.mem_threatsAt_iff p id).1 hid)
  rw [mobility_eq_sum_keys, finsum_eq_sum_of_support_subset _ fun p _ => hall p]
  simp only [← hreach, ← hthreats]
  exact Finset.sum_card_bipartiteAbove_eq_sum_card_bipartiteBelow _

end ThreatMap

end VariantChess
