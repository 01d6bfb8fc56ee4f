import VariantChess.Proofs.Mobility

/-!
# Threat maps forget their history

A threat map changes when a piece is assigned new points, when a piece is cleared and when the whole
map is. In whatever order this happens to a new map, its two indices stay inverse to each other and
a point has an entry exactly as long as some piece threatens it.

A piece reaches the points with which the last change that concerns it has left it, and nothing else
about the changes shows: two sequences of changes lead to equal maps exactly when they leave every
piece with the same points. In particular each map arises by assigning every piece its last points
once, in any order.
-/

namespace VariantChess

namespace ThreatMap

/-- A change of a threat map. -/
inductive Change where
  /-- A piece is assigned points in place of those it threatened. -/
  | assign (id : PieceId) (ps : List Point)
  /-- A piece is cleared. -/
  | clear (id : PieceId)
  /-- The whole map is cleared. -/
  | reset

/-- The map after a change. -/
def change (m : ThreatMap) : Change → ThreatMap
  | .assign id ps => m.assign id ps
  | .clear id => m.clear id
  | .reset => empty

/-- What becomes of a new map by some changes. -/
def after (changes : List Change) : ThreatMap := changes.foldl change empty

/-- The points with which a change leaves a piece, if the change concerns the piece. -/
def Change.leaves? (id : PieceId) : Change → Option (List Point)
  | .assign i ps => if i = id then some ps else none
  | .clear i => if i = id then some [] else none
  | .reset => some []

/-- The points with which the last change that concerns a piece leaves it. -/
def lastPoints (changes : List Change) (id : PieceId) : List Point :=
  (changes.reverse.findSome? (Change.leaves? id)).getD []

variable {m : ThreatMap} {changes others : List Change} {id : PieceId}
  {settings : List (PieceId × List Point)}

theorem after_append_singleton (changes : List Change) (c : Change) :
    after (changes ++ [c]) = (after changes).change c := by
  rw [after, after, List.foldl_append, List.foldl_cons, List.foldl_nil]

theorem lastPoints_append_singleton (changes : List Change) (c : Change) (id : PieceId) :
    lastPoints (changes ++ [c]) id = (c.leaves? id).getD (lastPoints changes id) := by
  rw [lastPoints, List.reverse_append, List.reverse_singleton, List.singleton_append,
    List.findSome?_cons]
  cases c.leaves? id <;> rfl

/-- A change leaves a piece with its points and the pieces that it does not concern alone. -/
theorem reach_change (m : ThreatMap) (c : Change) (id : PieceId) :
    (m.change c).reach id = ((c.leaves? id).map .ofList).getD (m.reach id) := by
  cases c with
  | assign i ps =>
    rw [change, reach_assign, Change.leaves?]
    by_cases hi : i = id
    · simp [hi]
    · simp [hi, Ne.symm hi]
  | clear i =>
    rw [change, reach_clear, Change.leaves?]
    by_cases hi : i = id
    · simp [hi, OrderedSet.ofList]
    · simp [hi, Ne.symm hi]
  | reset => rfl

/-- Every change keeps a map coherent. -/
theorem Coherent.change (h : m.Coherent) (c : Change) : (m.change c).Coherent := by
  cases c with
  | assign id ps => exact h.assign id ps
  | clear id => exact h.clear id
  | reset => exact .of_empty

/-- A new map stays coherent under all changes. -/
theorem coherent_after (changes : List Change) : (after changes).Coherent := by
  induction changes using List.reverseRecOn with
  | nil => exact .of_empty
  | append_singleton changes c ih =>
    rw [after_append_singleton]
    exact ih.change c

/-- A piece reaches the points with which the last change that concerns it has left it. -/
theorem reach_after (changes : List Change) (id : PieceId) :
    (after changes).reach id = .ofList (lastPoints changes id) := by
  induction changes using List.reverseRecOn with
  | nil => rfl
  | append_singleton changes c ih =>
    rw [after_append_singleton, lastPoints_append_singleton, reach_change, ih]
    cases c.leaves? id <;> rfl

/-- Changes lead to equal maps exactly when they leave every piece with the same points. -/
theorem after_eq_iff :
    after others = after changes ↔
      ∀ id p, p ∈ lastPoints others id ↔ p ∈ lastPoints changes id := by
  constructor
  · intro heq id p
    rw [← OrderedSet.mem_ofList, ← reach_after, heq, reach_after, OrderedSet.mem_ofList]
  · intro hlast
    refine (coherent_after others).ext_reach (coherent_after changes) fun id =>
      OrderedSet.ext_mem fun p => ?_
    rw [reach_after, reach_after, OrderedSet.mem_ofList, OrderedSet.mem_ofList, hlast]

/-- Assignments leave a piece that they name with the points of one of them. -/
theorem lastPoints_mem_settings (h : id ∈ settings.map Prod.fst) :
    (id, lastPoints (settings.map fun s => .assign s.1 s.2) id) ∈ settings := by
  induction settings using List.reverseRecOn with
  | nil => cases h
  | append_singleton settings s ih =>
    rw [List.map_append, List.map_singleton, lastPoints_append_singleton, Change.leaves?]
    by_cases hs : s.1 = id
    · subst hs
      simp
    · have hearlier : id ∈ settings.map Prod.fst := by simpa [Ne.symm hs] using h
      rw [if_neg hs, Option.getD_none]
      exact List.mem_append_left _ (ih hearlier)

/-- Assignments leave a piece that they do not name without points. -/
theorem lastPoints_eq_nil_of_settings (h : id ∉ settings.map Prod.fst) :
    lastPoints (settings.map fun s => .assign s.1 s.2) id = [] := by
  induction settings using List.reverseRecOn with
  | nil => rfl
  | append_singleton settings s ih =>
    rw [List.map_append, List.mem_append, not_or] at h
    have hs : s.1 ≠ id := fun hid => h.2 (by simp [hid])
    rw [List.map_append, List.map_singleton, lastPoints_append_singleton, Change.leaves?, if_neg hs]
    exact ih h.1

/-- However a new map is changed, a piece is listed at a point exactly if the point is listed for
the piece, a point has an entry exactly if a piece is listed there, and the mobility is the sum over
the pieces of what they reach as well as the sum over the points of what threatens them. A piece
reaches the points with which the last change that concerns it has left it. Assigning every piece
these points, in any order, leads to an equal map, and so do precisely those changes that leave
every piece with the same points. -/
theorem indices_of_changes (changes : List Change) :
    (∀ p id, p ∈ (after changes).reach id ↔ id ∈ (after changes).threatsAt p) ∧
      (∀ p, (after changes).threatens p = !((after changes).threatsAt p).isEmpty) ∧
      (after changes).mobility = ∑ᶠ id, ((after changes).reach id).size ∧
      (after changes).mobility = ∑ᶠ p, ((after changes).threatsAt p).size ∧
      (∀ id p, p ∈ (after changes).reach id ↔ p ∈ lastPoints changes id) ∧
      (∀ settings : List (PieceId × List Point),
        (∀ s ∈ settings, ∀ p, p ∈ s.2 ↔ p ∈ lastPoints changes s.1) →
        (∀ id, lastPoints changes id ≠ [] → id ∈ settings.map Prod.fst) →
        after (settings.map fun s => .assign s.1 s.2) = after changes) ∧
      ∀ others : List Change, after others = after changes ↔
        ∀ id p, p ∈ lastPoints others id ↔ p ∈ lastPoints changes id := by
  have hm := coherent_after changes
  refine ⟨fun p id => (hm.mem_threatsAt_iff p id).symm, hm.canonical.contains_eq,
    mobility_eq_finsum_reach _, hm.mobility_eq_finsum_threatsAt, fun id p => ?_,
    fun settings hsame hall => ?_, fun others => after_eq_iff⟩
  · rw [reach_after, OrderedSet.mem_ofList]
  · refine after_eq_iff.2 fun id p => ?_
    by_cases hid : id ∈ settings.map Prod.fst
    · exact hsame _ (lastPoints_mem_settings hid) p
    · have hnone : lastPoints changes id = [] := of_not_not fun hne => hid (hall id hne)
      rw [lastPoints_eq_nil_of_settings hid, hnone]

/-- A map is filled, cleared and filled again by pieces that share points; on the way a piece that is
not there is cleared, one is assigned points twice, one is cleared and one is assigned none. -/
def sharing : List Change :=
  [.assign ⟨4⟩ [.ofCoords 4 4], .reset, .clear ⟨1⟩,
    .assign ⟨0⟩ [.ofCoords 4 3, .ofCoords 4 4], .assign ⟨1⟩ [.ofCoords 4 4],
    .assign ⟨0⟩ [.ofCoords 4 4, .ofCoords 3 3, .ofCoords 4 4], .assign ⟨2⟩ [.ofCoords 3 3],
    .assign ⟨3⟩ [.ofCoords 3 3], .clear ⟨1⟩, .assign ⟨2⟩ []]

/-- Two assignments in the other order, with one of no points between them, lead to the same map;
the point that was left has no entry any more, and three threats remain. -/
theorem indices_of_changes_sharing :
    after ([(⟨3⟩, [.ofCoords 3 3]), (⟨2⟩, []), (⟨0⟩, [.ofCoords 3 3, .ofCoords 4 4])].map
        fun s : PieceId × List Point => .assign s.1 s.2) = after sharing ∧
      (after sharing).threatens (.ofCoords 4 3) = false ∧
      (after sharing).threatsAt (.ofCoords 4 4) = .ofList [⟨0⟩] ∧
      ∑ᶠ id, ((after sharing).reach id).size = 3 ∧
      ∑ᶠ p, ((after sharing).threatsAt p).size = 3 := by
  obtain ⟨-, hentry, hpieces, hpoints, -, hset, -⟩ := indices_of_changes sharing
  have hmobility : (after sharing).mobility = 3 := by decide +kernel
  have hleft : (after sharing).threatsAt (.ofCoords 4 3) = .empty := by decide +kernel
  refine ⟨hset _ ?_ ?_, ?_, by decide +kernel, hpieces ▸ hmobility, hpoints ▸ hmobility⟩
  · simp [sharing, lastPoints, Change.leaves?]
  · intro id hid
    contrapose! hid
    obtain ⟨h₃, h₂, h₀⟩ : id ≠ ⟨3⟩ ∧ id ≠ ⟨2⟩ ∧ id ≠ ⟨0⟩ := by simpa using hid
    by_cases h₁ : id = ⟨1⟩
    · rw [h₁]
      rfl
    · simp [sharing, lastPoints, List.findSome?_cons, Change.leaves?, Ne.symm h₀, Ne.symm h₁,
        Ne.symm h₂, Ne.symm h₃]
  · rw [hentry, hleft]
    rfl

end ThreatMap

end VariantChess
