import VariantChess.Ordered.Set

/-!
# Finite maps kept in order of their keys

An `OrderedMap` is an association list with strictly increasing keys, so it lists its entries in
key order and has one representation only. The main statements say what `insert` and `erase` do to
`get?`, and that two maps with the same lookups are equal.
-/

namespace VariantChess

/-- A finite map, kept as the list of its entries in increasing order of their keys. -/
structure OrderedMap (κ : Type) [Ord κ] (ν : Type) where
  entries : List (κ × ν)
  increasing : entries.Pairwise fun a b => compare a.1 b.1 = .lt

namespace OrderedMap

variable {κ ν : Type} [Ord κ]

/-- The map without entries. -/
def empty : OrderedMap κ ν := ⟨[], .nil⟩

instance : EmptyCollection (OrderedMap κ ν) := ⟨empty⟩
instance : Inhabited (OrderedMap κ ν) := ⟨empty⟩

/-- The keys, in increasing order. -/
def keys (m : OrderedMap κ ν) : List κ := m.entries.map (·.1)

/-- The values, in the order of their keys. -/
def values (m : OrderedMap κ ν) : List ν := m.entries.map (·.2)

/-- Put an entry at its place in a list with increasing keys, replacing the entry of that key. -/
@[specialize] def insertInto (k : κ) (v : ν) : List (κ × ν) → List (κ × ν)
  | [] => [(k, v)]
  | e :: rest =>
    match compare k e.1 with
    | .lt => (k, v) :: e :: rest
    | .eq => (k, v) :: rest
    | .gt => e :: insertInto k v rest

section Decidable

variable [DecidableEq κ]

instance [DecidableEq ν] : DecidableEq (OrderedMap κ ν) := fun s t =>
  decidable_of_iff (s.entries = t.entries) (by cases s; cases t; simp)

/-- The value of the first entry with a key. -/
@[specialize] def lookup (k : κ) : List (κ × ν) → Option ν
  | [] => none
  | e :: rest => if k = e.1 then some e.2 else lookup k rest

/-- The value at a key. -/
@[specialize] def get? (m : OrderedMap κ ν) (k : κ) : Option ν := lookup k m.entries

/-- Whether a key has a value. -/
@[specialize] def contains (m : OrderedMap κ ν) (k : κ) : Bool := (m.get? k).isSome

/-- Take a key out of the map. -/
@[specialize] def erase (m : OrderedMap κ ν) (k : κ) : OrderedMap κ ν :=
  ⟨m.entries.filter (·.1 ≠ k), m.increasing.filter _⟩

@[simp] theorem get?_empty (k : κ) : (empty : OrderedMap κ ν).get? k = none := rfl

omit [Ord κ] in
theorem lookup_filter_ne (k x : κ) (l : List (κ × ν)) :
    lookup x (l.filter (·.1 ≠ k)) = if x = k then none else lookup x l := by
  induction l with
  | nil => simp [lookup]
  | cons b rest ih =>
    by_cases hb : b.1 = k
    · rw [List.filter_cons_of_neg (by simp [hb]), ih]
      by_cases hx : x = k <;> simp [lookup, hx, hb]
    · rw [List.filter_cons_of_pos (by simp [hb])]
      by_cases hx : x = b.1
      · simp [lookup, hx, hb]
      · simp only [lookup, hx, if_false, ih]

/-- After an erasure its key has no value, and every other key what it had. -/
theorem get?_erase (m : OrderedMap κ ν) (k x : κ) :
    (m.erase k).get? x = if x = k then none else m.get? x := lookup_filter_ne k x m.entries

end Decidable

section Order

variable [Std.TransOrd κ]

theorem lookup_eq_some_iff [DecidableEq κ] {k : κ} {v : ν} {l : List (κ × ν)}
    (h : l.Pairwise fun a b => compare a.1 b.1 = .lt) : lookup k l = some v ↔ (k, v) ∈ l := by
  induction l with
  | nil => simp [lookup]
  | cons b rest ih =>
    obtain ⟨hb, hrest⟩ := List.pairwise_cons.1 h
    by_cases hk : k = b.1
    · subst hk
      have : (b.1, v) ∉ rest := fun hm => OrderedSet.irrefl b.1 (hb (b.1, v) hm)
      simp [lookup, this, Prod.ext_iff, eq_comm]
    · have : (k, v) ≠ b := fun e => hk (e ▸ rfl)
      simp [lookup, hk, ih hrest, this]

/-- The entries of a map are its lookups. -/
theorem get?_eq_some_iff [DecidableEq κ] {m : OrderedMap κ ν} {k : κ} {v : ν} :
    m.get? k = some v ↔ (k, v) ∈ m.entries := lookup_eq_some_iff m.increasing

/-- No key is listed twice. -/
theorem nodup_keys (m : OrderedMap κ ν) : m.keys.Nodup :=
  List.pairwise_map.2 <|
    m.increasing.imp (S := (·.1 ≠ ·.1)) fun {a b} h (e : a.1 = b.1) => OrderedSet.irrefl b.1 (e ▸ h)

/-- Two lists with increasing keys and the same entries are the same list. -/
theorem eq_of_increasing {l m : List (κ × ν)} (hl : l.Pairwise fun a b => compare a.1 b.1 = .lt)
    (hm : m.Pairwise fun a b => compare a.1 b.1 = .lt) (h : ∀ e, e ∈ l ↔ e ∈ m) : l = m := by
  have distinct : ∀ {l : List (κ × ν)}, l.Pairwise (fun a b => compare a.1 b.1 = .lt) → l.Nodup :=
    fun h => h.imp (S := (· ≠ ·)) fun {a b} h (e : a = b) => OrderedSet.irrefl b.1 (e ▸ h)
  refine List.Perm.eq_of_pairwise (fun a b _ _ hab hba => ?_) hl hm ?_
  · exact absurd (Std.TransCmp.lt_trans hab hba) (OrderedSet.irrefl a.1)
  · exact (List.perm_ext_iff_of_nodup (distinct hl) (distinct hm)).2 h

/-- Maps with the same lookups are equal. -/
theorem ext_get? [DecidableEq κ] {s t : OrderedMap κ ν} (h : ∀ k, s.get? k = t.get? k) :
    s = t := by
  have := eq_of_increasing s.increasing t.increasing fun e => by
    rw [← get?_eq_some_iff, ← get?_eq_some_iff, h]
  cases s
  cases t
  simpa using this

end Order

section Lawful

theorem mem_insertInto {k : κ} {v : ν} {e : κ × ν} {l : List (κ × ν)}
    (h : e ∈ insertInto k v l) : e = (k, v) ∨ e ∈ l := by
  induction l with
  | nil => simpa [insertInto] using h
  | cons b rest ih =>
    unfold insertInto at h
    split at h
    · simpa using h
    · rcases List.mem_cons.1 h with rfl | h
      · exact .inl rfl
      · exact .inr (List.mem_cons_of_mem _ h)
    · rcases List.mem_cons.1 h with rfl | h
      · exact .inr List.mem_cons_self
      · exact (ih h).imp_right (List.mem_cons_of_mem _)

variable [Std.LawfulEqOrd κ]

theorem lookup_insertInto [DecidableEq κ] (k x : κ) (v : ν) (l : List (κ × ν)) :
    lookup x (insertInto k v l) = if x = k then some v else lookup x l := by
  induction l with
  | nil => simp [insertInto, lookup]
  | cons b rest ih =>
    unfold insertInto
    split
    · simp [lookup]
    · rename_i hk
      have := Std.LawfulEqOrd.eq_of_compare hk
      subst this
      by_cases hx : x = b.1 <;> simp [lookup, hx]
    · rename_i hk
      have hkb : k ≠ b.1 := fun e => by
        rw [e, Std.LawfulEqOrd.compare_eq_iff_eq.2 rfl] at hk
        cases hk
      by_cases hx : x = b.1
      · simp [lookup, hx, Ne.symm hkb]
      · simp only [lookup, hx, if_false, ih]

variable [Std.TransOrd κ]

theorem increasing_insertInto {k : κ} {v : ν} {l : List (κ × ν)}
    (h : l.Pairwise fun a b => compare a.1 b.1 = .lt) :
    (insertInto k v l).Pairwise fun a b => compare a.1 b.1 = .lt := by
  induction l with
  | nil => simp [insertInto]
  | cons b rest ih =>
    obtain ⟨hb, hrest⟩ := List.pairwise_cons.1 h
    unfold insertInto
    split
    · rename_i hk
      refine List.pairwise_cons.2 ⟨fun x hx => ?_, h⟩
      rcases List.mem_cons.1 hx with rfl | hx
      · exact hk
      · exact Std.TransCmp.lt_trans hk (hb x hx)
    · rename_i hk
      have := Std.LawfulEqOrd.eq_of_compare hk
      subst this
      exact List.pairwise_cons.2 ⟨hb, hrest⟩
    · rename_i hk
      refine List.pairwise_cons.2 ⟨fun x hx => ?_, ih hrest⟩
      rcases mem_insertInto hx with rfl | hx
      · exact Std.OrientedCmp.lt_of_gt hk
      · exact hb x hx

/-- Give a key a value, replacing the value it had. -/
@[specialize] def insert (m : OrderedMap κ ν) (k : κ) (v : ν) : OrderedMap κ ν :=
  ⟨insertInto k v m.entries, increasing_insertInto m.increasing⟩

/-- After an insertion its key has the new value, and every other key what it had. -/
theorem get?_insert [DecidableEq κ] (m : OrderedMap κ ν) (k x : κ) (v : ν) :
    (m.insert k v).get? x = if x = k then some v else m.get? x := lookup_insertInto k x v m.entries

end Lawful

end OrderedMap

end VariantChess
