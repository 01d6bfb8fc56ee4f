/-!
# Finite sets kept in order

An `OrderedSet` is a strictly increasing list, so it lists its members in order and has one
representation only: two sets with the same members are equal, whatever was inserted or erased on
the way. The main statements are the membership rules of `insert`, `erase` and `ofList`, and
`OrderedSet.ext_mem`.
-/

namespace VariantChess

/-- A finite set, kept as the increasing list of its members. -/
structure OrderedSet (α : Type) [Ord α] where
  members : List α
  increasing : members.Pairwise fun a b => compare a b = .lt

namespace OrderedSet

variable {α : Type} [Ord α]

/-- The set without members. -/
def empty : OrderedSet α := ⟨[], .nil⟩

instance : EmptyCollection (OrderedSet α) := ⟨empty⟩
instance : Inhabited (OrderedSet α) := ⟨empty⟩

instance : Membership α (OrderedSet α) := ⟨fun s a => a ∈ s.members⟩

/-- Whether the set has no member. -/
def isEmpty (s : OrderedSet α) : Bool := s.members.isEmpty

/-- The number of members. -/
def size (s : OrderedSet α) : Nat := s.members.length

/-- Put a value at its place in an increasing list, unless it is there already. -/
@[specialize] def insertInto (a : α) : List α → List α
  | [] => [a]
  | b :: rest =>
    match compare a b with
    | .lt => a :: b :: rest
    | .eq => b :: rest
    | .gt => b :: insertInto a rest

theorem mem_def {a : α} {s : OrderedSet α} : a ∈ s ↔ a ∈ s.members := Iff.rfl

@[simp] theorem not_mem_empty (a : α) : a ∉ (empty : OrderedSet α) := List.not_mem_nil

theorem isEmpty_iff {s : OrderedSet α} : s.isEmpty ↔ ∀ a, a ∉ s := by
  simp only [isEmpty, List.isEmpty_iff, mem_def, List.eq_nil_iff_forall_not_mem]

section Decidable

variable [DecidableEq α]

instance : DecidableEq (OrderedSet α) := fun s t =>
  decidable_of_iff (s.members = t.members) (by cases s; cases t; simp)

/-- Remove a member. -/
@[specialize] def erase (s : OrderedSet α) (a : α) : OrderedSet α :=
  ⟨s.members.filter (· ≠ a), s.increasing.filter _⟩

/-- Whether a value is a member. -/
@[specialize] def contains (s : OrderedSet α) (a : α) : Bool := s.members.contains a

@[simp] theorem mem_erase {s : OrderedSet α} {a x : α} : x ∈ s.erase a ↔ x ≠ a ∧ x ∈ s := by
  simp [mem_def, erase, and_comm]

theorem contains_iff {s : OrderedSet α} {a : α} : s.contains a ↔ a ∈ s := by
  simp [contains, mem_def]

end Decidable

section Transitive

variable [Std.TransOrd α]

theorem irrefl (a : α) : compare a a ≠ .lt := fun h => by
  have e : compare a a = .eq := Std.ReflCmp.compare_self
  rw [e] at h
  cases h

theorem nodup (s : OrderedSet α) : s.members.Nodup :=
  s.increasing.imp (S := (· ≠ ·)) fun {a b} h (e : a = b) => irrefl b (e ▸ h)

/-- Two increasing lists with the same members are the same list. -/
theorem eq_of_increasing {l m : List α} (hl : l.Pairwise fun a b => compare a b = .lt)
    (hm : m.Pairwise fun a b => compare a b = .lt) (h : ∀ a, a ∈ l ↔ a ∈ m) : l = m :=
  List.Perm.eq_of_pairwise
    (fun a b _ _ (hab : compare a b = .lt) hba => absurd (Std.TransCmp.lt_trans hab hba) (irrefl a))
    hl hm
    ((List.perm_ext_iff_of_nodup (nodup ⟨l, hl⟩) (nodup ⟨m, hm⟩)).2 h)

/-- Sets with the same members are equal. -/
theorem ext_mem {s t : OrderedSet α} (h : ∀ a, a ∈ s ↔ a ∈ t) : s = t := by
  have := eq_of_increasing s.increasing t.increasing h
  cases s
  cases t
  simpa using this

end Transitive

section Lawful

variable [Std.LawfulEqOrd α]

theorem mem_insertInto {a x : α} {l : List α} : x ∈ insertInto a l ↔ x = a ∨ x ∈ l := by
  induction l with
  | nil => simp [insertInto]
  | cons b rest ih =>
    unfold insertInto
    split
    · simp
    · rename_i h
      have := Std.LawfulEqOrd.eq_of_compare h
      subst this
      simp
    · simp only [List.mem_cons, ih]
      grind

variable [Std.TransOrd α]

theorem increasing_insertInto {a : α} {l : List α}
    (h : l.Pairwise fun x y => compare x y = .lt) :
    (insertInto a l).Pairwise fun x y => compare x y = .lt := by
  induction l with
  | nil => simp [insertInto]
  | cons b rest ih =>
    obtain ⟨hb, hrest⟩ := List.pairwise_cons.1 h
    unfold insertInto
    split
    · rename_i hab
      refine List.pairwise_cons.2 ⟨fun x hx => ?_, h⟩
      rcases List.mem_cons.1 hx with rfl | hx
      · exact hab
      · exact Std.TransCmp.lt_trans hab (hb x hx)
    · exact h
    · rename_i hab
      refine List.pairwise_cons.2 ⟨fun x hx => ?_, ih hrest⟩
      rcases mem_insertInto.1 hx with rfl | hx
      · exact Std.OrientedCmp.lt_of_gt hab
      · exact hb x hx

/-- Add a member. -/
@[specialize] def insert (s : OrderedSet α) (a : α) : OrderedSet α :=
  ⟨insertInto a s.members, increasing_insertInto s.increasing⟩

/-- The set of the values in a list. -/
@[specialize] def ofList (l : List α) : OrderedSet α := l.foldl insert empty

@[simp] theorem mem_insert {s : OrderedSet α} {a x : α} : x ∈ s.insert a ↔ x = a ∨ x ∈ s :=
  mem_insertInto

theorem mem_foldl_insert {l : List α} {s : OrderedSet α} {x : α} :
    x ∈ l.foldl insert s ↔ x ∈ l ∨ x ∈ s := by
  induction l generalizing s with
  | nil => simp
  | cons a rest ih =>
    simp only [List.foldl_cons, ih, mem_insert, List.mem_cons]
    grind

@[simp] theorem mem_ofList {l : List α} {x : α} : x ∈ ofList l ↔ x ∈ l := by
  simp [ofList, mem_foldl_insert]

end Lawful

end OrderedSet

end VariantChess
