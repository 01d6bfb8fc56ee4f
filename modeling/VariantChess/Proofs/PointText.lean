import VariantChess.Proofs.BoardChange

/-!
# Which texts are points

The algebraic form of a point is its file letter and its rank as a decimal number. Reading is more
liberal than writing in one respect: a rank below ten may also have a zero before it. Nothing else
is read, so a text is read to a point exactly if it is one of the two spellings of the point.
-/

namespace VariantChess

namespace Numeral

/-- A number as decimals. -/
def plain (n : Nat) : List Char := Nat.toDigits 10 n

/-- A number as decimals after a zero. -/
def padded (n : Nat) : List Char := '0' :: plain n

/-- A plain number consists of digits. -/
theorem isDigit_of_mem_plain (n : Nat) : ∀ c ∈ plain n, c.isDigit := fun _ hc =>
  Nat.isDigit_of_mem_toDigits (by decide) (by decide) hc

/-- So does a number after a zero. -/
theorem isDigit_of_mem_padded (n : Nat) : ∀ c ∈ padded n, c.isDigit :=
  List.forall_mem_cons.2 ⟨rfl, isDigit_of_mem_plain n⟩

/-- A number is read from its decimals. -/
theorem ofDigitChars_plain (n : Nat) : Nat.ofDigitChars 10 (plain n) 0 = n :=
  Nat.ofDigitChars_toDigits (by decide) (by decide)

/-- A zero before them makes no difference. -/
theorem ofDigitChars_padded (n : Nat) : Nat.ofDigitChars 10 (padded n) 0 = n :=
  ofDigitChars_plain n

/-- A number below ten has one decimal at most. -/
theorem length_plain_le_one {n : Nat} (hn : n < 10) : (plain n).length ≤ 1 :=
  (Nat.length_toDigits_le_iff (by decide) (by decide)).2 hn

/-- A number below a hundred has two at most. -/
theorem length_plain_le_two {n : Nat} (hn : n < 100) : (plain n).length ≤ 2 :=
  (Nat.length_toDigits_le_iff (by decide) (by decide)).2 hn

/-- A digit is the digit of a number below ten. -/
theorem exists_digitChar {c : Char} (h : c.isDigit) : ∃ d : Fin 10, c = Nat.digitChar d := by
  obtain ⟨hlow, hhigh⟩ := Char.isDigit_iff_toNat.1 h
  change 48 ≤ c.toNat at hlow
  change c.toNat ≤ 57 at hhigh
  have hdigit : ∀ d : Fin 10, Nat.digitChar d = Char.ofNat (48 + d) := by decide
  refine ⟨⟨c.toNat - 48, by omega⟩, ?_⟩
  rw [hdigit, Nat.add_sub_of_le hlow, Char.ofNat_toNat]

/-- One or two digits are a number in decimals, with a zero before it or without. -/
theorem eq_plain_or_padded {ds : List Char} (hds : ∀ c ∈ ds, c.isDigit) (hne : ds ≠ [])
    (hlength : ds.length ≤ 2) : ds = plain (Nat.ofDigitChars 10 ds 0) ∨
      Nat.ofDigitChars 10 ds 0 < 10 ∧ ds = padded (Nat.ofDigitChars 10 ds 0) := by
  have hone : ∀ i : Fin 10, [Nat.digitChar i] = plain (Nat.ofDigitChars 10 [Nat.digitChar i] 0) := by
    decide
  have htwo : ∀ i j : Fin 10,
      [Nat.digitChar i, Nat.digitChar j] =
          plain (Nat.ofDigitChars 10 [Nat.digitChar i, Nat.digitChar j] 0) ∨
        Nat.ofDigitChars 10 [Nat.digitChar i, Nat.digitChar j] 0 < 10 ∧
          [Nat.digitChar i, Nat.digitChar j] =
            padded (Nat.ofDigitChars 10 [Nat.digitChar i, Nat.digitChar j] 0) := by
    decide
  obtain _ | ⟨a, _ | ⟨b, _ | ⟨c, rest⟩⟩⟩ := ds
  · exact absurd rfl hne
  · obtain ⟨i, rfl⟩ := exists_digitChar (hds a (by simp))
    exact .inl (hone i)
  · obtain ⟨i, rfl⟩ := exists_digitChar (hds a (by simp))
    obtain ⟨j, rfl⟩ := exists_digitChar (hds b (by simp))
    exact htwo i j
  · simp at hlength

end Numeral

namespace Point

variable {p : Point} {c : Char} {cs ds : List Char} {x y : Coord}

/-- A digit takes one byte. -/
theorem byteLength_of_digits (hds : ∀ c ∈ ds, c.isDigit) : byteLength ds = ds.length := by
  induction ds with
  | nil => rfl
  | cons c ds ih =>
    rw [List.forall_mem_cons] at hds
    have hsize : c.utf8Size = 1 := by
      rw [Char.utf8Size_eq_one_iff, UInt32.le_iff_toNat_le]
      exact Nat.le_trans (Char.isDigit_iff_toNat.1 hds.1).2 (by decide)
    change c.utf8Size + byteLength ds = _
    rw [hsize, ih hds.2, List.length_cons, Nat.add_comm]

/-- A letter names a file exactly if it is the letter of the file. -/
theorem fileOfLetter?_eq_some_iff :
    fileOfLetter? c = some x ↔ x.val < 26 ∧ c = Char.ofNat (97 + x.val) := by
  constructor
  · intro h
    unfold fileOfLetter? at h
    split at h
    · next hc =>
      obtain rfl := Option.some.inj h
      refine ⟨by simp only; omega, ?_⟩
      rw [Nat.add_sub_of_le hc.1, Char.ofNat_toNat]
    · cases h
  · rintro ⟨hx, rfl⟩
    exact fileOfLetter?_fileLetter? (if_pos hx)

/-- A point as a file letter and its rank as a numeral. -/
def spell (numeral : Nat → List Char) (p : Point) : List Char :=
  Char.ofNat (97 + p.x.val) :: numeral (p.y.val + 1)

/-- A point on some board is written with its rank as a plain number. -/
theorem text_eq_spell (hx : p.x.val < 26) : p.text = p.spell Numeral.plain := by
  have hletter : fileLetter? p.x = some (Char.ofNat (97 + p.x.val)) := if_pos hx
  rw [text, hletter]
  rfl

/-- A rank is read from the digits of its number, counted from one. -/
theorem readRank_eq_ok_iff : readRank ds = .ok y ↔
    (∀ c ∈ ds, c.isDigit) ∧ Nat.ofDigitChars 10 ds 0 = y.val + 1 ∧ y.val < 26 := by
  rw [← List.all_eq_true]
  unfold readRank
  split
  · next h =>
    rw [Except.ok.injEq, Fin.ext_iff, and_iff_right h.1]
    simp only
    omega
  · next h =>
    simp only [reduceCtorEq, false_iff]
    rintro ⟨hall, hrank, hlast⟩
    exact h ⟨hall, by omega, by omega⟩

/-- A rank is read from one or two bytes exactly if they are its number, or its number after a
zero. -/
theorem rank_eq_ok_iff : (ds ≠ [] ∧ byteLength ds ≤ 2 ∧ readRank ds = .ok y) ↔
    y.val < 26 ∧ ds = Numeral.plain (y.val + 1) ∨
      y.val < 9 ∧ ds = Numeral.padded (y.val + 1) := by
  rw [readRank_eq_ok_iff]
  constructor
  · rintro ⟨hne, hbytes, hdigits, hrank, hlast⟩
    rw [byteLength_of_digits hdigits] at hbytes
    rcases Numeral.eq_plain_or_padded hdigits hne hbytes with hds | ⟨hten, hds⟩
    · exact .inl ⟨hlast, hrank ▸ hds⟩
    · exact .inr ⟨by omega, hrank ▸ hds⟩
  · rintro (⟨hy, rfl⟩ | ⟨hy, rfl⟩)
    · have hdigits := Numeral.isDigit_of_mem_plain (y.val + 1)
      refine ⟨Nat.toDigits_ne_nil, ?_, hdigits, Numeral.ofDigitChars_plain _, hy⟩
      rw [byteLength_of_digits hdigits]
      exact Numeral.length_plain_le_two (by omega)
    · have hdigits := Numeral.isDigit_of_mem_padded (y.val + 1)
      refine ⟨List.cons_ne_nil _ _, ?_, hdigits, Numeral.ofDigitChars_padded _, by omega⟩
      rw [byteLength_of_digits hdigits]
      exact Nat.succ_le_succ (Numeral.length_plain_le_one (by omega))

/-- A text is read to a point exactly if it spells it: with the file letter and the rank as a
number, which may have a zero before it if it is below ten. -/
theorem read_eq_ok_iff : read cs = .ok p ↔ p.x.val < 26 ∧
    (p.y.val < 26 ∧ cs = p.spell Numeral.plain ∨ p.y.val < 9 ∧ cs = p.spell Numeral.padded) := by
  have hcons {c : Char} {ds : List Char} : read (c :: ds) = .ok p ↔ fileOfLetter? c = some p.x ∧
      ds ≠ [] ∧ byteLength ds ≤ 2 ∧ readRank ds = .ok p.y := by
    rw [read]
    cases fileOfLetter? c with
    | none => simp
    | some x =>
      obtain ⟨px, py⟩ := p
      simp only [guard_eq_ok_iff, map_eq_ok_iff, Bool.or_eq_true, List.isEmpty_iff,
        decide_eq_true_eq, not_or, Nat.not_lt, Option.some.injEq, mk.injEq]
      grind
  cases cs with
  | nil => simp [read, spell]
  | cons c ds =>
    rw [hcons, fileOfLetter?_eq_some_iff, rank_eq_ok_iff, spell, spell, List.cons.injEq,
      List.cons.injEq, and_assoc, and_congr_right_iff]
    intro _
    rw [and_or_left, and_left_comm, and_left_comm (b := p.y.val < 9)]

/-- A text is read only to points that lie on some board. -/
theorem bounds_of_read {cs : List Char} (h : read cs = .ok p) : p.x.val < 26 ∧ p.y.val < 26 := by
  obtain ⟨hx, hspell⟩ := read_eq_ok_iff.1 h
  omega

/-- After its first character, what is read to a point consists of digits. -/
theorem isDigit_of_read (h : read (c :: ds) = .ok p) : ∀ d ∈ ds, d.isDigit := by
  obtain ⟨-, ⟨-, hspell⟩ | ⟨-, hspell⟩⟩ := read_eq_ok_iff.1 h
  · obtain ⟨-, rfl⟩ := List.cons.inj hspell
    exact Numeral.isDigit_of_mem_plain _
  · obtain ⟨-, rfl⟩ := List.cons.inj hspell
    exact Numeral.isDigit_of_mem_padded _

/-- What is read to a point is a character and digits. -/
theorem exists_cons_of_read {cs : List Char} (h : read cs = .ok p) :
    ∃ c ds, cs = c :: ds ∧ ∀ d ∈ ds, d.isDigit := by
  cases cs with
  | nil => cases h
  | cons c ds => exact ⟨c, ds, rfl, isDigit_of_read h⟩

end Point

end VariantChess
