import VariantChess.Proofs.PieceText

/-!
# The grammar of piece encodings

The published form of an encoding is a side, a kind, a file letter, the plain number of a rank and,
for a piece that has not moved, a star. Every text of this form encodes a piece and is the written
form of that piece. Besides these texts only those are read that have a zero before the number of a
rank below ten. They are not of the published form, and each is read to the same piece as the text
without the zero; so the written form of a piece is not the only text that encodes it.
-/

namespace VariantChess

/-- What names a kind in the published form of encodings: the letter of a chessman, or between
tildes a code that is not empty and holds neither tildes nor white space. -/
inductive KindToken : List Char → Prop
  | letter {c : Char} (hc : c ∈ ['P', 'N', 'B', 'R', 'Q', 'K']) : KindToken [c]
  | code {code : List Char} (hne : code ≠ [])
    (hplain : ∀ c ∈ code, c ≠ '~' ∧ Text.isBlank c = false) : KindToken ('~' :: (code ++ ['~']))

/-- The form of encodings over the numerals of the ranks up to `last`: the letter of a side, a kind,
a file letter, a rank and at most one star. The published form has the plain numbers up to 26. -/
inductive Encoding (numeral : Nat → List Char) (last : Nat) : List Char → Prop
  | intro {side file : Char} {kind star : List Char} {rank : Nat} (hside : side ∈ ['w', 'b'])
    (hkind : KindToken kind) (hfile : 'a' ≤ file ∧ file ≤ 'z') (hrank : 1 ≤ rank ∧ rank ≤ last)
    (hstar : star = [] ∨ star = ['*']) :
    Encoding numeral last (side :: (kind ++ (file :: (numeral rank ++ star))))

/-- A token names a kind exactly if it is the written form of a kind that can be written. -/
theorem kindToken_iff {token : List Char} :
    KindToken token ↔ ∃ k : Kind, k.Written ∧ token = k.text := by
  constructor
  · rintro (@⟨c, hc⟩ | @⟨code, hne, hplain⟩)
    · have hletters : ∀ c ∈ ['P', 'N', 'B', 'R', 'Q', 'K'], ∃ m : Chessman, c = m.code := by
        simp only [List.forall_mem_cons]
        exact ⟨⟨.pawn, rfl⟩, ⟨.knight, rfl⟩, ⟨.bishop, rfl⟩, ⟨.rook, rfl⟩, ⟨.queen, rfl⟩,
          ⟨.king, rfl⟩, by simp⟩
      obtain ⟨m, rfl⟩ := hletters c hc
      exact ⟨.standard m, trivial, rfl⟩
    · refine ⟨.custom (String.ofList code), ?_, by simp [Kind.text]⟩
      rw [Kind.Written, String.toList_ofList]
      exact Kind.validCode_iff.2 ⟨hne, hplain⟩
  · rintro ⟨m | code, hwritten, rfl⟩
    · exact .letter (by cases m <;> decide)
    · obtain ⟨hne, hplain⟩ := Kind.validCode_iff.1 hwritten
      exact .code hne hplain

/-- A letter names a side exactly if it is the code of one. -/
theorem side_iff {side : Char} : side ∈ ['w', 'b'] ↔ ∃ c : Colour, side = c.code := by
  simp only [List.mem_cons, List.not_mem_nil, or_false]
  constructor
  · rintro (rfl | rfl)
    · exact ⟨.white, rfl⟩
    · exact ⟨.black, rfl⟩
  · rintro ⟨c, rfl⟩
    cases c <;> decide

/-- A letter names a file exactly if it is the letter of a file of some board. -/
theorem file_iff {file : Char} :
    'a' ≤ file ∧ file ≤ 'z' ↔ ∃ x : Coord, x.val < 26 ∧ file = Char.ofNat (97 + x.val) := by
  constructor
  · rintro ⟨hlow, hhigh⟩
    have hlow' : 97 ≤ file.toNat := UInt32.le_iff_toNat_le.1 hlow
    have hhigh' : file.toNat ≤ 122 := UInt32.le_iff_toNat_le.1 hhigh
    refine ⟨⟨file.toNat - 97, by omega⟩, by simp only; omega, ?_⟩
    rw [Nat.add_sub_of_le hlow', Char.ofNat_toNat]
  · have hfiles : ∀ x : Coord, x.val < 26 →
        'a' ≤ Char.ofNat (97 + x.val) ∧ Char.ofNat (97 + x.val) ≤ 'z' := by decide
    rintro ⟨x, hx, rfl⟩
    exact hfiles x hx

/-- A mark is the mark of a piece that has moved or of one that has not. -/
theorem star_iff {star : List Char} :
    star = [] ∨ star = ['*'] ↔ ∃ moved : Bool, star = if moved then [] else ['*'] := by
  rw [Bool.exists_bool, or_comm]
  rfl

/-- A text has the form of encodings exactly if it spells a piece on some board whose kind can be
written. -/
theorem encoding_iff {numeral : Nat → List Char} {last : Nat} (hlast : last ≤ 26)
    {cs : List Char} : Encoding numeral last cs ↔ ∃ q : Piece, q.kind.Written ∧
      q.point.x.val < 26 ∧ q.point.y.val < last ∧ cs = q.spell numeral := by
  constructor
  · rintro @⟨side, file, kind, star, rank, hside, hkind, hfile, hrank, hstar⟩
    obtain ⟨colour, rfl⟩ := side_iff.1 hside
    obtain ⟨k, hwritten, rfl⟩ := kindToken_iff.1 hkind
    obtain ⟨x, hx, rfl⟩ := file_iff.1 hfile
    obtain ⟨moved, rfl⟩ := star_iff.1 hstar
    refine ⟨⟨colour, k, ⟨x, ⟨rank - 1, by omega⟩⟩, moved⟩, hwritten, hx, by simp only; omega, ?_⟩
    have hsucc : rank - 1 + 1 = rank := by omega
    simp only [Piece.spell, Point.spell, hsucc, List.cons_append]
  · rintro ⟨⟨colour, k, ⟨x, y⟩, moved⟩, hwritten, hx, hy, rfl⟩
    exact .intro (side_iff.2 ⟨colour, rfl⟩) (kindToken_iff.2 ⟨k, hwritten, rfl⟩)
      (file_iff.2 ⟨x, hx, rfl⟩) ⟨Nat.succ_pos _, hy⟩ (star_iff.2 ⟨moved, rfl⟩)

/-- A text with a zero before the rank is not the written form of its piece. -/
theorem Piece.spell_padded_ne (q : Piece) : q.spell Numeral.plain ≠ q.spell Numeral.padded := by
  intro heq
  have hlength := congrArg List.length heq
  simp [spell, Point.spell, Numeral.padded] at hlength

/-- A text of the published form encodes a piece exactly if it is the written form of the piece. -/
theorem Piece.encoding_iff_text_eq {q : Piece} {cs : List Char} (h : read cs = .ok q) :
    Encoding Numeral.plain 26 cs ↔ q.text = cs := by
  obtain ⟨hwritten, hx, hspell⟩ := read_eq_ok_iff.1 h
  have hy : q.point.y.val < 26 := by omega
  rw [encoding_iff (Nat.le_refl _), text_eq_spell hx]
  constructor
  · rintro ⟨r, hr, hrx, hry, rfl⟩
    have hread : read (r.spell Numeral.plain) = .ok r :=
      read_eq_ok_iff.2 ⟨hr, hrx, .inl ⟨hry, rfl⟩⟩
    obtain rfl := Except.ok.inj (h.symm.trans hread)
    rfl
  · rintro rfl
    exact ⟨q, hwritten, hx, hy, rfl⟩

/-- A text encodes a piece exactly if it is of the published form, or has a zero before the number
of a rank below ten and is of that form otherwise. Each piece that is encoded has one text of the
published form, which is its written form and encodes it, so no two such texts encode one piece. A
text with a zero is not the written form of its piece. -/
theorem encoding_of_read (cs : List Char) :
    ((∃ q, Piece.read cs = .ok q) ↔
      Encoding Numeral.plain 26 cs ∨ Encoding Numeral.padded 9 cs) ∧
    ∀ q, Piece.read cs = .ok q →
      Encoding Numeral.plain 26 q.text ∧ Piece.read q.text = .ok q ∧
      (Encoding Numeral.plain 26 cs ↔ q.text = cs) ∧
      (Encoding Numeral.padded 9 cs ↔ q.text ≠ cs) ∧
      (q.text ≠ cs → q.point.y.val < 9 ∧ cs = q.spell Numeral.padded) ∧
      ∀ cs', Piece.read cs' = .ok q → Encoding Numeral.plain 26 cs →
        Encoding Numeral.plain 26 cs' → cs' = cs := by
  refine ⟨?_, fun q hread => ?_⟩
  · rw [encoding_iff (Nat.le_refl _), encoding_iff (by decide), ← exists_or]
    refine exists_congr fun q => ?_
    rw [Piece.read_eq_ok_iff]
    grind
  · obtain ⟨hwritten, hx, hspell⟩ := Piece.read_eq_ok_iff.1 hread
    have htext := Piece.text_eq_spell hx
    have hback : Piece.read q.text = .ok q := Piece.read_text hwritten hx (by omega)
    have hform := Piece.encoding_iff_text_eq hread
    have hpadded : q.text ≠ cs → q.point.y.val < 9 ∧ cs = q.spell Numeral.padded := fun hne =>
      hspell.resolve_left fun hplain => hne (htext.trans hplain.2.symm)
    refine ⟨(Piece.encoding_iff_text_eq hback).2 rfl, hback, hform, ⟨?_, fun hne => ?_⟩, hpadded,
      fun cs' hread' hcs hcs' => ?_⟩
    · intro hzero
      obtain ⟨r, hr, hrx, hry, rfl⟩ := (encoding_iff (by decide)).1 hzero
      have hsame : Piece.read (r.spell Numeral.padded) = .ok r :=
        Piece.read_eq_ok_iff.2 ⟨hr, hrx, .inr ⟨hry, rfl⟩⟩
      obtain rfl := Except.ok.inj (hread.symm.trans hsame)
      rw [htext]
      exact q.spell_padded_ne
    · obtain ⟨hy, rfl⟩ := hpadded hne
      exact (encoding_iff (by decide)).2 ⟨q, hwritten, hx, hy, rfl⟩
    · rw [← hform.1 hcs, ← (Piece.encoding_iff_text_eq hread').1 hcs']

/-- The code of a custom kind may hold a star and digits; the star at the end is the mark. -/
theorem encoding_of_read_custom : ∃ q, Piece.read "b~*a1~z26*".toList = .ok q ∧
    q.kind = .custom "*a1" ∧ q.moved = false ∧ Encoding Numeral.plain 26 "b~*a1~z26*".toList ∧
      q.text = "b~*a1~z26*".toList := by
  obtain ⟨q, hread, hkind, hmoved, htext⟩ : ∃ q, Piece.read "b~*a1~z26*".toList = .ok q ∧
      q.kind = .custom "*a1" ∧ q.moved = false ∧ q.text = "b~*a1~z26*".toList :=
    ⟨⟨.black, .custom "*a1", .ofCoords 25 25, false⟩, by rfl, rfl, rfl, by rfl⟩
  obtain ⟨-, hform⟩ := encoding_of_read "b~*a1~z26*".toList
  obtain ⟨-, -, hpublished, -⟩ := hform q hread
  exact ⟨q, hread, hkind, hmoved, hpublished.2 htext, htext⟩

/-- A white pawn on `a1` that has moved is also encoded with the rank `01`, which is not of the
published form. -/
theorem encoding_of_read_zero : ∃ q, Piece.read "wPa01".toList = .ok q ∧
    Piece.read "wPa1".toList = .ok q ∧ q.text = "wPa1".toList ∧
      ¬Encoding Numeral.plain 26 "wPa01".toList := by
  have hread : Piece.read "wPa01".toList = .ok ⟨.white, .standard .pawn, .ofCoords 0 0, true⟩ := rfl
  refine ⟨_, hread, rfl, rfl, fun hform => ?_⟩
  exact absurd ((Piece.encoding_iff_text_eq hread).1 hform) (by decide)

end VariantChess
