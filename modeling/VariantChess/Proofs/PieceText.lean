import VariantChess.Piece.Encoding
import VariantChess.Proofs.PointText

/-!
# Which texts are read to a piece

An encoding is a side, a kind, a point and, for a piece that has not moved, a star, and it is read
part by part. Each part is read from its own spelling and from nothing else, so a text is read to a
piece exactly if it spells it. A piece is read from its encoding when a custom kind has a code that
may stand there and when the point lies on some board. An encoding holds no white space.
-/

namespace VariantChess

namespace Text

variable {c : Char}

/-- No digit is blank. -/
theorem not_blank_of_isDigit (h : c.isDigit) : isBlank c = false := by
  obtain ⟨hlow, hhigh⟩ := Char.isDigit_iff_toNat.1 h
  change 48 ≤ c.toNat at hlow
  change c.toNat ≤ 57 at hhigh
  simp [isBlank, blankRanges]
  omega

/-- The letters that name the sides are not blank. -/
theorem not_blank_code (side : Colour) : isBlank side.code = false := by cases side <;> decide

end Text

/-- A text is cut at a tilde exactly if that is its first one. -/
theorem Kind.splitTilde?_eq_some_iff {cs code rest : List Char} :
    splitTilde? cs = some (code, rest) ↔ '~' ∉ code ∧ cs = code ++ '~' :: rest := by
  constructor
  · intro h
    have hsplit := List.takeWhile_append_dropWhile (p := (· != '~')) (l := cs)
    have hhead := List.head?_dropWhile_not (· != '~') cs
    unfold splitTilde? at h
    split at h
    · cases h
    · next c rest' hdrop =>
      obtain ⟨rfl, rfl⟩ := Prod.mk.inj (Option.some.inj h)
      rw [hdrop] at hsplit hhead
      obtain rfl : c = '~' := by simpa using hhead
      exact ⟨fun hmem => by simpa using List.all_eq_true.1 List.all_takeWhile _ hmem, hsplit.symm⟩
  · rintro ⟨hcode, rfl⟩
    have hplain : ∀ c ∈ code, (c != '~') = true := fun c hc =>
      bne_iff_ne.2 fun heq => hcode (heq ▸ hc)
    have hstop : List.dropWhile (· != '~') ('~' :: rest) = '~' :: rest := rfl
    rw [splitTilde?, List.dropWhile_append_of_pos hplain, List.takeWhile_append_of_pos hplain, hstop]
    exact congrArg (fun l => some (l, rest)) (List.append_nil code)

/-- The written form of a custom kind is its code between tildes. -/
theorem Kind.text_custom_append (code : String) (rest : List Char) :
    (Kind.custom code).text ++ rest = '~' :: (code.toList ++ '~' :: rest) := by
  simp [Kind.text]

/-- A code may stand in encodings exactly if it is not empty and holds neither tildes nor blanks. -/
theorem Kind.validCode_iff {code : List Char} :
    validCode code ↔ code ≠ [] ∧ ∀ c ∈ code, c ≠ '~' ∧ Text.isBlank c = false := by
  simp [validCode, allowed]

/-- Chessmen can be written in encodings, and so can custom kinds whose codes may stand there. -/
def Kind.Written : Kind → Prop
  | .standard _ => True
  | .custom code => validCode code.toList

namespace Piece

variable {q : Piece} {cs : List Char}

/-- A kind is read from its written form and whatever comes after it, and from nothing else. -/
theorem readKind_eq_ok_iff {k : Kind} {whole rest : List Char} :
    readKind whole cs = .ok (k, rest) ↔ k.Written ∧ cs = k.text ++ rest := by
  constructor
  · intro h
    unfold readKind at h
    split at h
    · cases h
    · next tail =>
      split at h
      · cases h
      · next code tail' hsplit =>
        obtain ⟨-, rfl⟩ := Kind.splitTilde?_eq_some_iff.1 hsplit
        split at h
        · next hcode =>
          obtain ⟨rfl, rfl⟩ := Prod.mk.inj (Except.ok.inj h)
          simp [Kind.Written, Kind.text, hcode]
        · cases h
    · next c tail _ =>
      split at h
      · cases h
      · next m hm =>
        obtain ⟨rfl, rfl⟩ := Prod.mk.inj (Except.ok.inj h)
        exact ⟨trivial, congrArg (· :: tail) (Chessman.eq_code_of_ofCode? hm)⟩
  · rintro ⟨hk, rfl⟩
    cases k with
    | standard m => cases m <;> rfl
    | custom code =>
      have hvalid : Kind.validCode code.toList := hk
      have hplain : '~' ∉ code.toList := fun hmem => ((Kind.validCode_iff.1 hvalid).2 _ hmem).1 rfl
      have hsplit : Kind.splitTilde? (code.toList ++ '~' :: rest) = some (code.toList, rest) :=
        Kind.splitTilde?_eq_some_iff.2 ⟨hplain, rfl⟩
      rw [Kind.text_custom_append, readKind, hsplit]
      dsimp only
      rw [if_pos hvalid, String.ofList_toList]

/-- A spelling of a point holds neither stars nor blanks. -/
theorem plain_of_mem_spell {numeral : Nat → List Char} (hnumeral : ∀ n, ∀ d ∈ numeral n, d.isDigit)
    {p : Point} (hx : p.x.val < 26) {c : Char} (hc : c ∈ p.spell numeral) :
    c ≠ '*' ∧ Text.isBlank c = false := by
  have hfiles : ∀ x : Coord, x.val < 26 → Char.ofNat (97 + x.val) ≠ '*' ∧
      Text.isBlank (Char.ofNat (97 + x.val)) = false := by decide
  rcases List.mem_cons.1 hc with rfl | hc
  · exact hfiles p.x hx
  · have hdigit := hnumeral _ c hc
    refine ⟨?_, Text.not_blank_of_isDigit hdigit⟩
    rintro rfl
    cases hdigit

/-- A star is split off, and says that the piece has not moved. -/
theorem splitStar_append (hplain : '*' ∉ cs) (moved : Bool) :
    splitStar (cs ++ if moved then [] else ['*']) = (cs, moved) := by
  cases moved with
  | true =>
    have hlast : cs.getLast? ≠ some '*' := fun h => hplain (List.mem_of_getLast? h)
    rw [if_pos rfl, List.append_nil, splitStar, if_neg hlast]
  | false => simp [splitStar]

/-- Splitting a star off loses nothing. -/
theorem append_of_splitStar {place : List Char} {moved : Bool} (h : splitStar cs = (place, moved)) :
    cs = place ++ if moved then [] else ['*'] := by
  unfold splitStar at h
  split at h
  · next hlast =>
    obtain ⟨rfl, rfl⟩ := Prod.mk.inj h
    obtain ⟨front, rfl⟩ := List.getLast?_eq_some_iff.1 hlast
    simp
  · obtain ⟨rfl, rfl⟩ := Prod.mk.inj h
    simp

/-- An encoding of a piece with its rank as a numeral. -/
def spell (numeral : Nat → List Char) (q : Piece) : List Char :=
  q.colour.code :: (q.kind.text ++ (q.point.spell numeral ++ if q.moved then [] else ['*']))

/-- A piece on some board is written with its rank as a plain number. -/
theorem text_eq_spell (hx : q.point.x.val < 26) : q.text = q.spell Numeral.plain := by
  simp [text, spell, Point.text_eq_spell hx]

/-- A text is read to a piece exactly if the kind can be written and the text spells the piece, with
its rank as a number that may have a zero before it if it is below ten. -/
theorem read_eq_ok_iff : read cs = .ok q ↔ q.kind.Written ∧ q.point.x.val < 26 ∧
    (q.point.y.val < 26 ∧ cs = q.spell Numeral.plain ∨
      q.point.y.val < 9 ∧ cs = q.spell Numeral.padded) := by
  constructor
  · intro h
    unfold read at h
    split at h
    · cases h
    · next c tail =>
      split at h
      · cases h
      · next colour hcolour =>
        obtain ⟨⟨kind, rest⟩, hkind, hrest⟩ := bind_eq_ok_iff.1 h
        dsimp only at hrest
        cases hstar : splitStar rest with | mk place moved =>
        rw [hstar] at hrest
        split at hrest
        · cases hrest
        · next point hpoint =>
          obtain rfl := Except.ok.inj hrest
          obtain rfl := Colour.eq_code_of_ofCode? hcolour
          obtain ⟨hwritten, rfl⟩ := readKind_eq_ok_iff.1 hkind
          obtain rfl := append_of_splitStar hstar
          obtain ⟨hx, hspell⟩ := Point.read_eq_ok_iff.1 hpoint
          refine ⟨hwritten, hx, hspell.imp ?_ ?_⟩
          · rintro ⟨hy, rfl⟩
            exact ⟨hy, rfl⟩
          · rintro ⟨hy, rfl⟩
            exact ⟨hy, rfl⟩
  · rintro ⟨hwritten, hx, hspell⟩
    have hread {numeral : Nat → List Char} (hnumeral : ∀ n, ∀ d ∈ numeral n, d.isDigit)
        (hpoint : Point.read (q.point.spell numeral) = .ok q.point) :
        read (q.spell numeral) = .ok q := by
      have hstar : '*' ∉ q.point.spell numeral := fun hmem =>
        (plain_of_mem_spell hnumeral hx hmem).1 rfl
      rw [spell, read, Colour.ofCode?_code]
      dsimp only
      rw [readKind_eq_ok_iff.2 ⟨hwritten, rfl⟩]
      dsimp only [bind, Except.bind]
      rw [splitStar_append hstar]
      dsimp only
      rw [hpoint]
    rcases hspell with ⟨hy, rfl⟩ | ⟨hy, rfl⟩
    · exact hread Numeral.isDigit_of_mem_plain (Point.read_eq_ok_iff.2 ⟨hx, .inl ⟨hy, rfl⟩⟩)
    · exact hread Numeral.isDigit_of_mem_padded (Point.read_eq_ok_iff.2 ⟨hx, .inr ⟨hy, rfl⟩⟩)

/-- A piece is read from its encoding. -/
theorem read_text (hk : q.kind.Written) (hx : q.point.x.val < 26) (hy : q.point.y.val < 26) :
    read q.text = .ok q :=
  read_eq_ok_iff.2 ⟨hk, hx, .inl ⟨hy, text_eq_spell hx⟩⟩

/-- A text of one character, as the name of a side is, encodes no piece. -/
theorem length_ne_of_read (h : read cs = .ok q) : cs.length ≠ 1 := by
  intro hone
  obtain ⟨c, rfl⟩ := List.length_eq_one_iff.1 hone
  rw [read] at h
  split at h <;> cases h

/-- A piece that is read has a kind that can be written. -/
theorem written_of_read (h : read cs = .ok q) : q.kind.Written := (read_eq_ok_iff.1 h).1

/-- An encoding holds no blanks. -/
theorem not_blank_of_mem_text (hk : q.kind.Written) (hx : q.point.x.val < 26) {c : Char}
    (hc : c ∈ q.text) : Text.isBlank c = false := by
  have hkind : c ∈ q.kind.text → Text.isBlank c = false := by
    intro hc
    cases hq : q.kind with
    | standard m =>
      rw [hq, Kind.text, List.mem_singleton] at hc
      rw [hc]
      cases m <;> decide
    | custom code =>
      rw [hq, Kind.Written, Kind.validCode_iff] at hk
      simp only [hq, Kind.text, List.cons_append, List.mem_cons, List.mem_append, List.not_mem_nil,
        or_false] at hc
      rcases hc with rfl | hc | rfl
      · decide
      · exact (hk.2 c hc).2
      · decide
  rw [text_eq_spell hx] at hc
  simp only [spell, List.mem_cons, List.mem_append] at hc
  rcases hc with rfl | hc | hc | hc
  · exact Text.not_blank_code q.colour
  · exact hkind hc
  · exact (plain_of_mem_spell Numeral.isDigit_of_mem_plain hx hc).2
  · split at hc
    · cases hc
    · obtain rfl := List.mem_singleton.1 hc
      decide

end Piece

end VariantChess
