import VariantChess.Board.Layout
import VariantChess.Proofs.PieceText

/-!
# Reading back what is written

An encoding holds no white space, so encodings that are listed with spaces between them are the words
of the text. Any list of pieces that can be written and stand on some board thus has a layout, with a
side to move or without.
-/

namespace VariantChess

namespace Text

variable {w : List Char} {c : Char}

/-- The first word of a text ends at the first blank. -/
theorem words_append_blank (hw : w ≠ []) (hblank : ∀ d ∈ w, isBlank d = false)
    (hc : isBlank c) (rest : List Char) : words (w ++ c :: rest) = w :: words rest := by
  induction w with
  | nil => exact absurd rfl hw
  | cons d w ih =>
    rw [List.forall_mem_cons] at hblank
    cases w with
    | nil => simp [words, hblank.1, hc]
    | cons e w =>
      have hrest := ih (List.cons_ne_nil e w) hblank.2
      have he := hblank.2 e List.mem_cons_self
      rw [List.cons_append] at hrest ⊢
      rw [List.cons_append, words, hrest]
      simp [hblank.1, he]

/-- A text without blanks is a single word. -/
theorem words_of_not_blank (hw : w ≠ []) (hblank : ∀ d ∈ w, isBlank d = false) : words w = [w] := by
  induction w with
  | nil => exact absurd rfl hw
  | cons d w ih =>
    rw [List.forall_mem_cons] at hblank
    cases w with
    | nil => simp [words, hblank.1]
    | cons e w =>
      have he := hblank.2 e List.mem_cons_self
      rw [words, ih (List.cons_ne_nil e w) hblank.2]
      simp [hblank.1, he]

/-- Words with spaces between them are the words of the text. -/
theorem words_intercalate {ws : List (List Char)}
    (h : ∀ w ∈ ws, w ≠ [] ∧ ∀ c ∈ w, isBlank c = false) : words ([' '].intercalate ws) = ws := by
  induction ws with
  | nil => rfl
  | cons w ws ih =>
    rw [List.forall_mem_cons] at h
    obtain ⟨⟨hw, hblank⟩, hrest⟩ := h
    cases ws with
    | nil =>
      rw [List.intercalate_singleton]
      exact words_of_not_blank hw hblank
    | cons v ws =>
      rw [List.intercalate_cons_cons, List.append_assoc, List.singleton_append,
        words_append_blank hw hblank (by decide), ih hrest]

end Text

namespace Board

variable {set : PieceSet} {turn : Colour} {pieces : List Piece}

/-- A layout lists a side to move and some pieces, in order. -/
def Lists (set : PieceSet) (layout : List Char) (turn : Colour) (pieces : List Piece) : Prop :=
  ∃ tokens, readTurn (Text.words layout) = .ok (turn, tokens) ∧
    tokens.map set.readPiece = pieces.map .ok

/-- A layout lists one side to move and one sequence of pieces. -/
theorem Lists.unique {layout : List Char} {turn' : Colour} {pieces' : List Piece}
    (h : Lists set layout turn pieces) (h' : Lists set layout turn' pieces') :
    turn' = turn ∧ pieces' = pieces := by
  obtain ⟨tokens, hturn, hpieces⟩ := h
  obtain ⟨tokens', hturn', hpieces'⟩ := h'
  obtain ⟨rfl, rfl⟩ := Prod.mk.inj (Except.ok.inj (hturn.symm.trans hturn'))
  exact ⟨rfl, List.map_inj_right (fun _ _ => Except.ok.inj) |>.1 (hpieces'.symm.trans hpieces)⟩

/-- The pieces that a layout lists can be written, and their kinds are known. -/
theorem Lists.written {layout : List Char} (h : Lists set layout turn pieces) {q : Piece}
    (hq : q ∈ pieces) : q.kind.Written ∧ set.knows q.kind := by
  obtain ⟨tokens, -, hpieces⟩ := h
  have hmem : .ok q ∈ tokens.map set.readPiece := hpieces ▸ List.mem_map_of_mem hq
  obtain ⟨token, -, hread⟩ := List.mem_map.1 hmem
  obtain ⟨r, hr, hrest⟩ := bind_eq_ok_iff.1 hread
  split at hrest
  · next hknows =>
    obtain rfl := Except.ok.inj hrest
    exact ⟨Piece.written_of_read hr, hknows⟩
  · cases hrest

/-- Tokens of which the first is no single character are those of pieces, and white is to move. -/
theorem readTurn_of_unled {words : List (List Char)} (h : ∀ c, words.head? ≠ some [c]) :
    readTurn words = .ok (.white, words) := by
  unfold readTurn
  split
  · next c rest => exact absurd rfl (h c)
  · rfl

section Written

variable (h : ∀ q ∈ pieces, q.kind.Written ∧ set.knows q.kind ∧
  q.point.x.val < 26 ∧ q.point.y.val < 26)

include h

/-- The encodings of pieces are words. -/
theorem word_of_mem_texts :
    ∀ w ∈ pieces.map Piece.text, w ≠ [] ∧ ∀ c ∈ w, Text.isBlank c = false := by
  intro w hw
  obtain ⟨q, hq, rfl⟩ := List.mem_map.1 hw
  obtain ⟨hkind, -, hx, -⟩ := h q hq
  exact ⟨List.cons_ne_nil _ _, fun c hc => Piece.not_blank_of_mem_text hkind hx hc⟩

/-- Pieces are read from their encodings, in order. -/
theorem readPiece_texts : (pieces.map Piece.text).map set.readPiece = pieces.map .ok := by
  rw [List.map_map]
  refine List.map_congr_left fun q hq => ?_
  obtain ⟨hkind, hknows, hx, hy⟩ := h q hq
  rw [Function.comp_apply, PieceSet.readPiece, Piece.read_text hkind hx hy]
  exact if_pos hknows

/-- The side to move and the encodings of some pieces, with spaces between them, are a layout that
lists the pieces, if they can be written and stand on some board. -/
theorem lists_intercalate (turn : Colour) :
    Lists set (turn.code :: ' ' :: [' '].intercalate (pieces.map Piece.text)) turn pieces := by
  have hwords : Text.words (turn.code :: ' ' :: [' '].intercalate (pieces.map Piece.text)) =
      [turn.code] :: pieces.map Piece.text := by
    have hturn : ∀ c ∈ [turn.code], Text.isBlank c = false := by
      rw [List.forall_mem_singleton, Text.not_blank_code]
    have hsplit := Text.words_append_blank (c := ' ') (List.cons_ne_nil turn.code []) hturn rfl
      ([' '].intercalate (pieces.map Piece.text))
    rwa [Text.words_intercalate (word_of_mem_texts h)] at hsplit
  refine ⟨pieces.map Piece.text, ?_, readPiece_texts h⟩
  rw [hwords, readTurn, Colour.ofCode?_code]

/-- The encodings alone are a layout that lists the pieces with white to move. -/
theorem lists_intercalate_white :
    Lists set ([' '].intercalate (pieces.map Piece.text)) .white pieces := by
  refine ⟨pieces.map Piece.text, ?_, readPiece_texts h⟩
  rw [Text.words_intercalate (word_of_mem_texts h)]
  refine readTurn_of_unled fun c hfirst => ?_
  rw [List.head?_map, Option.map_eq_some_iff] at hfirst
  obtain ⟨q, hq, htext⟩ := hfirst
  obtain ⟨hkind, -, hx, hy⟩ := h q (List.mem_of_head? hq)
  exact Piece.length_ne_of_read (Piece.read_text hkind hx hy) (congrArg List.length htext)

end Written

/-- Any side to move and any pieces that can be written and stand on some board have a layout. -/
theorem exists_layout (turn : Colour) (h : ∀ q ∈ pieces, q.kind.Written ∧ set.knows q.kind ∧
    q.point.x.val < 26 ∧ q.point.y.val < 26) : ∃ layout, Lists set layout turn pieces :=
  ⟨_, lists_intercalate h turn⟩

end Board

end VariantChess
