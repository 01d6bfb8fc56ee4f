import VariantChess.MoveText
import VariantChess.Proofs.PieceText

/-!
# Reading written moves back

A written move has no fixed widths: a custom code may hold any character but the tilde that ends it,
a rank has one or two digits, and `x` is both a separator and a file. It can be cut apart all the
same, because a kind is over where its letter or its second tilde is and a square is over where its
digits end. So a move is read back from its written form whenever its custom code holds no tilde and
its squares lie on some board, and in particular if it was read from a text itself.
-/

namespace VariantChess

/-- Rewording errors changes no result. -/
theorem mapError_eq_ok_iff {ε ε' α : Type} {f : ε → ε'} {x : Except ε α} {a : α} :
    x.mapError f = .ok a ↔ x = .ok a := by
  cases x with
  | error => exact ⟨nofun, nofun⟩
  | ok b =>
    change Except.ok b = .ok a ↔ _
    rw [Except.ok.injEq, Except.ok.injEq]

/-- The kinds that can be told from what comes after them: chessmen, and custom kinds whose codes
hold no tilde. -/
def Kind.Delimited : Kind → Prop
  | .standard _ => True
  | .custom code => '~' ∉ code.toList

namespace MoveText

variable {m : MoveText} {cs rest first second : List Char} {capture : Bool}

/-- A kind is read from its written form and whatever comes after it, and from nothing else. -/
theorem readKind_eq_ok_iff {k : Kind} :
    readKind cs = .ok (k, rest) ↔ k.Delimited ∧ cs = k.text ++ rest := by
  constructor
  · intro h
    unfold readKind at h
    split at h
    · cases h
    · next tail =>
      split at h
      · cases h
      · next code tail' hsplit =>
        obtain ⟨hcode, rfl⟩ := Kind.splitTilde?_eq_some_iff.1 hsplit
        obtain ⟨rfl, rfl⟩ := Prod.mk.inj (Except.ok.inj h)
        refine ⟨?_, by simp [Kind.text]⟩
        rwa [Kind.Delimited, String.toList_ofList]
    · next c tail _ =>
      split at h
      · cases h
      · next chessman hc =>
        obtain ⟨rfl, rfl⟩ := Prod.mk.inj (Except.ok.inj h)
        exact ⟨trivial, congrArg (· :: tail) (Chessman.eq_code_of_ofCode? hc)⟩
  · rintro ⟨hk, rfl⟩
    cases k with
    | standard chessman => cases chessman <;> rfl
    | custom code =>
      have hsplit : Kind.splitTilde? (code.toList ++ '~' :: rest) = some (code.toList, rest) :=
        Kind.splitTilde?_eq_some_iff.2 ⟨hk, rfl⟩
      rw [Kind.text_custom_append, readKind, hsplit]
      dsimp only
      rw [String.ofList_toList]

/-- No separator is a digit, so a square ends before it. -/
theorem separator_not_isDigit (capture : Bool) : (separator capture).isDigit = false := by
  cases capture <;> rfl

/-- Two squares are cut apart at the first character after the first one and its digits, which has
to be a separator. -/
theorem splitSquares?_eq_some_iff : splitSquares? cs = some (first, capture, second) ↔
    ∃ c ds, (∀ d ∈ ds, d.isDigit) ∧ first = c :: ds ∧
      cs = first ++ separator capture :: second := by
  constructor
  · intro h
    unfold splitSquares? at h
    split at h
    · cases h
    · next c tail =>
      have hdigits : ∀ d ∈ tail.takeWhile Char.isDigit, d.isDigit := fun d hd =>
        List.all_eq_true.1 List.all_takeWhile d hd
      have hsplit := List.takeWhile_append_dropWhile (p := Char.isDigit) (l := tail)
      split at h
      · next target hdrop =>
        simp only [Option.some.injEq, Prod.mk.injEq] at h
        obtain ⟨rfl, rfl, rfl⟩ := h
        exact ⟨c, _, hdigits, rfl, congrArg (c :: ·) (hdrop ▸ hsplit).symm⟩
      · next target hdrop =>
        simp only [Option.some.injEq, Prod.mk.injEq] at h
        obtain ⟨rfl, rfl, rfl⟩ := h
        exact ⟨c, _, hdigits, rfl, congrArg (c :: ·) (hdrop ▸ hsplit).symm⟩
      · cases h
  · rintro ⟨c, ds, hdigits, rfl, rfl⟩
    have hstop := separator_not_isDigit capture
    rw [List.cons_append, splitSquares?, List.dropWhile_append_of_pos hdigits,
      List.takeWhile_append_of_pos hdigits, List.dropWhile_cons_of_neg (by simp [hstop]),
      List.takeWhile_cons_of_neg (by simp [hstop]), List.append_nil]
    cases capture <;> rfl

/-- A text is read to a move exactly if it consists of the written form of the kind, which can be
told from what comes after it, and two texts read to the squares with the separator between them. -/
theorem read_eq_ok_iff : read cs = .ok m ↔ m.kind.Delimited ∧ ∃ first second,
    Point.read first = .ok m.source ∧ Point.read second = .ok m.target ∧
      cs = m.kind.text ++ (first ++ separator m.capture :: second) := by
  constructor
  · intro hread
    obtain ⟨⟨kind, rest⟩, hkind, h⟩ := bind_eq_ok_iff.1 hread
    obtain ⟨hdelimited, rfl⟩ := readKind_eq_ok_iff.1 hkind
    dsimp only at h
    split at h
    · cases h
    · next first capture second hsquares =>
      obtain ⟨-, -, -, -, rfl⟩ := splitSquares?_eq_some_iff.1 hsquares
      obtain ⟨source, hsource, h⟩ := bind_eq_ok_iff.1 h
      obtain ⟨target, htarget, h⟩ := bind_eq_ok_iff.1 h
      obtain rfl := Except.ok.inj h
      exact ⟨hdelimited, first, second, mapError_eq_ok_iff.1 hsource,
        mapError_eq_ok_iff.1 htarget, rfl⟩
  · rintro ⟨hdelimited, first, second, hsource, htarget, rfl⟩
    obtain ⟨c, ds, hfirst, hdigits⟩ := Point.exists_cons_of_read hsource
    refine bind_eq_ok_iff.2 ⟨_, readKind_eq_ok_iff.2 ⟨hdelimited, rfl⟩, ?_⟩
    dsimp only
    rw [splitSquares?_eq_some_iff.2 ⟨c, ds, hdigits, hfirst, rfl⟩]
    dsimp only
    rw [hsource, htarget]
    rfl

/-- The squares of a move lie on some board. -/
def OnBoards (m : MoveText) : Prop :=
  (m.source.x.val < 26 ∧ m.source.y.val < 26) ∧ m.target.x.val < 26 ∧ m.target.y.val < 26

/-- A written move is read from its own text exactly if its kind can be told from what comes after
it and its squares lie on some board. A move that was read from any text is read from its own, too. -/
theorem read_text_iff (m : MoveText) :
    (read m.text = .ok m ↔ m.kind.Delimited ∧ m.OnBoards) ∧
      ∀ cs, read cs = .ok m → read m.text = .ok m := by
  have hread (hdelimited : m.kind.Delimited) (hsquares : m.OnBoards) : read m.text = .ok m := by
    obtain ⟨⟨hsx, hsy⟩, htx, hty⟩ := hsquares
    exact read_eq_ok_iff.2 ⟨hdelimited, _, _, m.source.read_text hsx hsy,
      m.target.read_text htx hty, List.append_assoc _ _ _⟩
  have hback {cs : List Char} (h : read cs = .ok m) : m.kind.Delimited ∧ m.OnBoards := by
    obtain ⟨hdelimited, first, second, hsource, htarget, -⟩ := read_eq_ok_iff.1 h
    exact ⟨hdelimited, Point.bounds_of_read hsource, Point.bounds_of_read htarget⟩
  refine ⟨⟨hback, fun h => hread h.1 h.2⟩, fun cs h => ?_⟩
  obtain ⟨hdelimited, hsquares⟩ := hback h
  exact hread hdelimited hsquares

/-- A capture on the file `x` by a custom kind that is coded like a move, read from a text that has a
zero before a rank. -/
theorem read_text_iff_custom : ∃ m, read "~x-1~x01xx26".toList = .ok m ∧
    m.kind = .custom "x-1" ∧ m.capture = true ∧ m.text = "~x-1~x1xx26".toList ∧
      read m.text = .ok m := by
  have hfirst : read "~x-1~x01xx26".toList =
      .ok ⟨.custom "x-1", .ofCoords 23 0, .ofCoords 23 25, true⟩ := by rfl
  exact ⟨_, hfirst, rfl, rfl, by rfl, (read_text_iff _).2 _ hfirst⟩

end MoveText

end VariantChess
