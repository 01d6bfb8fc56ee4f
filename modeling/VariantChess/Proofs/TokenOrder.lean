import Mathlib.Data.List.Perm.Basic
import Mathlib.GroupTheory.Perm.ViaEmbedding
import VariantChess.Proofs.LayoutText
import VariantChess.Proofs.Transcript

/-!
# The order of the tokens of a layout

A layout is accepted exactly when its tokens encode pieces inside the bounds, no two of them on one
point and no two of them kings of one colour. This does not depend on the order of the tokens. The
order settles the identities of the pieces and nothing else, so the games that start from the two
layouts differ in the identities only, and neither their views nor their transcripts tell them apart.
-/

namespace VariantChess

/-- A permutation of a list comes from a permutation of its positions. -/
theorem exists_perm_getElem? {α : Type} {l l' : List α} (h : l.Perm l') :
    ∃ σ : Equiv.Perm Nat, ∀ n, l'[σ n]? = l[n]? := by
  induction h with
  | nil => exact ⟨1, fun _ => rfl⟩
  | @cons a l l' _ ih =>
    -- the first position stays, the others are permuted as those of the tail
    obtain ⟨σ, hσ⟩ := ih
    let succ : Nat ↪ Nat := ⟨Nat.succ, Nat.succ_injective⟩
    refine ⟨σ.viaEmbedding succ, fun n => ?_⟩
    cases n with
    | zero =>
      have hfirst : 0 ∉ Set.range succ := by
        rintro ⟨n, hn⟩
        exact Nat.succ_ne_zero n hn
      rw [Equiv.Perm.viaEmbedding_apply_of_notMem _ _ _ hfirst]
      rfl
    | succ n =>
      have hn : σ.viaEmbedding succ (n + 1) = σ n + 1 := Equiv.Perm.viaEmbedding_apply σ succ n
      rw [hn, List.getElem?_cons_succ, List.getElem?_cons_succ, hσ]
  | swap a b l =>
    refine ⟨Equiv.swap 0 1, fun n => ?_⟩
    obtain _ | _ | n := n
    · rfl
    · rfl
    · rw [Equiv.swap_apply_of_ne_of_ne (Nat.succ_ne_zero _) (by omega)]
      rfl
  | trans _ _ ih ih' =>
    obtain ⟨σ, hσ⟩ := ih
    obtain ⟨τ, hτ⟩ := ih'
    exact ⟨σ.trans τ, fun n => (hτ (σ n)).trans (hσ n)⟩

/-- A permutation of the images of a list comes from a permutation of the list. -/
theorem exists_perm_map {α β : Type} {f : α → β} {l : List α} {k : List β}
    (h : (l.map f).Perm k) : ∃ l', k = l'.map f ∧ l.Perm l' := by
  have hiff (k : List β) (l : List α) : List.Forall₂ (fun b a => b = f a) k l ↔ k = l.map f := by
    rw [← List.forall₂_eq_eq_eq, List.forall₂_map_right_iff]
  obtain ⟨l', hl', hperm⟩ := List.perm_comp_forall₂ h.symm ((hiff _ l).2 rfl)
  exact ⟨l', (hiff k l').1 hl', hperm.symm⟩

/-- The identity of a piece is its place in the roster. -/
def PieceId.equivNat : PieceId ≃ Nat := ⟨PieceId.index, PieceId.mk, fun _ => rfl, fun _ => rfl⟩

/-- Two pieces may be part of one layout: they stand on different points and are not kings of one
colour. -/
def Piece.Compatible (q r : Piece) : Prop :=
  q.point ≠ r.point ∧ ¬(q.isKing ∧ r.isKing ∧ q.colour = r.colour)

/-- Being compatible is symmetric. -/
theorem Piece.Compatible.symm {q r : Piece} (h : q.Compatible r) : r.Compatible q :=
  ⟨h.1.symm, fun hkings => h.2 ⟨hkings.2.1, hkings.1, hkings.2.2.symm⟩⟩

/-- The second list of tokens holds the same pieces as the first in another order. A single
character that comes first, as the side to move does, stays first. -/
inductive Reordered : List (List Char) → List (List Char) → Prop
  | led (c : Char) {tokens tokens' : List (List Char)} (h : tokens.Perm tokens') :
    Reordered ([c] :: tokens) ([c] :: tokens')
  | unled {tokens tokens' : List (List Char)} (h : tokens.Perm tokens')
    (hfirst : ∀ c, tokens.head? ≠ some [c]) (hfirst' : ∀ c, tokens'.head? ≠ some [c]) :
    Reordered tokens tokens'

/-- Being reordered is symmetric. -/
theorem Reordered.symm {tokens tokens' : List (List Char)} (h : Reordered tokens tokens') :
    Reordered tokens' tokens := by
  cases h with
  | led c h => exact .led c h.symm
  | unled h hfirst hfirst' => exact .unled h.symm hfirst' hfirst

namespace Board

variable {b b' : Board} {set : PieceSet} {bounds : Bounds} {tokens : List (List Char)}
  {token : List Char} {id : PieceId}

/-- On a sound board with all of its pieces, the occupants are read off the roster. -/
theorem on?_eq_some_iff (hb : b.Sound) (hfull : b.Full) {p : Point} :
    b.on? p = some id ↔ ∃ q, b.piece? id = some q ∧ q.point = p := by
  refine ⟨hb p id, ?_⟩
  rintro ⟨q, hq, rfl⟩
  exact hfull id q hq

/-- The roster lists the pieces on record. -/
theorem mem_roster_iff {q : Piece} : q ∈ b.roster.toList ↔ ∃ id, b.piece? id = some q := by
  rw [List.mem_iff_getElem?]
  simp only [Array.getElem?_toList]
  constructor
  · rintro ⟨n, hn⟩
    exact ⟨⟨n⟩, hn⟩
  · rintro ⟨id, hid⟩
    exact ⟨id.index, hid⟩

/-- The pieces on a board with all of its pieces are those of the roster. -/
theorem Full.mem_pieces_iff (hfull : b.Full) {q : Piece} :
    q ∈ b.pieces ↔ q ∈ b.roster.toList := by
  rw [mem_roster_iff, pieces, List.mem_filterMap]
  refine exists_congr fun i => and_iff_right_of_imp fun hq => ?_
  exact Plane.mem_values.2 ⟨q.point, hfull i q hq⟩

/-- A board with all of its pieces holds a king of a colour if one is in its roster. -/
theorem hasKing_iff (hfull : b.Full) {c : Colour} :
    b.hasKing c ↔ ∃ q ∈ b.roster.toList, q.isKing ∧ q.colour = c := by
  rw [hasKing, List.any_eq_true]
  simp only [Bool.and_eq_true, decide_eq_true_eq]
  exact exists_congr fun q => and_congr hfull.mem_pieces_iff Iff.rfl

/-- A piece can be added on any vacant point inside the bounds. -/
theorem exists_add_iff {q : Piece} :
    (∃ b', b.add q = .ok b') ↔ b.on? q.point = none ∧ b.bounds.contains q.point := by
  constructor
  · rintro ⟨b', hadd⟩
    obtain ⟨hnone, hin, -⟩ := place_view hadd
    exact ⟨hnone, hin⟩
  · rintro ⟨hnone, hin⟩
    exact place_of_vacant (b := ⟨b.plane, b.roster.push q⟩) _ hnone hin

/-- A piece is compatible with those on the board when its point is vacant and when it is no second
king of its colour. -/
theorem compatible_iff (hb : b.Sound) (hfull : b.Full) {q : Piece} :
    (∀ r ∈ b.roster.toList, r.Compatible q) ↔
      b.on? q.point = none ∧ (q.isKing && b.hasKing q.colour) = false := by
  have hvacant : b.on? q.point = none ↔ ∀ r ∈ b.roster.toList, r.point ≠ q.point := by
    simp only [Option.eq_none_iff_forall_ne_some, ne_eq, on?_eq_some_iff hb hfull, mem_roster_iff]
    grind
  have hking : (q.isKing && b.hasKing q.colour) = false ↔
      ∀ r ∈ b.roster.toList, ¬(r.isKing ∧ q.isKing ∧ r.colour = q.colour) := by
    rw [← Bool.not_eq_true, Bool.and_eq_true, hasKing_iff hfull]
    grind
  rw [hvacant, hking, ← forall₂_and]
  rfl

/-- A token is accepted exactly when it encodes a piece that can be added and is compatible with
those before it. -/
theorem addToken_eq_ok_iff (hb : b.Sound) (hfull : b.Full) :
    addToken set b token = .ok b' ↔ ∃ q, set.readPiece token = .ok q ∧
      (∀ r ∈ b.roster.toList, r.Compatible q) ∧ b.add q = .ok b' := by
  constructor
  · intro h
    obtain ⟨q, hread, hadd, hking⟩ := addToken_eq_ok h
    obtain ⟨hnone, -⟩ := exists_add_iff.1 ⟨b', hadd⟩
    exact ⟨q, hread, (compatible_iff hb hfull).2 ⟨hnone, hking⟩, hadd⟩
  · rintro ⟨q, hread, hq, hadd⟩
    obtain ⟨r, hr, -⟩ := bind_eq_ok_iff.1 hread
    obtain ⟨-, hking⟩ := (compatible_iff hb hfull).1 hq
    rw [addToken, if_neg (Piece.length_ne_of_read hr), hread]
    dsimp only
    rw [hadd]
    dsimp only
    rw [hking]
    rfl

/-- Adding a piece that is compatible with those on the board keeps any two compatible. -/
theorem pairwise_of_add {q : Piece} (hroster : b.roster.toList.Pairwise Piece.Compatible)
    (hq : ∀ r ∈ b.roster.toList, r.Compatible q) (hadd : b.add q = .ok b') :
    b'.roster.toList.Pairwise Piece.Compatible := by
  rw [roster_of_add hadd, List.pairwise_append]
  exact ⟨hroster, List.pairwise_singleton _ _, by simpa using hq⟩

/-- Tokens are accepted exactly when they encode pieces inside the bounds of which any two are
compatible, with those on the board as well; the pieces come into the roster in the order of the
tokens. -/
theorem foldlM_addToken_iff (set : PieceSet) (tokens : List (List Char)) (hb : b.Sound)
    (hfull : b.Full) (hroster : b.roster.toList.Pairwise Piece.Compatible) (roster : List Piece) :
    (∃ b', tokens.foldlM (addToken set) b = .ok b' ∧ b'.roster.toList = roster) ↔
      ∃ pieces, tokens.map set.readPiece = pieces.map .ok ∧
        (∀ q ∈ pieces, b.bounds.contains q.point) ∧ roster = b.roster.toList ++ pieces ∧
          roster.Pairwise Piece.Compatible := by
  induction tokens generalizing b with
  | nil =>
    constructor
    · rintro ⟨b', hb', rfl⟩
      obtain rfl := Except.ok.inj hb'
      exact ⟨[], rfl, by simp, (List.append_nil _).symm, hroster⟩
    · rintro ⟨pieces, hpieces, -, rfl, -⟩
      obtain rfl := List.map_eq_nil_iff.1 hpieces.symm
      exact ⟨b, rfl, (List.append_nil _).symm⟩
  | cons token rest ih =>
    constructor
    · rintro ⟨b', hfold, hb'⟩
      rw [List.foldlM_cons] at hfold
      obtain ⟨b₁, htoken, hrest⟩ := bind_eq_ok_iff.1 hfold
      obtain ⟨q, hread, hq, hadd⟩ := (addToken_eq_ok_iff hb hfull).1 htoken
      obtain ⟨pieces, hpieces, hinside, hroster', hall⟩ :=
        (ih (hb.add hadd) (hfull.add hadd) (pairwise_of_add hroster hq hadd)).1 ⟨b', hrest, hb'⟩
      rw [(add_view hadd).2.1] at hinside
      refine ⟨q :: pieces, ?_, List.forall_mem_cons.2 ⟨(exists_add_iff.1 ⟨_, hadd⟩).2, hinside⟩,
        ?_, hall⟩
      · rw [List.map_cons, List.map_cons, hread, hpieces]
      · rw [hroster', roster_of_add hadd, List.append_assoc, List.singleton_append]
    · rintro ⟨pieces, hpieces, hinside, rfl, hall⟩
      obtain ⟨q, pieces, rfl, hread, hrest⟩ := List.map_eq_cons_iff.1 hpieces.symm
      rw [List.forall_mem_cons] at hinside
      obtain ⟨-, -, hcross⟩ := List.pairwise_append.1 hall
      have hq : ∀ r ∈ b.roster.toList, r.Compatible q := fun r hr =>
        hcross r hr q List.mem_cons_self
      obtain ⟨b₁, hadd⟩ := exists_add_iff.2 ⟨((compatible_iff hb hfull).1 hq).1, hinside.1⟩
      obtain ⟨b', hfold, hb'⟩ :=
        (ih (hb.add hadd) (hfull.add hadd) (pairwise_of_add hroster hq hadd)).2
          ⟨pieces, hrest.symm, (add_view hadd).2.1 ▸ hinside.2,
            by rw [roster_of_add hadd, List.append_assoc, List.singleton_append], hall⟩
      refine ⟨b', ?_, hb'⟩
      rw [List.foldlM_cons]
      exact bind_eq_ok_iff.2 ⟨b₁, (addToken_eq_ok_iff hb hfull).2 ⟨q, hread.symm, hq, hadd⟩, hfold⟩

/-- A layout is read to the pieces that it lists, in order, exactly when they lie inside the bounds
and any two of them are compatible. -/
theorem exists_read_iff {layout : List Char} {turn : Colour} {pieces : List Piece} :
    (∃ b, Board.read set bounds layout = .ok (b, turn) ∧ b.roster.toList = pieces) ↔
      Lists set layout turn pieces ∧ (∀ q ∈ pieces, bounds.contains q.point) ∧
        pieces.Pairwise Piece.Compatible := by
  have hfull : (empty bounds).Full := fun i q hq => by
    rw [piece?_empty] at hq
    cases hq
  have hiff (tokens : List (List Char)) := foldlM_addToken_iff set tokens (sound_empty bounds) hfull
    (.nil : [].Pairwise Piece.Compatible) pieces
  constructor
  · rintro ⟨b, hread, hroster⟩
    obtain ⟨⟨turn', tokens⟩, hturn, hrest⟩ := bind_eq_ok_iff.1 hread
    obtain ⟨board, hfold, hanswer⟩ := bind_eq_ok_iff.1 hrest
    obtain ⟨rfl, rfl⟩ := Prod.mk.inj (Except.ok.inj hanswer)
    obtain ⟨_, htokens, hinside, rfl, hall⟩ := (hiff tokens).1 ⟨board, hfold, hroster⟩
    exact ⟨⟨tokens, hturn, htokens⟩, hinside, hall⟩
  · rintro ⟨⟨tokens, hturn, htokens⟩, hinside, hall⟩
    obtain ⟨b, hfold, hroster⟩ := (hiff tokens).2 ⟨pieces, htokens, hinside, rfl, hall⟩
    exact ⟨b, bind_eq_ok_iff.2 ⟨_, hturn, bind_eq_ok_iff.2 ⟨b, hfold, rfl⟩⟩, hroster⟩

/-- The side to move of reordered tokens is the same, and the tokens of the pieces are permuted. -/
theorem readTurn_of_reordered {words words' : List (List Char)} {turn : Colour}
    (h : Reordered words words') (hturn : readTurn words = .ok (turn, tokens)) :
    ∃ tokens', readTurn words' = .ok (turn, tokens') ∧ tokens.Perm tokens' := by
  cases h with
  | led c hperm =>
    rw [readTurn] at hturn ⊢
    split at hturn
    · obtain ⟨rfl, rfl⟩ := Prod.mk.inj (Except.ok.inj hturn)
      exact ⟨_, rfl, hperm⟩
    · cases hturn
  | unled hperm hfirst hfirst' =>
    rw [readTurn_of_unled hfirst] at hturn
    obtain ⟨rfl, rfl⟩ := Prod.mk.inj (Except.ok.inj hturn)
    exact ⟨_, readTurn_of_unled hfirst', hperm⟩

/-- A layout whose pieces come in another order is read alike. -/
theorem read_of_reordered {layout layout' : List Char} {turn : Colour}
    (hlayout : Reordered (Text.words layout) (Text.words layout'))
    (h : Board.read set bounds layout = .ok (b, turn)) :
    ∃ b', Board.read set bounds layout' = .ok (b', turn) ∧
      b.roster.toList.Perm b'.roster.toList := by
  obtain ⟨⟨tokens, hturn, htokens⟩, hinside, hcompatible⟩ := exists_read_iff.1 ⟨b, h, rfl⟩
  obtain ⟨tokens', hturn', hperm⟩ := readTurn_of_reordered hlayout hturn
  obtain ⟨pieces', htokens', hroster⟩ := exists_perm_map (htokens ▸ hperm.map set.readPiece)
  obtain ⟨b', hread', rfl⟩ := exists_read_iff.2 ⟨⟨tokens', hturn', htokens'⟩,
    fun q hq => hinside q (hroster.mem_iff.2 hq),
    (hroster.pairwise_iff Piece.Compatible.symm).1 hcompatible⟩
  exact ⟨b', hread', hroster⟩

/-- Rosters that hold the same records in another order differ in the identities. -/
theorem exists_perm_piece? {f : Piece → Piece}
    (hroster : (b.roster.toList.map f).Perm b'.roster.toList) :
    ∃ σ : Equiv.Perm PieceId, ∀ i, b'.piece? (σ i) = (b.piece? i).map f := by
  obtain ⟨τ, hτ⟩ := exists_perm_getElem? hroster
  refine ⟨PieceId.equivNat.permCongr.symm τ, fun i => ?_⟩
  rw [piece?, piece?, ← Array.getElem?_toList, ← Array.getElem?_toList, ← List.getElem?_map]
  exact hτ i.index

/-- Boards that are read from layouts are images of each other when their rosters are. -/
theorem imageBoard_of_read {T : Symmetry bounds} {layout layout' : List Char} {turn turn' : Colour}
    (h : Board.read set bounds layout = .ok (b, turn))
    (h' : Board.read set bounds layout' = .ok (b', turn'))
    (hpiece : ∀ i, b'.piece? (T.id i) = (b.piece? i).map T.piece) : T.ImageBoard b b' := by
  obtain ⟨hb, hfull, -⟩ := of_read h
  obtain ⟨hb', hfull', -⟩ := of_read h'
  have hbounds := bounds_of_read h
  refine ⟨hbounds, bounds_of_read h', fun i q hq => ?_, fun p => ?_, hpiece⟩
  · rw [← hbounds]
    exact contains_of_on? (hfull i q hq)
  · refine Option.ext fun i' => ?_
    obtain ⟨i, rfl⟩ := T.id.surjective i'
    have hon : b.on? p = some i ↔ _ := on?_eq_some_iff hb hfull
    rw [Option.map_eq_some_iff, on?_eq_some_iff hb' hfull', hpiece]
    simp [hon]

end Board

namespace Game

variable {set : PieceSet} {config : GameConfig} {layout layout' : List Char} {b b' : Board}
  {σ : Equiv.Perm PieceId}

/-- Games that are set up on boards that differ in the identities differ in the identities. -/
theorem relabelled_setUp (set : PieceSet) (h : (relabel config.bounds σ).ImageBoard b b')
    (turn : Colour) :
    Relabelled config.bounds σ (setUp set config b turn) (setUp set config b' turn) := by
  have hking (c : Colour) : findKing b' c = (findKing b c).map σ := by
    rw [findKing, findKing, Relabel.ids_eq h, List.find?_map]
    refine congrArg (Option.map σ) (congrArg (List.find? · _) (funext fun i => ?_))
    have hpiece : b'.piece? (σ i) = b.piece? i := (h.piece?_eq i).trans Option.map_id'
    rw [Function.comp_apply, hpiece]
  have hposition : (relabel config.bounds σ).ImagePosition (setUp set config b turn)
      (setUp set config b' turn) := .setUp h hking (Relabelled.fitsGame _)
  obtain ⟨threats, hframe⟩ := setUp_eq set config b turn
  obtain ⟨threats', hframe'⟩ := setUp_eq set config b' turn
  rw [hframe, hframe'] at hposition ⊢
  exact ⟨hposition, rfl, fun e he => (by cases he), rfl, rfl⟩

/-- A layout whose pieces come in another order starts a game that differs in the identities only. -/
theorem start_of_reordered (hlayout : Reordered (Text.words layout) (Text.words layout')) {g : Game}
    (h : start set layout config = .ok g) :
    ∃ g' σ, start set layout' config = .ok g' ∧ Relabelled config.bounds σ g g' := by
  rw [start] at h
  split at h
  · cases h
  · next b turn hread =>
    obtain ⟨b', hread', hroster⟩ := Board.read_of_reordered hlayout hread
    rw [← List.map_id b.roster.toList] at hroster
    obtain ⟨σ, hpiece⟩ := Board.exists_perm_piece? hroster
    have himage : (relabel config.bounds σ).ImageBoard b b' :=
      Board.imageBoard_of_read hread hread' hpiece
    have hverdict := (relabelled_setUp set himage turn).verdict turn.other
    split at h
    · cases h
    · next status g₁ hok =>
      obtain ⟨⟨status', g₁'⟩, hok', hstatus, h₁⟩ := hverdict.exists_of_ok hok
      obtain rfl : status' = status := hstatus
      obtain rfl := Except.ok.inj h
      have hset : ∀ s : Status, Relabelled config.bounds σ { g₁ with status := s, initial := s }
          { g₁' with status := s, initial := s } := fun s =>
        ⟨⟨h₁.board, h₁.pieceSet, h₁.threats, h₁.kings, h₁.turn, h₁.config, h₁.lastPly,
          h₁.lastPly_inside⟩, h₁.log, h₁.log_inside, rfl, rfl⟩
      refine ⟨_, σ, ?_, hset _⟩
      rw [start, hread']
      dsimp only
      rw [hok']

/-- The order of the pieces in a layout cannot be observed. If the pieces of a layout come in another
order, the layout is accepted as before, and the two games show the same and answer alike, along any
sequence of operations. -/
theorem transcript_of_reordered (set : PieceSet) (config : GameConfig)
    (hlayout : Reordered (Text.words layout) (Text.words layout')) :
    ((∃ g, start set layout config = .ok g) ↔ ∃ g', start set layout' config = .ok g') ∧
      ∀ g g', start set layout config = .ok g → start set layout' config = .ok g' →
        g'.view = g.view ∧ ∀ ops, g'.transcript ops = g.transcript ops := by
  refine ⟨⟨?_, ?_⟩, fun g g' h h' => ?_⟩
  · rintro ⟨g, h⟩
    obtain ⟨g', σ, h', -⟩ := start_of_reordered hlayout h
    exact ⟨g', h'⟩
  · rintro ⟨g', h'⟩
    obtain ⟨g, σ, h, -⟩ := start_of_reordered hlayout.symm h'
    exact ⟨g, h⟩
  · obtain ⟨g'', σ, h'', hrel⟩ := start_of_reordered hlayout h
    obtain rfl := Except.ok.inj (h'.symm.trans h'')
    exact ⟨hrel.view_eq, hrel.transcript_eq⟩

/-- The layout of a king and a rook against a king may list the kings last. -/
theorem transcript_of_reordered_small : ∃ g g',
    start .orthodox "w wRb1 wKa1 bKc3".toList smallConfig = .ok g ∧
      start .orthodox "w bKc3 wRb1 wKa1".toList smallConfig = .ok g' ∧ g' ≠ g ∧
        g'.view = g.view ∧ ∀ ops, g'.transcript ops = g.transcript ops := by
  obtain ⟨g, g', hstart, hstart', hne⟩ : ∃ g g',
      start .orthodox "w wRb1 wKa1 bKc3".toList smallConfig = .ok g ∧
        start .orthodox "w bKc3 wRb1 wKa1".toList smallConfig = .ok g' ∧ g' ≠ g := by
    have h : ((start .orthodox "w wRb1 wKa1 bKc3".toList smallConfig).toOption.any fun g =>
        (start .orthodox "w bKc3 wRb1 wKa1".toList smallConfig).toOption.any fun g' =>
          g' ≠ g) := by decide +kernel
    obtain ⟨g, hg, h⟩ := (Option.any_eq_true _ _).1 h
    obtain ⟨g', hg', hne⟩ := (Option.any_eq_true _ _).1 h
    exact ⟨g, g', toOption_eq_some_iff.1 hg, toOption_eq_some_iff.1 hg', of_decide_eq_true hne⟩
  have hlayout : Reordered (Text.words "w wRb1 wKa1 bKc3".toList)
      (Text.words "w bKc3 wRb1 wKa1".toList) := .led 'w' (by decide)
  obtain ⟨-, hsame⟩ := transcript_of_reordered .orthodox smallConfig hlayout
  exact ⟨g, g', hstart, hstart', hne, hsame g g' hstart hstart'⟩

end Game

end VariantChess
