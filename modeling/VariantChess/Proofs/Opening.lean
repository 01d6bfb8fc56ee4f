import VariantChess.Game.Start
import VariantChess.Proofs.Line

/-!
# Openings

A board that is read from a layout is sound, has every piece of its roster standing on it and holds
at most one king of each colour. The game that starts on it has regular pieces if the piece set or
the pieces of the layout are regular, and its threat maps are computed from nothing; so it is an
opening, and its kings are the pieces that the kings' table names.
-/

namespace VariantChess

namespace Board

variable {b b' : Board} {piece : Piece} {id : PieceId}

/-- Every piece of the roster stands where it is recorded. -/
def Full (b : Board) : Prop := ∀ id q, b.piece? id = some q → b.on? q.point = some id

/-- No two kings of the roster have the same colour. -/
def SingleKings (b : Board) : Prop := ∀ i j q r, b.piece? i = some q → b.piece? j = some r →
  q.isKing → r.isKing → q.colour = r.colour → i = j

/-- A new piece is recorded after the others and stands on its point. -/
theorem add_view (h : b.add piece = .ok b') : b.on? piece.point = none ∧ b'.bounds = b.bounds ∧
    (∀ p, b'.on? p = if piece.point = p then some ⟨b.roster.size⟩ else b.on? p) ∧
      ∀ i, b'.piece? i = if i = ⟨b.roster.size⟩ then some piece else b.piece? i := by
  obtain ⟨hnone, -, hbounds, hon, hpiece⟩ := place_view h
  refine ⟨hnone, hbounds, hon, fun i => ?_⟩
  have hpush : Board.piece? ⟨b.plane, b.roster.push piece⟩ i =
      if i = ⟨b.roster.size⟩ then some piece else b.piece? i := by
    obtain ⟨n⟩ := i
    simp only [piece?, Array.getElem?_push, PieceId.mk.injEq]
  rw [hpiece, hpush]
  split <;> rfl

/-- The identity that comes next is not in use. -/
theorem piece?_size (b : Board) : b.piece? ⟨b.roster.size⟩ = none := by
  rw [piece?, Array.getElem?_eq_none]
  exact Nat.le_refl _

/-- Adding a piece keeps a board sound. -/
theorem Sound.add (hb : b.Sound) (h : b.add piece = .ok b') : b'.Sound := by
  obtain ⟨-, -, hon, hpiece⟩ := add_view h
  intro p i hi
  rw [hon] at hi
  rw [hpiece]
  split at hi
  · next hp =>
    obtain rfl := Option.some.inj hi
    exact ⟨piece, by rw [if_pos rfl], hp⟩
  · obtain ⟨q, hq, hpoint⟩ := hb p i hi
    have hne : i ≠ ⟨b.roster.size⟩ := by
      intro heq
      rw [heq, piece?_size] at hq
      cases hq
    exact ⟨q, by rw [if_neg hne, hq], hpoint⟩

/-- Adding a piece keeps every piece on the board. -/
theorem Full.add (hb : b.Full) (h : b.add piece = .ok b') : b'.Full := by
  obtain ⟨hnone, -, hon, hpiece⟩ := add_view h
  intro i q hq
  rw [hpiece] at hq
  rw [hon]
  split at hq
  · next hi =>
    obtain rfl := Option.some.inj hq
    rw [if_pos rfl, hi]
  · have hstand := hb i q hq
    have hne : piece.point ≠ q.point := by
      intro heq
      rw [← heq, hnone] at hstand
      cases hstand
    rw [if_neg hne, hstand]

/-- Adding a piece that is no second king of its colour keeps the kings single. -/
theorem SingleKings.add (hb : b.SingleKings) (hfull : b.Full) (h : b.add piece = .ok b')
    (hking : (piece.isKing && b.hasKing piece.colour) = false) : b'.SingleKings := by
  obtain ⟨-, -, -, hpiece⟩ := add_view h
  have hother : ∀ i q, b.piece? i = some q → q.isKing → q.colour = piece.colour →
      piece.isKing = false := by
    intro i q hq hk hcolour
    have hmem : q ∈ b.pieces := by
      refine List.mem_filterMap.2 ⟨i, ?_, hq⟩
      exact Plane.mem_values.2 ⟨q.point, hfull i q hq⟩
    have hhas : b.hasKing piece.colour := by
      rw [hasKing, List.any_eq_true]
      exact ⟨q, hmem, by simp [hk, hcolour]⟩
    rw [hhas, Bool.and_true] at hking
    exact hking
  intro i j q r hq hr hqk hrk hcolour
  rw [hpiece] at hq hr
  split at hq <;> split at hr
  · next hi hj => rw [hi, hj]
  · obtain rfl := Option.some.inj hq
    rw [hother j r hr hrk hcolour.symm] at hqk
    cases hqk
  · obtain rfl := Option.some.inj hr
    rw [hother i q hq hqk hcolour] at hrk
    cases hrk
  · exact hb i j q r hq hr hqk hrk hcolour

/-- A token that is accepted encodes a piece that is added and is no second king of its colour. -/
theorem addToken_eq_ok {set : PieceSet} {token : List Char}
    (h : addToken set b token = .ok b') : ∃ piece, set.readPiece token = .ok piece ∧
      b.add piece = .ok b' ∧ (piece.isKing && b.hasKing piece.colour) = false := by
  rw [addToken] at h
  split at h
  · cases h
  · split at h
    · cases h
    · next piece hpiece =>
      split at h
      · cases h
      · cases h
      · next board hadd =>
        split at h
        · cases h
        · next hking =>
          obtain rfl := Except.ok.inj h
          exact ⟨piece, hpiece, hadd, Bool.eq_false_iff.2 hking⟩

/-- A board that is read from a layout has what the board without pieces has and adding an encoded
piece keeps. -/
theorem of_read_of_add {P : Board → Prop} {set : PieceSet} {bounds : Bounds} {layout : List Char}
    {turn : Colour} (hempty : P (empty bounds))
    (hadd : ∀ {b b' token piece}, P b → set.readPiece token = .ok piece → b.add piece = .ok b' →
      (piece.isKing && b.hasKing piece.colour) = false → P b')
    (h : Board.read set bounds layout = .ok (b, turn)) : P b := by
  obtain ⟨⟨turn', tokens⟩, -, hrest⟩ := bind_eq_ok_iff.1 h
  obtain ⟨board, hfold, hanswer⟩ := bind_eq_ok_iff.1 hrest
  obtain ⟨rfl, rfl⟩ := Prod.mk.inj (Except.ok.inj hanswer)
  clear h hrest hanswer
  generalize empty bounds = start at hempty hfold
  induction tokens generalizing start with
  | nil =>
    obtain rfl := Except.ok.inj hfold
    exact hempty
  | cons token rest ih =>
    rw [List.foldlM_cons] at hfold
    obtain ⟨next, htoken, hrest⟩ := bind_eq_ok_iff.1 hfold
    obtain ⟨piece, hpiece, hplace, hking⟩ := addToken_eq_ok htoken
    exact ih next (hadd hempty hpiece hplace hking) hrest

/-- The board without pieces has an empty roster. -/
theorem piece?_empty (bounds : Bounds) (id : PieceId) : (empty bounds).piece? id = none := by
  rw [piece?, empty]
  exact Array.getElem?_empty

/-- A board that is read from a layout is sound, has all of its pieces standing on it and holds at
most one king of each colour. -/
theorem of_read {set : PieceSet} {bounds : Bounds} {layout : List Char} {turn : Colour}
    (h : Board.read set bounds layout = .ok (b, turn)) : b.Sound ∧ b.Full ∧ b.SingleKings := by
  refine of_read_of_add (P := fun b => b.Sound ∧ b.Full ∧ b.SingleKings) ⟨sound_empty bounds,
    fun i q hq => ?_, fun i j q r hq => ?_⟩ ?_ h
  · rw [piece?_empty] at hq
    cases hq
  · rw [piece?_empty] at hq
    cases hq
  · intro b b' token piece hb _ hadd hking
    exact ⟨hb.1.add hadd, hb.2.1.add hadd, hb.2.2.add hb.2.1 hadd hking⟩

/-- A board that is read from a layout has the given bounds. -/
theorem bounds_of_read {set : PieceSet} {bounds : Bounds} {layout : List Char} {b : Board}
    {turn : Colour} (h : Board.read set bounds layout = .ok (b, turn)) : b.bounds = bounds := by
  refine of_read_of_add (P := fun b => b.bounds = bounds) rfl ?_ h
  intro b b' token piece hb _ hadd _
  exact (add_view hadd).2.1.trans hb

/-- The pieces of a board that is read from a layout are of kinds that the piece set knows. -/
theorem knows_of_read {set : PieceSet} {bounds : Bounds} {layout : List Char} {turn : Colour}
    (h : Board.read set bounds layout = .ok (b, turn)) {q : Piece} (hq : b.piece? id = some q) :
    set.knows q.kind := by
  refine of_read_of_add (P := fun b => ∀ id q, b.piece? id = some q → set.knows q.kind) ?_ ?_ h
    id q hq
  · intro i q hq
    rw [piece?_empty] at hq
    cases hq
  · intro b b' token piece hb hread hadd _ i q hq
    obtain ⟨-, -, -, hpiece⟩ := add_view hadd
    rw [hpiece] at hq
    split at hq
    · obtain rfl := Option.some.inj hq
      obtain ⟨read, -, hknown⟩ := bind_eq_ok_iff.1 hread
      split at hknown
      · next hknows =>
        obtain rfl := Except.ok.inj hknown
        exact hknows
      · cases hknown
    · exact hb i q hq

/-- A new piece comes after the others in the roster. -/
theorem roster_of_add (h : b.add piece = .ok b') :
    b'.roster.toList = b.roster.toList ++ [piece] := by
  obtain ⟨-, -, -, hpiece⟩ := add_view h
  have hpush : b'.roster = b.roster.push piece := by
    refine Array.ext_getElem? fun n => ?_
    have hn := hpiece ⟨n⟩
    rw [piece?, piece?] at hn
    rw [hn, Array.getElem?_push]
    simp only [PieceId.mk.injEq]
  rw [hpush, Array.toList_push]

/-- The roster of a board that is read from a layout holds the pieces that the tokens encode. -/
theorem roster_of_read {set : PieceSet} {bounds : Bounds} {layout : List Char} {turn : Colour}
    (h : Board.read set bounds layout = .ok (b, turn)) : ∃ tokens,
      readTurn (Text.words layout) = .ok (turn, tokens) ∧
        tokens.mapM set.readPiece = .ok b.roster.toList := by
  obtain ⟨⟨turn', tokens⟩, hturn, hrest⟩ := bind_eq_ok_iff.1 h
  obtain ⟨board, hfold, hanswer⟩ := bind_eq_ok_iff.1 hrest
  obtain ⟨rfl, rfl⟩ := Prod.mk.inj (Except.ok.inj hanswer)
  refine ⟨tokens, hturn, ?_⟩
  have hroster : ∃ pieces, tokens.mapM set.readPiece = .ok pieces ∧
      board.roster.toList = (empty bounds).roster.toList ++ pieces := by
    clear h hrest hanswer hturn
    generalize empty bounds = start at hfold
    induction tokens generalizing start with
    | nil =>
      obtain rfl := Except.ok.inj hfold
      exact ⟨[], rfl, (List.append_nil _).symm⟩
    | cons token rest ih =>
      rw [List.foldlM_cons] at hfold
      obtain ⟨next, htoken, hrest⟩ := bind_eq_ok_iff.1 hfold
      obtain ⟨piece, hpiece, hadd, -⟩ := addToken_eq_ok htoken
      obtain ⟨pieces, hpieces, hboard⟩ := ih next hrest
      refine ⟨piece :: pieces, ?_, ?_⟩
      · rw [List.mapM_cons, hpiece, hpieces]
        rfl
      · rw [hboard, roster_of_add hadd, List.append_assoc, List.singleton_append]
  obtain ⟨pieces, hpieces, hboard⟩ := hroster
  rw [hpieces, hboard]
  rfl

end Board

namespace Game

variable {set : PieceSet} {config : GameConfig} {layout : List Char} {board : Board}
  {turn : Colour} {g₀ : Game}

/-- All games with a regular piece set have regular pieces. -/
theorem regular_of_pieceSet {g : Game} (hset : g.pieceSet.Regular) : g.Regular := by
  intro id m hm
  rw [movementsOf] at hm
  cases hq : g.board.piece? id with
  | none => simp [hq] at hm
  | some q =>
    rw [hq] at hm
    exact hset q.kind m hm

/-- A game that is set up has computed its threat maps. -/
theorem setUp_eq (set : PieceSet) (config : GameConfig) (board : Board) (turn : Colour) :
    ∃ threats, setUp set config board turn =
      { board, pieceSet := set, log := .empty, threats,
        kings := ⟨findKing board .white, findKing board .black⟩, turn, status := .pending,
        initial := .pending, config } :=
  ⟨_, refresh_eq _ _⟩

@[simp] theorem board_setUp : (setUp set config board turn).board = board := by
  obtain ⟨threats, hframe⟩ := setUp_eq set config board turn
  rw [hframe]

@[simp] theorem turn_setUp : (setUp set config board turn).turn = turn := by
  obtain ⟨threats, hframe⟩ := setUp_eq set config board turn
  rw [hframe]

/-- A game that is set up on a sound board with regular pieces is kept. -/
theorem kept_setUp (hb : board.Sound) (hreg : (setUp set config board turn).Regular) :
    (setUp set config board turn).Kept := by
  refine ⟨?_, hreg, fresh_rebuild _⟩
  rw [board_setUp]
  exact hb

/-- A started game is the one that is set up on the board of its layout, with the verdict on it as
its status; a position in which play can go on is pending. -/
theorem start_eq_ok (h : start set layout config = .ok g₀) :
    ∃ board turn, Board.read set config.bounds layout = .ok (board, turn) ∧
      ((setUp set config board turn).Regular → ∃ status,
        g₀ = { setUp set config board turn with status, initial := status } ∧
        status = if (setUp set config board turn).judged turn.other = .ongoing then .pending
          else (setUp set config board turn).judged turn.other) := by
  rw [start] at h
  split at h
  · cases h
  · next board turn hread =>
    refine ⟨board, turn, hread, fun hreg => ?_⟩
    split at h
    · cases h
    · next verdict g hverdict =>
      have hk := kept_setUp (Board.of_read hread).1 hreg
      obtain ⟨rfl, rfl⟩ := hk.verdict_eq_ok hverdict
      obtain rfl := Except.ok.inj h
      exact ⟨_, rfl, rfl⟩

/-- A game that is started with regular pieces is an opening. -/
theorem opening_of_start (h : start set layout config = .ok g₀) {board : Board} {turn : Colour}
    (hread : Board.read set config.bounds layout = .ok (board, turn))
    (hreg : (setUp set config board turn).Regular) : g₀.Opening := by
  obtain ⟨board', turn', hread', hrest⟩ := start_eq_ok h
  obtain ⟨rfl, rfl⟩ := Prod.mk.inj (Except.ok.inj (hread.symm.trans hread'))
  obtain ⟨status, rfl, -⟩ := hrest hreg
  have hk := kept_setUp (Board.of_read hread).1 hreg
  refine ⟨hk.of_same rfl rfl rfl rfl, ?_, rfl⟩
  obtain ⟨threats, hframe⟩ := setUp_eq set config board turn
  exact congrArg Game.log hframe

/-- A game that is set up with a regular piece set has regular pieces. -/
theorem regular_setUp_of_pieceSet (hset : set.Regular) (config : GameConfig) (board : Board)
    (turn : Colour) : (setUp set config board turn).Regular := by
  apply regular_of_pieceSet
  obtain ⟨threats, hframe⟩ := setUp_eq set config board turn
  rw [hframe]
  exact hset

/-- A game that is started with a regular piece set is an opening. -/
theorem opening_of_regular (hset : set.Regular) (h : start set layout config = .ok g₀) :
    g₀.Opening := by
  obtain ⟨board, turn, hread, -⟩ := start_eq_ok h
  exact opening_of_start h hread (regular_setUp_of_pieceSet hset config board turn)

/-- A game is started with the given piece set, on the board of its layout. -/
theorem of_start (hset : set.Regular) (h : start set layout config = .ok g₀) :
    g₀.pieceSet = set ∧ ∃ turn, Board.read set config.bounds layout = .ok (g₀.board, turn) ∧
      g₀.kings = ⟨findKing g₀.board .white, findKing g₀.board .black⟩ := by
  obtain ⟨board, turn, hread, hrest⟩ := start_eq_ok h
  obtain ⟨status, rfl, -⟩ := hrest (regular_setUp_of_pieceSet hset config board turn)
  obtain ⟨threats, hframe⟩ := setUp_eq set config board turn
  rw [hframe]
  exact ⟨rfl, turn, hread, rfl⟩

end Game

end VariantChess
