import VariantChess.Proofs.Chronicle
import VariantChess.Proofs.PlainGame

/-!
# The table of kings

A game looks its kings up once, on the board of its layout, and every check and mate is judged by
this table. Play does not change it, but a promotion may make another king and a king may be taken
or removed. The table is right as long as neither has happened, whatever the pieces; once it has,
the table names a king that is gone or misses one that stands.
-/

namespace VariantChess

namespace Ply

/-- Whether a ply makes a king of a piece. -/
def crowns (p : Ply) (id : PieceId) : Bool :=
  p.piece = id &&
    match p.effect with
    | some (.promote _ target) => target = .standard .king
    | _ => false

/-- Whether a ply turns a king into something else, or into a king again. -/
def deposes (p : Ply) : Bool :=
  match p.effect with
  | some (.promote source _) => source = .standard .king
  | _ => false

variable {p : Ply} {b b' : Board} {i : PieceId}

/-- A step gives the kind of a promotion to its mover and leaves the other kinds alone. -/
theorem Step.kind_map_eq (h : p.Step b b') (i : PieceId) :
    (b'.piece? i).map (·.kind) = (b.piece? i).map fun q =>
      match p.effect with
      | some (.promote _ target) => if p.piece = i then target else q.kind
      | _ => q.kind := by
  obtain ⟨q, b₁, b₂, hq, -, -, -, -, -, hpiece, -, heffect⟩ := h.legs
  have harrived : ((b₂.revise p.piece ({ · with moved := true })).piece? i).map (·.kind) =
      (b.piece? i).map (·.kind) := by
    rw [hpiece]
    split
    · next hi =>
      rw [hi, hq]
      rfl
    · rfl
  generalize b₂.revise p.piece ({ · with moved := true }) = b₃ at harrived heffect
  rw [playEffect] at heffect
  split at heffect
  · next he =>
    obtain rfl := Except.ok.inj heffect
    simpa [he] using harrived
  · next id source target first he =>
    obtain ⟨b₄, hmove, rfl⟩ := map_eq_ok_iff.1 heffect
    obtain ⟨q₃, hq₃, -, -, -, -, -, hpiece₄⟩ := Board.move_view hmove
    rw [Board.piece?_revise, hpiece₄]
    by_cases hi : i = id
    · subst hi
      simpa [he, hq₃] using harrived
    · simpa [he, hi] using harrived
  · next id place he =>
    obtain ⟨-, -, -, -, -, hpiece₄⟩ := Board.lift_view heffect
    simpa [he, hpiece₄] using harrived
  · next source target he =>
    obtain rfl := Except.ok.inj heffect
    rw [Board.piece?_revise]
    by_cases hi : i = p.piece
    · subst hi
      rw [hq, Option.map_some, Option.map_eq_some_iff] at harrived
      obtain ⟨q₃, hq₃, -⟩ := harrived
      simp [he, hq, hq₃]
    · simpa [he, hi, Ne.symm hi] using harrived

/-- A mover that is promoted without being deposed is no king before the step. -/
theorem Records.not_isKing (h : p.Records b) (hdeposes : p.deposes = false) {source target : Kind}
    (he : p.effect = some (.promote source target)) :
    (b.piece? p.piece).any Piece.isKing = false := by
  have heffect := h.effect
  rw [RecordsEffect, he] at heffect
  obtain ⟨q, hq, hkind⟩ := heffect
  rw [deposes, he, decide_eq_false_iff_not, ← hkind] at hdeposes
  rw [hq, Option.any_some]
  exact decide_eq_false hdeposes

/-- A step that deposes no king leaves the kings what they are and adds the one that it crowns. -/
theorem Step.isKing_eq (h : p.Step b b') (hdeposes : p.deposes = false) (i : PieceId) :
    (b'.piece? i).any Piece.isKing = ((b.piece? i).any Piece.isKing || p.crowns i) := by
  have hany : ∀ o : Option Piece,
      o.any Piece.isKing = (o.map (·.kind)).any fun kind => kind = .standard .king := by
    intro o
    cases o <;> rfl
  rw [hany (b'.piece? i), h.kind_map_eq i]
  cases he : p.effect with
  | none => simp [crowns, he, hany (b.piece? i)]
  | some e =>
    cases e with
    | promote source target =>
      by_cases hi : p.piece = i
      · subst hi
        obtain ⟨q, hq, -⟩ := h.records.mover
        have hking := h.records.not_isKing hdeposes he
        rw [hq, Option.any_some] at hking
        simp [crowns, he, hq, hking]
      · simp [crowns, he, hi, hany (b.piece? i)]
    | relocate | remove => simp [crowns, he, hany (b.piece? i)]

/-- A step that deposes no king crowns no king either. -/
theorem Step.crowns_eq_false (h : p.Step b b') (hdeposes : p.deposes = false)
    (hking : (b.piece? i).any Piece.isKing) : p.crowns i = false := by
  rw [Bool.eq_false_iff]
  intro hcrowns
  rw [crowns, Bool.and_eq_true, decide_eq_true_eq] at hcrowns
  obtain ⟨rfl, hpromotes⟩ := hcrowns
  split at hpromotes
  · next source target he =>
    rw [h.records.not_isKing hdeposes he] at hking
    cases hking
  · cases hpromotes

/-- A planned ply does not promote a king: the movements of a king do not promote. -/
theorem deposes_of_plan? {g : Game} {id : PieceId} {target : Point}
    (hplan : g.plan? id target = some p) : p.deposes = false := by
  rw [deposes]
  split
  · next source kind he =>
    rw [decide_eq_false_iff_not]
    rintro rfl
    obtain ⟨owner, s, m, howner, hs, hm, -, -, rfl⟩ := Game.exists_of_plan? hplan
    obtain ⟨f, hf, hside⟩ : ∃ f, m.followUp = some f ∧
        g.sideEffect? s target f = some (.promote (.standard .king) kind) :=
      Option.bind_eq_some_iff.1 he
    obtain rfl := Game.eq_of_situation? hs howner
    obtain ⟨n, q, rfl, -, hq, hking⟩ := Game.followUp_of_sideEffect? hside
    obtain rfl := Option.some.inj (hq.symm.trans howner)
    rw [Game.movementsOf_eq_of_piece? hq, hking] at hm
    rcases Chessman.followUp_cases (c := .king) hm with hnone | ⟨-, rfl | rfl⟩ | ⟨hpawn, -⟩
    · rw [hnone] at hf
      cases hf
    · cases hf
    · cases hf
    · cases hpawn
  · rfl

end Ply

namespace Board

variable {b₀ b : Board} {c : Colour} {id : PieceId} {log : List Ply}
  {kings : Sides (Option PieceId)}

/-- The piece is a king of the colour, on the board or taken off it. -/
def KingOf (b : Board) (c : Colour) (id : PieceId) : Prop :=
  ∃ q, b.piece? id = some q ∧ q.isKing ∧ q.colour = c

/-- The table names the kings that stand on the board and nothing else. -/
def Enthrones (b : Board) (kings : Sides (Option PieceId)) : Prop :=
  ∀ c id, kings.get c = some id ↔ b.has id ∧ b.KingOf c id

/-- A king is a piece of its colour that is a king. -/
theorem kingOf_iff : b.KingOf c id ↔ b.owns c id ∧ (b.piece? id).any Piece.isKing := by
  rw [KingOf, owns]
  cases b.piece? id <;> simp [and_comm]

namespace Played

/-- Whoever is a king was one at first or has been crowned by some ply. -/
theorem isKing_eq (h : b₀.Played log b) (hdeposes : ∀ p ∈ log, p.deposes = false) (id : PieceId) :
    (b.piece? id).any Piece.isKing =
      ((b₀.piece? id).any Piece.isKing || log.any (·.crowns id)) := by
  induction h with
  | start => simp
  | next hprev hstep ih =>
    obtain ⟨hlast, hearlier⟩ := List.forall_mem_cons.1 hdeposes
    rw [hstep.isKing_eq hlast, ih hearlier, List.any_cons, Bool.or_assoc,
      Bool.or_comm (List.any ..)]

/-- The kings of a colour are those of the first board and its pieces that some ply has crowned. -/
theorem kingOf_iff (h : b₀.Played log b) (hdeposes : ∀ p ∈ log, p.deposes = false) :
    b.KingOf c id ↔ b₀.KingOf c id ∨ b₀.owns c id ∧ ∃ p ∈ log, p.crowns id := by
  rw [Board.kingOf_iff, Board.kingOf_iff, owns_eq_of_colour (h.colour_eq id),
    h.isKing_eq hdeposes, Bool.or_eq_true, List.any_eq_true, and_or_left]

/-- No ply crowns a king of the first board. -/
theorem crowns_eq_false (h : b₀.Played log b) (hdeposes : ∀ p ∈ log, p.deposes = false)
    (hking : b₀.KingOf c id) : ∀ p ∈ log, p.crowns id = false := by
  induction h with
  | start => exact fun p hp => absurd hp List.not_mem_nil
  | next hprev hstep ih =>
    obtain ⟨hlast, hearlier⟩ := List.forall_mem_cons.1 hdeposes
    refine List.forall_mem_cons.2 ⟨hstep.crowns_eq_false hlast ?_, ih hearlier⟩
    exact (Board.kingOf_iff.1 ((hprev.kingOf_iff hearlier).2 (.inl hking))).2

/-- If all pieces stood on the first board, the pieces that no ply takes still stand. -/
theorem has_iff (h : b₀.Played log b) (h₀ : b₀.Sound) (hfull : b₀.Full) {q : Piece}
    (hq : b₀.piece? id = some q) : b.has id ↔ ∀ p ∈ log, p.takes id = false := by
  have hcount := h.countP_takes h₀ hfull hq
  constructor
  · intro hhas p hp
    rw [if_pos hhas, List.countP_eq_zero] at hcount
    exact Bool.eq_false_iff.2 (hcount p hp)
  · intro htakes
    rw [List.countP_eq_zero.2 fun p hp => Bool.eq_false_iff.1 (htakes p hp)] at hcount
    by_contra hhas
    rw [if_neg hhas] at hcount
    cases hcount

/-- A table that names the kings of the first board is right exactly if no ply takes one of them and
the pieces that plies crown are off the board. -/
theorem enthrones_iff (h : b₀.Played log b) (hdeposes : ∀ p ∈ log, p.deposes = false)
    (h₀ : b₀.Sound) (hfull : b₀.Full) (hkings : ∀ c id, kings.get c = some id ↔ b₀.KingOf c id) :
    b.Enthrones kings ↔ ∀ p ∈ log, (∀ c id, kings.get c = some id → p.takes id = false) ∧
      ∀ id, p.crowns id → b.has id = false := by
  constructor
  · intro hall p hp
    refine ⟨fun c id hc => ?_, fun id hcrowns => Bool.eq_false_iff.2 fun hhas => ?_⟩
    · obtain ⟨q, hq, -, -⟩ := (hkings c id).1 hc
      exact (h.has_iff h₀ hfull hq).1 ((hall c id).1 hc).1 p hp
    · -- the table names whoever is crowned and stands, but no ply crowns a king of the first board
      obtain ⟨q, hq, -⟩ := Board.has_iff.1 hhas
      have howns : b₀.owns q.colour id := by
        rw [← owns_eq_of_colour (h.colour_eq id)]
        exact owns_iff.2 ⟨q, hq, rfl⟩
      have hking : b.KingOf q.colour id := (h.kingOf_iff hdeposes).2 (.inr ⟨howns, p, hp, hcrowns⟩)
      have hfirst := (hkings _ id).1 ((hall _ id).2 ⟨hhas, hking⟩)
      rw [h.crowns_eq_false hdeposes hfirst p hp] at hcrowns
      cases hcrowns
  · intro hquiet c id
    rw [hkings]
    constructor
    · intro hking
      have hrecord := hking
      obtain ⟨q, hq, -, -⟩ := hrecord
      refine ⟨(h.has_iff h₀ hfull hq).2 fun p hp => ?_, (h.kingOf_iff hdeposes).2 (.inl hking)⟩
      exact (hquiet p hp).1 c _ ((hkings c _).2 hking)
    · rintro ⟨hhas, hking⟩
      rcases (h.kingOf_iff hdeposes).1 hking with hfirst | ⟨-, p, hp, hcrowns⟩
      · exact hfirst
      · rw [(hquiet p hp).2 id hcrowns] at hhas
        cases hhas

end Played

end Board

namespace Game

variable {g : Game} {c : Colour}

/-- No committed ply has taken a king of the table, and whoever committed plies have crowned is off
the board. -/
def KingsUndisturbed (g : Game) : Prop :=
  ∀ e ∈ g.log.committed, (∀ c id, g.kings.get c = some id → e.ply.takes id = false) ∧
    ∀ id, e.ply.crowns id → g.board.has id = false

/-- If the table is right, a colour's king is recorded where one stands. -/
theorem king?_eq_some_iff_of_enthrones (hb : g.board.Sound) (h : g.board.Enthrones g.kings)
    {p : Point} :
    g.king? c = some p ↔ ∃ q, g.board.pieceAt? p = some q ∧ q.isKing ∧ q.colour = c := by
  simp only [king?, Board.pieceAt?, Option.map_eq_some_iff, Option.bind_eq_some_iff]
  constructor
  · rintro ⟨q, ⟨id, hking, hq⟩, rfl⟩
    obtain ⟨hhas, r, hr, hisKing, hcolour⟩ := (h c id).1 hking
    obtain rfl := Option.some.inj (hr.symm.trans hq)
    obtain ⟨r', hr', hon⟩ := Board.has_iff.1 hhas
    obtain rfl := Option.some.inj (hr'.symm.trans hq)
    exact ⟨r', ⟨id, hon, hq⟩, hisKing, hcolour⟩
  · rintro ⟨q, ⟨id, hon, hq⟩, hisKing, hcolour⟩
    have hpoint : q.point = p := hb.point_eq hon hq
    refine ⟨q, ⟨id, (h c id).2 ⟨?_, q, hq, hisKing, hcolour⟩, hq⟩, hpoint⟩
    exact Board.has_iff.2 ⟨q, hq, hpoint ▸ hon⟩

variable {set : PieceSet} {layout : List Char} {config : GameConfig} {ops : List Operation}
  {g₀ : Game}

/-- In every game of a run, from any layout and with any piece set, the table of kings names the
kings on the board and nothing else exactly as long as no committed ply has taken one of them and
nobody whom a ply has crowned is on the board. Then there is at most one king of each colour, and a king is
recorded on a point if and only if one stands there. -/
theorem kings_of_run (hstart : start set layout config = .ok g₀) (hrun : g₀.run ops = .ok g) :
    (g.board.Enthrones g.kings ↔ g.KingsUndisturbed) ∧ (g.KingsUndisturbed →
      (∀ p q r s, g.board.pieceAt? p = some q → g.board.pieceAt? r = some s → q.isKing → s.isKing →
        q.colour = s.colour → p = r) ∧
      ∀ c p, g.king? c = some p ↔ ∃ q, g.board.pieceAt? p = some q ∧ q.isKing ∧ q.colour = c) := by
  obtain ⟨board, first, hread, -, -, hkings, hg⟩ := chronicled_of_run hstart hrun
  obtain ⟨hsound, hfull, hsingle⟩ := Board.of_read hread
  have hnamed : ∀ c id, g.kings.get c = some id ↔ board.KingOf c id := by
    intro c id
    rw [hg.settings.kings, hkings, get_findKing, findKing_eq_some_iff hsound hfull hsingle,
      Board.KingOf]
  have hdeposes : ∀ p ∈ g.log.committed.map (·.ply), p.deposes = false := by
    intro p hp
    obtain ⟨e, he, rfl⟩ := List.mem_map.1 hp
    obtain ⟨_, _, _, hplan⟩ := hg.turns.exists_earlier.planned he
    exact Ply.deposes_of_plan? hplan
  have hiff : g.board.Enthrones g.kings ↔ g.KingsUndisturbed := by
    rw [hg.played.enthrones_iff hdeposes hsound hfull hnamed, List.forall_mem_map]
    rfl
  refine ⟨hiff, fun hquiet => ?_⟩
  have hking : ∀ c p, g.king? c = some p ↔
      ∃ q, g.board.pieceAt? p = some q ∧ q.isKing ∧ q.colour = c := fun c p =>
    king?_eq_some_iff_of_enthrones (hg.played.sound hsound) (hiff.2 hquiet)
  refine ⟨fun p q r s hp hr hq hs hcolour => ?_, hking⟩
  have hfirst := (hking s.colour p).2 ⟨q, hp, hq, hcolour⟩
  exact Option.some.inj (hfirst.symm.trans ((hking s.colour r).2 ⟨s, hr, hs, rfl⟩))

/-- A rook takes a pawn; the kings stand where the table says. -/
theorem kings_of_run_small : ∃ g₀ g,
    start .orthodox "w wKa1 wRb1 bPb3 bKc3".toList smallConfig = .ok g₀ ∧
      g₀.run [.update ⟨.white, .ofCoords 1 0, .ofCoords 1 2⟩] = .ok g ∧
      g.log.length = 1 ∧ g.board.has ⟨2⟩ = false ∧ g.board.Enthrones g.kings ∧
      ∀ c p, g.king? c = some p ↔ ∃ q, g.board.pieceAt? p = some q ∧ q.isKing ∧ q.colour = c := by
  obtain ⟨g₀, g, hstart, hrun, htest⟩ :=
    exists_run_passing .orthodox "w wKa1 wRb1 bPb3 bKc3".toList smallConfig
      [.update ⟨.white, .ofCoords 1 0, .ofCoords 1 2⟩]
      (fun _ g => g.log.length = 1 && !g.board.has ⟨2⟩ && g.kings = ⟨some ⟨0⟩, some ⟨3⟩⟩ &&
        g.log.committed.all fun e => e.ply.captured = some ⟨2⟩ && e.ply.effect = none)
      (by decide +kernel)
  simp only [Bool.and_eq_true, decide_eq_true_eq, Bool.not_eq_true', List.all_eq_true] at htest
  obtain ⟨⟨⟨hlength, hgone⟩, hkings⟩, hplies⟩ := htest
  have hquiet : g.KingsUndisturbed := by
    intro e he
    obtain ⟨hcaptured, heffect⟩ := hplies e he
    refine ⟨fun c id hc => ?_, fun id hcrowns => ?_⟩
    · rw [hkings] at hc
      rw [Ply.takes, hcaptured, heffect]
      cases c <;> cases hc <;> decide
    · rw [Ply.crowns, heffect, Bool.and_false] at hcrowns
      cases hcrowns
  obtain ⟨hiff, hright⟩ := kings_of_run hstart hrun
  exact ⟨g₀, g, hstart, hrun, hlength, hgone, hiff.2 hquiet, (hright hquiet).2⟩

/-- A piece that becomes a king as soon as it steps ahead. -/
def heir : CustomPiece where
  value := 3
  movements := [(Movement.jump (.ofPoints [⟨0, 1⟩])).followedBy (.promote .king)]

/-- The chessmen and the heir. -/
def heirSet : PieceSet := ⟨.insert .empty "heir" heir⟩

/-- White has an heir and no king, and black is not in check. The heir steps ahead and stands as a
white king, but the game knows of no white king. -/
theorem kings_of_run_heir : ∃ g₀ g q,
    PieceSet.orthodox.register "heir" heir = .ok heirSet ∧
      start heirSet "w w~heir~a1 wPc1 bKc3".toList smallConfig = .ok g₀ ∧ g₀.turn = .white ∧
      g₀.inCheck .black = false ∧
      g₀.run [.update ⟨.white, .ofCoords 0 0, .ofCoords 0 1⟩] = .ok g ∧
      g.board.pieceAt? (.ofCoords 0 1) = some q ∧ q.isKing ∧ q.colour = .white ∧
      g.king? .white = none := by
  have hregister : PieceSet.orthodox.register "heir" heir = .ok heirSet := by decide +kernel
  obtain ⟨g₀, g, hstart, hrun, htest⟩ :=
    exists_run_passing heirSet "w w~heir~a1 wPc1 bKc3".toList smallConfig
      [.update ⟨.white, .ofCoords 0 0, .ofCoords 0 1⟩]
      (fun g₀ g => g₀.turn = .white && !g₀.inCheck .black && g.king? .white = none &&
        (g.board.pieceAt? (.ofCoords 0 1)).any fun q => q.isKing && q.colour = .white)
      (by decide +kernel)
  simp only [Bool.and_eq_true, decide_eq_true_eq, Bool.not_eq_true', Option.any_eq_true] at htest
  obtain ⟨⟨⟨hturn, hcalm⟩, hnone⟩, q, hq, hking, hcolour⟩ := htest
  exact ⟨g₀, g, q, hregister, hstart, hturn, hcalm, hrun, hq, hking, hcolour, hnone⟩

end Game

end VariantChess
