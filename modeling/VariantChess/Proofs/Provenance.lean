import VariantChess.Proofs.Opening

/-!
# What a list of plies tells of a board

Take the plies that lead from one board to another, latest first. They determine the other board.
None of them adds a piece to the roster or drops one from it, or changes a colour. A piece is taken
only while it stands on the board, and once it is taken no ply puts it back; so if all pieces stood
on the first board, the missing ones are those that some ply takes, and only one ply takes each of
them. The mark of a piece that has moved is set by the plies that move it and cleared by none.
-/

namespace VariantChess

namespace Ply

/-- Whether a ply takes a piece off the board, on its target or by its side effect. -/
def takes (p : Ply) (id : PieceId) : Bool :=
  p.captured = some id ||
    match p.effect with
    | some (.remove i _) => i = id
    | _ => false

/-- Whether a ply moves a piece, as its mover or by its side effect. -/
def displaces (p : Ply) (id : PieceId) : Bool :=
  p.piece = id ||
    match p.effect with
    | some (.relocate i ..) => i = id
    | _ => false

end Ply

namespace Board

variable {b b' : Board} {id : PieceId}

/-- A board has a piece that can be lifted, and has every other piece after that. -/
theorem Sound.has_lift (hb : b.Sound) (h : b.lift id = .ok b') (i : PieceId) :
    b'.has i = (b.has i && i ≠ id) ∧ b.has id := by
  obtain ⟨q, hq, hon, -⟩ := lift_view h
  refine ⟨?_, Board.has_iff.2 ⟨q, hq, hon⟩⟩
  by_cases hi : i = id
  · subst hi
    have hgone : ¬b'.has i := fun hhas => by
      obtain ⟨p, hp⟩ := Sound.has_iff (hb.lift h) |>.1 hhas
      exact hb.not_on?_of_lift h p hp
    simpa using hgone
  · have hout : i ∉ [id] := by simpa using hi
    simpa [hi] using (AgreeOff.of_lift hq h).has_eq hout

/-- Moving a piece leaves all pieces on the board. -/
theorem has_of_move {p : Point} (h : b.move id p = .ok b') (i : PieceId) : b'.has i = b.has i := by
  obtain ⟨q, hq, hstand, -, -, -, hon, hpiece⟩ := move_view h
  by_cases hi : i = id
  · subst hi
    have hbefore : b.has i := has_iff.2 ⟨q, hq, hstand⟩
    have hafter : b'.has i := has_iff.2 ⟨_, by rw [hpiece, if_pos rfl], by rw [hon, if_pos rfl]⟩
    rw [hbefore, hafter]
  · exact (AgreeOff.of_move hq h).has_eq (by simpa using hi)

/-- Revising what a record says apart from the point leaves all pieces on the board. -/
theorem has_revise (b : Board) (id : PieceId) {f : Piece → Piece}
    (hf : ∀ q, (f q).point = q.point) (i : PieceId) : (b.revise id f).has i = b.has i := by
  rw [Bool.eq_iff_iff, has_iff, has_iff, piece?_revise]
  split
  · simp only [Option.map_eq_some_iff, on?_revise]
    constructor
    · rintro ⟨_, ⟨q, hq, rfl⟩, hon⟩
      exact ⟨q, hq, hf q ▸ hon⟩
    · rintro ⟨q, hq, hon⟩
      exact ⟨f q, ⟨q, hq, rfl⟩, (hf q).symm ▸ hon⟩
  · rfl

/-- Rosters with the same colours at the same places are of the same length. -/
theorem roster_map_eq {b b' : Board}
    (h : ∀ id, (b'.piece? id).map (·.colour) = (b.piece? id).map (·.colour)) :
    b'.roster.toList.map (·.colour) = b.roster.toList.map (·.colour) := by
  refine List.ext_getElem? fun n => ?_
  simpa [piece?] using h ⟨n⟩

end Board

namespace Ply

variable {p : Ply} {b b' : Board} {i : PieceId}

/-- A side effect takes the removed piece off the board and leaves the others there. -/
theorem has_playEffect (hb : b.Sound) (h : p.playEffect b = .ok b') (i : PieceId) :
    (∀ place, p.effect = some (.remove i place) → b.has i) ∧
      b'.has i = (b.has i && !match p.effect with
        | some (.remove id _) => decide (id = i)
        | _ => false) := by
  rw [playEffect] at h
  split at h
  · next he =>
    obtain rfl := Except.ok.inj h
    simp [he]
  · next id source target first he =>
    obtain ⟨b₁, hmove, rfl⟩ := map_eq_ok_iff.1 h
    simp [he, Board.has_revise, Board.has_of_move hmove]
  · next id place he =>
    obtain ⟨hhas, hstood⟩ := hb.has_lift h i
    refine ⟨fun _ hi => ?_, ?_⟩
    · rw [he] at hi
      cases hi
      exact hstood
    · simp [he, hhas, eq_comm (a := id)]
  · next source target he =>
    obtain rfl := Except.ok.inj h
    simp [he, Board.has_revise]

namespace Step

/-- A step takes the captured and the removed piece, which stood on the board, and leaves the others
there. -/
theorem has_eq (h : p.Step b b') (hb : b.Sound) (i : PieceId) :
    (p.takes i → b.has i) ∧ b'.has i = (b.has i && !p.takes i) := by
  obtain ⟨q, b₁, b₂, -, -, -, hlift, hmove, -, -, -, heffect⟩ := h.legs
  obtain ⟨hremoved, hafter⟩ := has_playEffect (sound_arrived hb hlift hmove) heffect i
  have hmoved : (b₂.revise p.piece ({ · with moved := true })).has i = b₁.has i :=
    (Board.has_revise b₂ p.piece (f := ({ · with moved := true })) (fun _ => rfl) i).trans
      (Board.has_of_move hmove i)
  rw [hmoved] at hremoved hafter
  have hcaptured : (p.captured = some i → b.has i) ∧
      b₁.has i = (b.has i && !decide (p.captured = some i)) := by
    cases hc : p.captured with
    | none =>
      rw [hc] at hlift
      obtain rfl := Except.ok.inj hlift
      simp
    | some id =>
      rw [hc] at hlift
      obtain ⟨hhas, hstood⟩ := hb.has_lift hlift i
      refine ⟨fun hi => Option.some.inj hi ▸ hstood, ?_⟩
      simp [hhas, eq_comm (a := id)]
  refine ⟨fun htakes => ?_, ?_⟩
  · rw [takes, Bool.or_eq_true, decide_eq_true_eq] at htakes
    rcases htakes with hc | hr
    · exact hcaptured.1 hc
    · split at hr
      · next id place he =>
        obtain rfl := of_decide_eq_true hr
        have hstood := hremoved place he
        rw [hcaptured.2, Bool.and_eq_true] at hstood
        exact hstood.1
      · cases hr
  · rw [hafter, hcaptured.2, takes, Bool.not_or, Bool.and_assoc]

/-- A step marks the pieces that it moves and leaves the marks of the others alone. -/
theorem moved_eq (h : p.Step b b') (i : PieceId) :
    (b'.piece? i).map (·.moved) = (b.piece? i).map fun q => q.moved || p.displaces i := by
  obtain ⟨q, b₁, b₂, hq, -, -, -, -, -, hpiece, -, heffect⟩ := h.legs
  have harrived : ((b₂.revise p.piece ({ · with moved := true })).piece? i).map (·.moved) =
      (b.piece? i).map fun q => q.moved || decide (p.piece = i) := by
    rw [hpiece]
    split
    · next hi =>
      subst hi
      simp [hq]
    · next hi => simp [Ne.symm hi]
  generalize b₂.revise p.piece ({ · with moved := true }) = b₃ at harrived heffect
  have hlast : (b'.piece? i).map (·.moved) = ((b₃.piece? i).map (·.moved)).map fun mark =>
      mark || match p.effect with
        | some (.relocate id ..) => decide (id = i)
        | _ => false := by
    rw [playEffect] at heffect
    split at heffect
    · next he =>
      obtain rfl := Except.ok.inj heffect
      simp [he, Function.comp_def]
    · next id source target first he =>
      obtain ⟨b₄, hmove, rfl⟩ := map_eq_ok_iff.1 heffect
      obtain ⟨q₃, hq₃, -, -, -, -, -, hpiece₄⟩ := Board.move_view hmove
      rw [Board.piece?_revise, hpiece₄]
      by_cases hi : i = id
      · subst hi
        simp [he, hq₃]
      · simp [he, hi, Ne.symm hi, Function.comp_def]
    · next id place he =>
      obtain ⟨-, -, -, -, -, hpiece₄⟩ := Board.lift_view heffect
      simp [he, hpiece₄, Function.comp_def]
    · next source target he =>
      obtain rfl := Except.ok.inj heffect
      rw [Board.piece?_revise]
      split <;> simp [he, Function.comp_def]
  rw [hlast, harrived, Option.map_map]
  simp only [Function.comp_def, displaces, Bool.or_assoc]

end Step

end Ply

namespace Board

/-- The second board is what some plies, the latest first, make of the first. -/
inductive Played (b₀ : Board) : List Ply → Board → Prop
  | start : Played b₀ [] b₀
  | next {log : List Ply} {ply : Ply} {b b' : Board} :
      Played b₀ log b → ply.Step b b' → Played b₀ (ply :: log) b'

namespace Played

variable {b₀ b b' : Board} {log : List Ply} {ply : Ply} {id : PieceId}

/-- Some plies lead to one board only. -/
theorem unique (hb : b₀.Played log b) (hb' : b₀.Played log b') : b = b' := by
  induction hb generalizing b' with
  | start =>
    cases hb'
    rfl
  | next _ hstep ih =>
    cases hb' with
    | next hprev hstep' =>
      obtain rfl := ih hprev
      exact Except.ok.inj (hstep.play.symm.trans hstep'.play)

/-- The last of some plies is a step to the board that they lead to. -/
theorem exists_step (h : b₀.Played (ply :: log) b') : ∃ b, b₀.Played log b ∧ ply.Step b b' := by
  cases h with
  | next hprev hstep => exact ⟨_, hprev, hstep⟩

/-- Earlier plies lead to some board. -/
theorem exists_earlier {later : List Ply} (h : b₀.Played (later ++ log) b) :
    ∃ b', b₀.Played log b' := by
  induction later generalizing b with
  | nil => exact ⟨b, h⟩
  | cons ply later ih =>
    obtain ⟨b₁, hprev, -⟩ := h.exists_step
    exact ih hprev

/-- Plies lead from sound boards to sound boards. -/
theorem sound (h : b₀.Played log b) (h₀ : b₀.Sound) : b.Sound := by
  induction h with
  | start => exact h₀
  | next _ hstep ih => exact hstep.sound ih

/-- Plies leave the bounds alone. -/
theorem bounds_eq (h : b₀.Played log b) : b.bounds = b₀.bounds := by
  induction h with
  | start => rfl
  | next _ hstep ih => exact hstep.agreeOff.bounds.trans ih

/-- Plies leave the places of the roster and the colours of its pieces alone. -/
theorem colour_eq (h : b₀.Played log b) (id : PieceId) :
    (b.piece? id).map (·.colour) = (b₀.piece? id).map (·.colour) := by
  induction h with
  | start => rfl
  | next _ hstep ih => exact (hstep.agreeOff.colour id).trans ih

/-- If all pieces stood on the first board, a piece is missing exactly if some ply took it, and no
piece is taken twice. -/
theorem countP_takes (h : b₀.Played log b) (h₀ : b₀.Sound) (hfull : b₀.Full) {q : Piece}
    (hq : b₀.piece? id = some q) :
    log.countP (·.takes id) = if b.has id then 0 else 1 := by
  induction h with
  | start => rw [if_pos (has_iff.2 ⟨q, hq, hfull id q hq⟩), List.countP_nil]
  | next hprev hstep ih =>
    obtain ⟨hstood, hhas⟩ := hstep.has_eq (hprev.sound h₀) id
    rw [List.countP_cons, ih, hhas]
    -- a piece that is taken was there, so no earlier ply took it
    split <;> cases hp : Ply.takes _ id <;> simp_all

/-- A piece is marked exactly if it was at first or some ply moved it. -/
theorem moved_eq (h : b₀.Played log b) (id : PieceId) :
    (b.piece? id).map (·.moved) = (b₀.piece? id).map fun q => q.moved || log.any (·.displaces id) := by
  induction h with
  | start => simp
  | @next log ply b b' _ hstep ih =>
    have hmark := congrArg (Option.map (· || ply.displaces id)) ih
    rw [Option.map_map, Option.map_map] at hmark
    rw [hstep.moved_eq]
    refine hmark.trans (congrArg (Option.map · _) (funext fun q => ?_))
    rw [Function.comp_apply, List.any_cons, Bool.or_assoc, Bool.or_comm (List.any ..)]

end Played

end Board

end VariantChess
