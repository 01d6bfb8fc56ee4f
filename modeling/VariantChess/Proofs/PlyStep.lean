import VariantChess.Game.Playing
import VariantChess.Proofs.BoardChange

/-!
# Plies as steps between boards

A ply records a board when what it says about the points and marks of its pieces agrees with their
records. `Ply.Step` relates the boards before and after such a ply. A step keeps the board sound,
changes nothing beyond the touched points and the pieces of the ply, and taking it back restores the
board exactly; so a log of plies leads back through the boards that it came from.
-/

namespace VariantChess

namespace Ply

/-- What a ply says about its side effect agrees with the records of a board. -/
def RecordsEffect (p : Ply) (b : Board) : Prop :=
  match p.effect with
  | none => True
  | some (.relocate id source _ first) =>
    id ≠ p.piece ∧ ∃ q, b.piece? id = some q ∧ q.point = source ∧ q.moved = !first
  | some (.remove id place) => id ≠ p.piece ∧ ∃ q, b.piece? id = some q ∧ q.point = place
  | some (.promote source _) => ∃ q, b.piece? p.piece = some q ∧ q.kind = source

/-- What a ply says about its pieces agrees with their records on the board that it is played on,
and it promotes to a chessman if at all. -/
structure Records (p : Ply) (b : Board) : Prop where
  mover : ∃ q, b.piece? p.piece = some q ∧ q.point = p.source ∧ q.moved = !p.first
  captured : ∀ id, p.captured = some id → ∃ q, b.piece? id = some q ∧ q.point = p.target
  effect : p.RecordsEffect b
  promotion : ∀ source target, p.effect = some (.promote source target) → ∃ m, target = .standard m

/-- A ply that records the first board leads to the second. -/
structure Step (p : Ply) (b b' : Board) : Prop where
  records : p.Records b
  play : p.play b = .ok b'

/-- The points that a side effect touches. -/
def effectPoints (p : Ply) : List Point :=
  match p.effect with
  | some (.relocate _ source target _) => [source, target]
  | some (.remove _ place) => [place]
  | _ => []

/-- The pieces that a side effect changes. -/
def effectPieces (p : Ply) : List PieceId :=
  match p.effect with
  | some (.relocate id ..) => [id]
  | some (.remove id _) => [id]
  | some (.promote ..) => [p.piece]
  | none => []

variable {p : Ply} {b b' : Board}

/-- A ply touches its source, its target and the points of its side effect. -/
theorem touched_eq (p : Ply) : p.touched = [p.source, p.target] ++ p.effectPoints := by
  unfold touched effectPoints
  rfl

/-- The pieces of a ply are its mover, the captured piece and those of its side effect. -/
theorem mem_pieces {id : PieceId} :
    id ∈ p.pieces ↔ id = p.piece ∨ p.captured = some id ∨ id ∈ p.effectPieces := by
  rw [pieces, List.mem_append, List.mem_cons, Option.mem_toList]
  unfold effectPieces
  cases p.effect with
  | none => simp
  | some e => cases e <;> simp <;> grind

/-- Playing a ply lifts the captured piece, moves and marks the mover, and carries out the side
effect. -/
theorem play_eq_bind (p : Ply) (b : Board) :
    p.play b = (match p.captured with | some id => b.lift id | none => .ok b) >>= fun b₁ =>
      b₁.move p.piece p.target >>= fun b₂ =>
        p.playEffect (b₂.revise p.piece ({ · with moved := true })) := by
  unfold play
  cases p.captured <;> rfl

/-- A ply can be played when each of its legs can. -/
theorem play_eq_ok_iff : p.play b = .ok b' ↔
    ∃ b₁ b₂, (match p.captured with | some id => b.lift id | none => .ok b) = .ok b₁ ∧
      b₁.move p.piece p.target = .ok b₂ ∧
      p.playEffect (b₂.revise p.piece ({ · with moved := true })) = .ok b' := by
  rw [play_eq_bind, bind_eq_ok_iff]
  refine exists_congr fun b₁ => ?_
  rw [bind_eq_ok_iff, exists_and_left]

/-- Lifting the captured piece concerns it and the target. -/
theorem Records.agreeOff_captured (h : p.Records b) {b₁ : Board}
    (hlift : (match p.captured with | some id => b.lift id | none => .ok b) = .ok b₁) :
    b.AgreeOff b₁ [p.target] p.captured.toList ∧ ∀ i, b₁.piece? i = b.piece? i := by
  cases hc : p.captured with
  | none =>
    simp only [hc, Except.ok.injEq] at hlift
    subst hlift
    exact ⟨(Board.AgreeOff.refl b).mono (List.nil_subset _) (List.nil_subset _), fun _ => rfl⟩
  | some id =>
    simp only [hc] at hlift
    obtain ⟨q, hq, hpoint⟩ := h.captured id hc
    obtain ⟨-, -, -, -, -, hpiece⟩ := Board.lift_view hlift
    rw [← hpoint]
    exact ⟨Board.AgreeOff.of_lift hq hlift, hpiece⟩

/-- The records that a side effect reads are not changed before it is carried out, apart from the
point and the mark of the mover. -/
theorem RecordsEffect.arrived (h : p.RecordsEffect b) {b₃ : Board} {q : Piece}
    (hq : b.piece? p.piece = some q)
    (hpiece : ∀ i, b₃.piece? i =
      if i = p.piece then some { q with point := p.target, moved := true } else b.piece? i) :
    p.RecordsEffect b₃ := by
  unfold RecordsEffect at h ⊢
  split at h
  · trivial
  · obtain ⟨hne, hrecord⟩ := h
    rw [hpiece, if_neg hne]
    exact ⟨hne, hrecord⟩
  · obtain ⟨hne, hrecord⟩ := h
    rw [hpiece, if_neg hne]
    exact ⟨hne, hrecord⟩
  · obtain ⟨q', hq', hkind⟩ := h
    obtain rfl : q = q' := Option.some.inj (hq.symm.trans hq')
    rw [hpiece, if_pos rfl]
    exact ⟨_, rfl, hkind⟩

/-- Carrying out a side effect concerns its own points and pieces. -/
theorem RecordsEffect.agreeOff (h : p.RecordsEffect b) (hplay : p.playEffect b = .ok b') :
    b.AgreeOff b' p.effectPoints p.effectPieces := by
  unfold RecordsEffect at h
  unfold playEffect at hplay
  unfold effectPoints effectPieces
  cases he : p.effect with
  | none =>
    simp only [he, Except.ok.injEq] at hplay
    subst hplay
    exact Board.AgreeOff.refl b
  | some e =>
    cases e with
    | relocate id source target first =>
      simp only [he] at h hplay
      obtain ⟨-, q, hq, hpoint, -⟩ := h
      obtain ⟨b₁, hmove, rfl⟩ := map_eq_ok_iff.1 hplay
      have hmarked := Board.AgreeOff.of_revise b₁ id (f := ({ · with moved := true })) fun _ => rfl
      exact ((Board.AgreeOff.of_move hq hmove).trans hmarked).mono (by simp [hpoint]) (by simp)
    | remove id place =>
      simp only [he] at h hplay
      obtain ⟨-, q, hq, hpoint⟩ := h
      exact hpoint ▸ Board.AgreeOff.of_lift hq hplay
    | promote source target =>
      simp only [he, Except.ok.injEq] at hplay
      subst hplay
      exact Board.AgreeOff.of_revise b p.piece fun _ => rfl

/-- The board is sound when the captured piece has been lifted and the mover has arrived. -/
theorem sound_arrived (hb : b.Sound) {b₁ b₂ : Board}
    (hlift : (match p.captured with | some id => b.lift id | none => .ok b) = .ok b₁)
    (hmove : b₁.move p.piece p.target = .ok b₂) :
    (b₂.revise p.piece ({ · with moved := true })).Sound := by
  have hb₁ : b₁.Sound := by
    split at hlift
    · exact hb.lift hlift
    · exact Except.ok.inj hlift ▸ hb
  exact (hb₁.move hmove).revise fun _ => rfl

/-- Carrying out a side effect keeps the board sound. -/
theorem sound_playEffect (hb : b.Sound) (hplay : p.playEffect b = .ok b') : b'.Sound := by
  unfold playEffect at hplay
  split at hplay
  · exact Except.ok.inj hplay ▸ hb
  · obtain ⟨b₁, hmove, rfl⟩ := map_eq_ok_iff.1 hplay
    exact (hb.move hmove).revise fun _ => rfl
  · exact hb.lift hplay
  · exact Except.ok.inj hplay ▸ hb.revise fun _ => rfl

/-- A side effect can be taken back, which restores the board. -/
theorem RecordsEffect.takeBack (h : p.RecordsEffect b) (hplay : p.playEffect b = .ok b') :
    p.takeBackEffect b' = .ok b := by
  unfold RecordsEffect at h
  unfold playEffect at hplay
  unfold takeBackEffect
  cases he : p.effect with
  | none =>
    simp only [he, Except.ok.injEq] at hplay
    rw [hplay]
  | some e =>
    cases e with
    | relocate id source target first =>
      simp only [he] at h hplay
      obtain ⟨-, q, hq, rfl, hfirst⟩ := h
      obtain ⟨b₁, hmove, rfl⟩ := map_eq_ok_iff.1 hplay
      obtain ⟨b₂, hback, hrevise⟩ := Board.move_back hmove hq true
      exact map_eq_ok_iff.2 ⟨b₂, hback, hfirst ▸ hrevise⟩
    | remove id place =>
      simp only [he] at h hplay
      obtain ⟨-, q, hq, rfl⟩ := h
      exact Board.place_of_lift hplay hq
    | promote source target =>
      simp only [he, Except.ok.injEq] at h hplay
      obtain ⟨q, hq, rfl⟩ := h
      subst hplay
      exact congrArg _ (Board.revise_back hq rfl)

/-- The second board is the first when the captured piece has been lifted and the mover has arrived;
only the side effect of the ply is left to be carried out. -/
structure Arrival (p : Ply) (b b' : Board) : Prop where
  bounds : b'.bounds = b.bounds
  occupant : ∀ r, b'.on? r =
    if p.target = r then some p.piece else if p.source = r then none else b.on? r
  record : ∀ i, i ≠ p.piece → b'.piece? i = b.piece? i
  play : ∀ last, p.playEffect b' = .ok last → p.play b = .ok last

/-- A ply whose mover stands on its source and whose captured piece, if any, is the one on its
target can be played up to its side effect. -/
theorem Records.exists_arrival (h : p.Records b) (hon : b.on? p.source = some p.piece)
    (hne : p.source ≠ p.target) (hin : b.bounds.contains p.target)
    (hcaptured : p.captured = b.on? p.target) : ∃ b', p.Arrival b b' := by
  obtain ⟨q, hq, hsource, -⟩ := h.mover
  obtain ⟨b₁, hlift, hbounds₁, hon₁, hpiece₁⟩ : ∃ b₁,
      (match p.captured with | some id => b.lift id | none => .ok b) = .ok b₁ ∧
        b₁.bounds = b.bounds ∧ (∀ r, b₁.on? r = if p.target = r then none else b.on? r) ∧
        ∀ i, b₁.piece? i = b.piece? i := by
    cases hc : p.captured with
    | none =>
      refine ⟨b, rfl, rfl, fun r => ?_, fun _ => rfl⟩
      split
      · next hr => rw [← hr, ← hcaptured, hc]
      · rfl
    | some id =>
      obtain ⟨q', hq', htarget⟩ := h.captured id hc
      have hstand : b.on? q'.point = some id := by rw [htarget, ← hcaptured, hc]
      have hlift := Board.lift_eq_ok_iff.2 ⟨q', hq', hstand, rfl⟩
      obtain ⟨q'', hq'', -, hbounds, hon', hpiece⟩ := Board.lift_view hlift
      obtain rfl : q' = q'' := Option.some.inj (hq'.symm.trans hq'')
      exact ⟨_, hlift, hbounds, fun r => by rw [hon', htarget], hpiece⟩
  have hq₁ : b₁.piece? p.piece = some q := (hpiece₁ _).trans hq
  have hstand : b₁.on? q.point = some p.piece := by rw [hon₁, hsource, if_neg hne.symm, hon]
  have hvacant : b₁.on? p.target = none := by rw [hon₁, if_pos rfl]
  obtain ⟨b₂, hmove⟩ := Board.move_of_vacant hq₁ hstand (hbounds₁ ▸ hin) (.inr hvacant)
  obtain ⟨q', hq', -, -, -, hbounds₂, hon₂, hpiece₂⟩ := Board.move_view hmove
  obtain rfl : q = q' := Option.some.inj (hq.symm.trans (hpiece₁ _ ▸ hq'))
  refine ⟨b₂.revise p.piece ({ · with moved := true }), hbounds₂.trans hbounds₁, fun r => ?_,
    fun i hi => ?_, fun b' heffect => play_eq_ok_iff.2 ⟨b₁, b₂, hlift, hmove, heffect⟩⟩
  · rw [Board.on?_revise, hon₂, hon₁, hsource]
    split
    · rfl
    · rfl
  · rw [Board.piece?_revise, if_neg hi, hpiece₂, if_neg hi, hpiece₁]

/-- Another piece that does not stand on the target stays where it is on the arrival. -/
theorem Arrival.stands (h : p.Arrival b b') (hon : b.on? p.source = some p.piece) {i : PieceId}
    {r : Point} (hi : b.on? r = some i) (hne : i ≠ p.piece) (hr : r ≠ p.target) :
    b'.on? r = some i := by
  have hsource : p.source ≠ r := by
    intro heq
    rw [← heq, hon] at hi
    exact hne (Option.some.inj hi).symm
  rw [h.occupant, if_neg hr.symm, if_neg hsource, hi]

namespace Step

/-- The three legs of a step, with the records after the first two. -/
theorem legs (h : p.Step b b') : ∃ q b₁ b₂, b.piece? p.piece = some q ∧ q.point = p.source ∧
    q.moved = (!p.first) ∧
    (match p.captured with | some id => b.lift id | none => .ok b) = .ok b₁ ∧
    b₁.move p.piece p.target = .ok b₂ ∧
    (∀ i, b₁.piece? i = b.piece? i) ∧
    (∀ i, (b₂.revise p.piece ({ · with moved := true })).piece? i =
      if i = p.piece then some { q with point := p.target, moved := true } else b.piece? i) ∧
    p.RecordsEffect (b₂.revise p.piece ({ · with moved := true })) ∧
    p.playEffect (b₂.revise p.piece ({ · with moved := true })) = .ok b' := by
  obtain ⟨b₁, b₂, hlift, hmove, heffect⟩ := play_eq_ok_iff.1 h.play
  obtain ⟨q, hq, hpoint, hfirst⟩ := h.records.mover
  obtain ⟨-, hpiece₁⟩ := h.records.agreeOff_captured hlift
  obtain ⟨q', hq', -, -, -, -, -, hpiece₂⟩ := Board.move_view hmove
  obtain rfl : q = q' := Option.some.inj (hq.symm.trans (hpiece₁ _ ▸ hq'))
  have hpiece : ∀ i, (b₂.revise p.piece ({ · with moved := true })).piece? i =
      if i = p.piece then some { q with point := p.target, moved := true } else b.piece? i := by
    intro i
    rw [Board.piece?_revise, hpiece₂, hpiece₁]
    split <;> rfl
  exact ⟨q, b₁, b₂, hq, hpoint, hfirst, hlift, hmove, hpiece₁, hpiece,
    h.records.effect.arrived hq hpiece, heffect⟩

/-- A step changes nothing beyond the touched points and the pieces of its ply. -/
theorem agreeOff (h : p.Step b b') : b.AgreeOff b' p.touched p.pieces := by
  obtain ⟨q, b₁, b₂, hq, hpoint, -, hlift, hmove, hpiece₁, -, hrecords, heffect⟩ := h.legs
  have hcaptured := (h.records.agreeOff_captured hlift).1
  have hmoved := Board.AgreeOff.of_move ((hpiece₁ _).trans hq) hmove
  have hmarked := Board.AgreeOff.of_revise b₂ p.piece (f := ({ · with moved := true })) fun _ => rfl
  refine (((hcaptured.trans hmoved).trans hmarked).trans (hrecords.agreeOff heffect)).mono ?_ ?_
  · rw [touched_eq, hpoint]
    intro r hr
    simp only [List.mem_append, List.mem_cons] at hr ⊢
    grind
  · intro i hi
    simp only [List.mem_append, List.mem_singleton, Option.mem_toList] at hi
    rw [mem_pieces]
    grind

/-- A step keeps the board sound. -/
theorem sound (h : p.Step b b') (hb : b.Sound) : b'.Sound := by
  obtain ⟨q, b₁, b₂, -, -, -, hlift, hmove, -, -, -, heffect⟩ := h.legs
  exact sound_playEffect (sound_arrived hb hlift hmove) heffect

/-- Taking a step back restores the board. -/
theorem takeBack (h : p.Step b b') : p.takeBack b' = .ok b := by
  obtain ⟨q, b₁, b₂, hq, hpoint, hfirst, hlift, hmove, hpiece₁, -, hrecords, heffect⟩ := h.legs
  obtain ⟨b₃, hback, hrevise⟩ := Board.move_back hmove ((hpiece₁ _).trans hq) true
  rw [hpoint] at hback
  rw [hfirst] at hrevise
  refine bind_eq_ok_iff.2 ⟨_, hrecords.takeBack heffect, bind_eq_ok_iff.2 ⟨b₃, hback, ?_⟩⟩
  simp only [hrevise]
  cases hc : p.captured with
  | none =>
    simp only [hc, Except.ok.injEq] at hlift
    exact congrArg _ hlift.symm
  | some id =>
    simp only [hc] at hlift
    obtain ⟨q', hq', htarget⟩ := h.records.captured id hc
    exact htarget ▸ Board.place_of_lift hlift hq'

/-- After a step its mover stands on the target. -/
theorem on?_target (h : p.Step b b') : b'.on? p.target = some p.piece := by
  obtain ⟨q, b₁, b₂, hq, -, -, -, hmove, -, -, hrecords, heffect⟩ := h.legs
  obtain ⟨_, -, -, -, -, -, hon, -⟩ := Board.move_view hmove
  have harrived : (b₂.revise p.piece ({ · with moved := true })).on? p.target = some p.piece := by
    rw [Board.on?_revise, hon, if_pos rfl]
  unfold RecordsEffect at hrecords
  have hagree := RecordsEffect.agreeOff (p := p) hrecords heffect
  cases he : p.effect with
  | none =>
    rw [hagree.occupant _ (by simp [effectPoints, he])]
    exact harrived
  | some e =>
    cases e with
    | promote source target =>
      rw [hagree.occupant _ (by simp [effectPoints, he])]
      exact harrived
    | relocate id source target first =>
      simp only [he] at hrecords
      exact (hagree.stands _ (by simpa [effectPieces, he] using hrecords.1.symm) _).2 harrived
    | remove id place =>
      simp only [he] at hrecords
      exact (hagree.stands _ (by simpa [effectPieces, he] using hrecords.1.symm) _).2 harrived

/-- After a step the captured piece stands nowhere. -/
theorem not_on?_captured (h : p.Step b b') (hb : b.Sound) {i : PieceId}
    (hi : p.captured = some i) (r : Point) : b'.on? r ≠ some i := by
  obtain ⟨q, b₁, b₂, hq, -, -, hlift, hmove, -, hpiece, hrecords, heffect⟩ := h.legs
  simp only [hi] at hlift
  have hgone₁ := hb.not_on?_of_lift hlift
  have hne : i ≠ p.piece := by
    rintro rfl
    obtain ⟨q', -, hon, -⟩ := Board.move_view hmove
    exact hgone₁ _ hon
  have hgone₃ : ∀ r, (b₂.revise p.piece ({ · with moved := true })).on? r ≠ some i := by
    intro r
    rw [Board.on?_revise]
    exact Board.not_on?_of_move hne hgone₁ hmove r
  unfold playEffect at heffect
  split at heffect
  · exact Except.ok.inj heffect ▸ hgone₃ r
  · next id source target first _ =>
    obtain ⟨b₄, hmove', rfl⟩ := map_eq_ok_iff.1 heffect
    have hne' : i ≠ id := by
      rintro rfl
      obtain ⟨q', -, hon, -⟩ := Board.move_view hmove'
      exact hgone₃ _ hon
    rw [Board.on?_revise]
    exact Board.not_on?_of_move hne' hgone₃ hmove' r
  · obtain ⟨q', -, -, -, hon, -⟩ := Board.lift_view heffect
    rw [hon]
    split
    · exact fun h => Option.some_ne_none _ h.symm
    · exact hgone₃ r
  · obtain rfl := Except.ok.inj heffect
    exact hgone₃ r

/-- After a step the removed piece stands nowhere. -/
theorem not_on?_removed (h : p.Step b b') (hb : b.Sound) {i : PieceId} {place : Point}
    (hi : p.effect = some (.remove i place)) (r : Point) : b'.on? r ≠ some i := by
  obtain ⟨q, b₁, b₂, -, -, -, hlift, hmove, -, -, -, heffect⟩ := h.legs
  rw [playEffect, hi] at heffect
  exact (sound_arrived hb hlift hmove).not_on?_of_lift heffect r

/-- Whoever stands somewhere after a step is the mover on the target, is relocated, or stood there
before. -/
theorem on?_cases (h : p.Step b b') (hb : b.Sound) {r : Point} {i : PieceId}
    (hi : b'.on? r = some i) : (i = p.piece ∧ r = p.target) ∨
      (∃ source goal first, p.effect = some (.relocate i source goal first)) ∨
      (i ∉ p.pieces ∧ b.on? r = some i) := by
  by_cases hmem : i ∈ p.pieces
  · rcases mem_pieces.1 hmem with rfl | hcaptured | heffect
    · exact .inl ⟨rfl, (h.sound hb).on?_inj hi h.on?_target⟩
    · exact absurd hi (h.not_on?_captured hb hcaptured r)
    · unfold effectPieces at heffect
      split at heffect
      · next id source goal first he =>
        obtain rfl := List.mem_singleton.1 heffect
        exact .inr (.inl ⟨source, goal, first, he⟩)
      · next id place he =>
        obtain rfl := List.mem_singleton.1 heffect
        exact absurd hi (h.not_on?_removed hb he r)
      · obtain rfl := List.mem_singleton.1 heffect
        exact .inl ⟨rfl, (h.sound hb).on?_inj hi h.on?_target⟩
      · cases heffect
  · exact .inr (.inr ⟨hmem, (h.agreeOff.stands i hmem r).1 hi⟩)

/-- Without a relocation a step occupies no point but the target anew. -/
theorem pieceAt?_cases (h : p.Step b b') (hb : b.Sound)
    (hstay : ∀ i source goal first, p.effect ≠ some (.relocate i source goal first)) {r : Point}
    (hr : r ≠ p.target) : b'.pieceAt? r = none ∨ b'.pieceAt? r = b.pieceAt? r := by
  cases hon : b'.on? r with
  | none => exact .inl (by rw [Board.pieceAt?, hon, Option.bind_none])
  | some i =>
    rcases h.on?_cases hb hon with ⟨-, htarget⟩ | ⟨source, goal, first, he⟩ | ⟨hmem, hbefore⟩
    · exact absurd htarget hr
    · exact absurd he (hstay i source goal first)
    · refine .inr ?_
      rw [Board.pieceAt?, Board.pieceAt?, hon, hbefore]
      exact h.agreeOff.record i hmem

/-- The record of a piece after carrying out a side effect. -/
theorem piece?_playEffect (hplay : p.playEffect b = .ok b') {i : PieceId} {q' : Piece}
    (hq' : b'.piece? i = some q') : ∃ q, b.piece? i = some q ∧
      (q'.kind = q.kind ∨ ∃ source, p.effect = some (.promote source q'.kind) ∧ i = p.piece) := by
  unfold playEffect at hplay
  split at hplay
  · exact ⟨q', Except.ok.inj hplay ▸ hq', .inl rfl⟩
  · obtain ⟨b₁, hmove, rfl⟩ := map_eq_ok_iff.1 hplay
    obtain ⟨q, hq, -, -, -, -, -, hpiece⟩ := Board.move_view hmove
    rw [Board.piece?_revise, hpiece] at hq'
    grind
  · obtain ⟨-, -, -, -, -, hpiece⟩ := Board.lift_view hplay
    exact ⟨q', hpiece i ▸ hq', .inl rfl⟩
  · next source target heffect =>
    obtain rfl := Except.ok.inj hplay
    rw [Board.piece?_revise] at hq'
    split at hq'
    · next hi =>
      obtain ⟨q, hq, rfl⟩ := Option.map_eq_some_iff.1 hq'
      exact ⟨q, hq, .inr ⟨source, heffect, hi⟩⟩
    · exact ⟨q', hq', .inl rfl⟩

/-- A step changes the kind of its mover at most, and that only by promotion. -/
theorem kind_eq (h : p.Step b b') {i : PieceId} {q' : Piece} (hq' : b'.piece? i = some q') :
    ∃ q, b.piece? i = some q ∧
      (q'.kind = q.kind ∨ ∃ source, p.effect = some (.promote source q'.kind) ∧ i = p.piece) := by
  obtain ⟨q, b₁, b₂, hq, -, -, -, -, -, hpiece, -, heffect⟩ := h.legs
  obtain ⟨q₃, hq₃, hkind⟩ := piece?_playEffect heffect hq'
  rw [hpiece] at hq₃
  split at hq₃
  · next hi =>
    obtain rfl := Option.some.inj hq₃
    exact ⟨q, hi ▸ hq, hkind⟩
  · exact ⟨q₃, hq₃, hkind⟩

end Step

/-- On a sound board the pieces that a ply records stand on touched points only. -/
theorem Records.mem_touched (h : p.Records b) (hb : b.Sound) {id : PieceId} (hid : id ∈ p.pieces)
    {r : Point} (hr : b.on? r = some id) : r ∈ p.touched := by
  obtain ⟨q, hq, rfl⟩ := hb r id hr
  have hpoint : ∀ q', b.piece? id = some q' → q.point = q'.point := fun q' hq' =>
    congrArg Piece.point (Option.some.inj (hq.symm.trans hq'))
  rw [pieces, List.mem_append, List.mem_cons, Option.mem_toList] at hid
  rcases hid with (rfl | hc) | he
  · obtain ⟨q', hq', hsource, -⟩ := h.mover
    rw [hpoint q' hq', hsource]
    simp [touched]
  · obtain ⟨q', hq', htarget⟩ := h.captured id hc
    rw [hpoint q' hq', htarget]
    simp [touched]
  · have hrecords := h.effect
    unfold RecordsEffect at hrecords
    split at he
    · next heffect =>
      simp only [heffect] at hrecords
      obtain rfl := List.mem_singleton.1 he
      obtain ⟨-, q', hq', hsource, -⟩ := hrecords
      rw [hpoint q' hq', hsource]
      simp [touched, heffect]
    · next heffect =>
      simp only [heffect] at hrecords
      obtain rfl := List.mem_singleton.1 he
      obtain ⟨-, q', hq', hplace⟩ := hrecords
      rw [hpoint q' hq', hplace]
      simp [touched, heffect]
    · cases he

/-- Off the touched points the same pieces stand with the same records before and after a step. -/
theorem Step.pieceAt?_eq (h : p.Step b b') (hb : b.Sound) {r : Point} (hr : r ∉ p.touched) :
    b'.pieceAt? r = b.pieceAt? r := by
  rw [Board.pieceAt?, Board.pieceAt?, h.agreeOff.occupant r hr]
  cases hon : b.on? r with
  | none => rfl
  | some id => exact h.agreeOff.record id fun hid => hr (h.records.mem_touched hb hid hon)

end Ply

end VariantChess
