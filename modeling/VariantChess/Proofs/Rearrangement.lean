import VariantChess.Proofs.Progress

/-!
# What an accepted action makes of the board

A ply that does not promote rearranges the board: some pieces go to other points and are marked as
moved, some leave the board, and nothing else changes. This determines the board. In a standard game
an action is accepted exactly if it is planned and the own king is not attacked on the board that
results; so to tell when a kind of move is accepted it is enough to know its plan.
-/

namespace VariantChess

namespace Board

/-- The second board is the first after some pieces have gone to some points, the latest first, and
have been marked as moved, and some others have left the board. -/
structure Rearranged (b b' : Board) (moves : List (PieceId × Point)) (gone : List PieceId) :
    Prop where
  bounds : b'.bounds = b.bounds
  stands : ∀ p i, b'.on? p = some i ↔
    moves.lookup i = some p ∨ moves.lookup i = none ∧ i ∉ gone ∧ b.on? p = some i
  record : ∀ i, b'.piece? i =
    match moves.lookup i with
    | some p => (b.piece? i).map ({ · with point := p, moved := true })
    | none => b.piece? i

namespace Rearranged

variable {b b₁ b₂ : Board} {moves moves' : List (PieceId × Point)} {gone gone' : List PieceId}
  {id : PieceId} {p : Point}

/-- The rearranged board is determined. -/
theorem unique (h₁ : b.Rearranged b₁ moves gone) (h₂ : b.Rearranged b₂ moves gone) : b₁ = b₂ := by
  refine ext_view (h₁.bounds.trans h₂.bounds.symm) (fun p => ?_) fun i => ?_
  · exact Option.ext fun i => (h₁.stands p i).trans (h₂.stands p i).symm
  · exact (h₁.record i).trans (h₂.record i).symm

theorem refl (b : Board) : b.Rearranged b [] [] where
  bounds := rfl
  stands p i := by simp
  record _ := rfl

/-- One rearrangement after another, if none of the pieces that leave then has gone anywhere. -/
theorem trans (h₁ : b.Rearranged b₁ moves gone) (h₂ : b₁.Rearranged b₂ moves' gone')
    (hgone : ∀ i ∈ gone', moves.lookup i = none) :
    b.Rearranged b₂ (moves' ++ moves) (gone ++ gone') where
  bounds := h₂.bounds.trans h₁.bounds
  stands p i := by
    rw [h₂.stands, h₁.stands, List.lookup_append, List.mem_append]
    have hi := hgone i
    cases moves'.lookup i with
    | some r => simp
    | none => cases hm : moves.lookup i <;> grind
  record i := by
    rw [h₂.record, h₁.record, List.lookup_append]
    cases moves'.lookup i with
    | none => cases moves.lookup i <;> rfl
    | some r =>
      cases moves.lookup i with
      | none => rfl
      | some p => simp [Function.comp_def]

/-- A lifted piece leaves the board. -/
theorem of_lift (hb : b.Sound) (h : b.lift id = .ok b₁) : b.Rearranged b₁ [] [id] := by
  obtain ⟨q, -, hstand, hbounds, hon, hpiece⟩ := lift_view h
  refine ⟨hbounds, fun p i => ?_, hpiece⟩
  rw [hon, List.lookup_nil, List.mem_singleton]
  split
  · next hp =>
    subst hp
    simp [hstand, eq_comm]
  · next hp =>
    have hne : b.on? p = some i → i ≠ id := fun hi h => hp (hb.on?_inj hstand (h ▸ hi))
    simpa using hne

/-- A piece that is moved and marked goes to its new point. -/
theorem of_move (hb : b.Sound) (h : b.move id p = .ok b₁) :
    b.Rearranged (b₁.revise id ({ · with moved := true })) [(id, p)] [] := by
  obtain ⟨q, hq, hstand, -, hvacant, hbounds, hon, hpiece⟩ := move_view h
  refine ⟨hbounds, fun r i => ?_, fun i => ?_⟩
  · rw [on?_revise, hon, List.lookup_cons, List.lookup_nil]
    by_cases hi : i = id
    · subst hi
      have hr : b.on? r = some i → q.point = r := hb.on?_inj hstand
      simp
      grind
    · have hi' : (i == id) = false := by simpa using hi
      simp only [hi']
      grind
  · rw [piece?_revise, hpiece, List.lookup_cons, List.lookup_nil]
    by_cases hi : i = id
    · subst hi
      simp [hq]
    · have hi' : (i == id) = false := by simpa using hi
      simp [hi']
      grind

end Rearranged

end Board

namespace Ply

variable {p : Ply} {b b' : Board}

/-- Where a ply takes pieces to, its side effect first. -/
def arrivals (p : Ply) : List (PieceId × Point) :=
  match p.effect with
  | some (.relocate id _ target _) => [(id, target), (p.piece, p.target)]
  | _ => [(p.piece, p.target)]

/-- The pieces that a ply takes off the board. -/
def leavers (p : Ply) : List PieceId :=
  match p.effect with
  | some (.remove id _) => p.captured.toList ++ [id]
  | _ => p.captured.toList

/-- A ply does nothing but take some pieces to some points and others off the board. -/
structure Rearranges (p : Ply) (moves : List (PieceId × Point)) (gone : List PieceId) : Prop where
  arrivals : p.arrivals = moves
  leavers : p.leavers = gone
  keeps : ∀ source target, p.effect ≠ some (.promote source target)

/-- Playing such a ply rearranges the board. -/
theorem Step.rearranged (h : p.Step b b') (hb : b.Sound) {moves : List (PieceId × Point)}
    {gone : List PieceId} (hp : p.Rearranges moves gone) : b.Rearranged b' moves gone := by
  rw [← hp.arrivals, ← hp.leavers]
  obtain ⟨q, b₁, b₂, -, -, -, hlift, hmove, -, -, hrecords, heffect⟩ := h.legs
  have hsound := sound_arrived hb hlift hmove
  have hlifted : b₁.Sound ∧ b.Rearranged b₁ [] p.captured.toList := by
    cases hc : p.captured with
    | none =>
      rw [hc] at hlift
      obtain rfl := Except.ok.inj hlift
      exact ⟨hb, .refl b⟩
    | some id =>
      rw [hc] at hlift
      exact ⟨hb.lift hlift, .of_lift hb hlift⟩
  have harrived : b.Rearranged (b₂.revise p.piece ({ · with moved := true }))
      [(p.piece, p.target)] p.captured.toList := by
    simpa using hlifted.2.trans (.of_move hlifted.1 hmove) fun _ hi => absurd hi List.not_mem_nil
  rw [playEffect] at heffect
  rw [RecordsEffect] at hrecords
  rw [Ply.arrivals, Ply.leavers]
  cases he : p.effect with
  | none =>
    rw [he] at heffect
    obtain rfl := Except.ok.inj heffect
    exact harrived
  | some e =>
    rw [he] at heffect hrecords
    cases e with
    | relocate id source target first =>
      obtain ⟨b₃, hrelocate, rfl⟩ := map_eq_ok_iff.1 heffect
      simpa using harrived.trans (.of_move hsound hrelocate) fun _ hi => absurd hi List.not_mem_nil
    | remove id place =>
      have hne : (id == p.piece) = false := by simpa using hrecords.1
      exact harrived.trans (.of_lift hsound heffect) fun i hi => by
        rw [List.mem_singleton.1 hi, List.lookup_cons, hne, List.lookup_nil]
    | promote source target => exact absurd he (hp.keeps source target)

end Ply

namespace Game

variable {g h g₀ : Game} {ply : Ply} {b : Board} {id : PieceId} {p t : Point} {status : Status}

/-- Whether a king is attacked does not depend on the threat maps, and it is the same before and after
they are brought up to date. -/
theorem kingAttacked_after (g : Game) (ply : Ply) (b : Board) (c : Colour) :
    (g.after ply b).kingAttacked c = ({ g with board := b } : Game).kingAttacked c := by
  rw [after_eq]
  rfl

/-- A planned ply is safe if its king is not attacked on the board that results. -/
theorem Kept.isSafe_iff (hk : g.Kept) {c : Colour} (hply : g.Planned c ply)
    (hstep : ply.Step g.board b) :
    g.isSafe ply ↔ ({ g with board := b } : Game).kingAttacked c = false := by
  rw [hply.isSafe_eq hstep, (hk.after hstep).inCheck_eq, kingAttacked_after, Bool.not_eq_true']

/-- An accepted action is planned, its ply is the latest one, and it leaves the own king
unattacked. -/
theorem Kept.exists_plan_of_accepted (hk : g.Kept) (hon : g.board.on? p = some id)
    (hupdate : g.update ⟨g.turn, p, t⟩ = .ok (.ok status, h)) : ∃ ply,
      g.plan? id t = some ply ∧ ply.Step g.board h.board ∧ h.lastPly = some ply ∧
        ({ g with board := h.board } : Game).kingAttacked g.turn = false := by
  obtain ⟨_, hr, -⟩ | ⟨ply, _, -, hvet, hsafe, hf, -⟩ := hk.update_cases hupdate
  · cases hr
  · obtain ⟨-, -, -, -, i, hi, -, hplan⟩ := vet_eq_ok_iff.1 hvet
    obtain rfl : id = i := Option.some.inj (hon.symm.trans hi)
    exact ⟨ply, hplan, hf.step, hf.lastPly,
      (hk.isSafe_iff (hk.planned_of_vet hvet) hf.step).1 hsafe⟩

/-- In a standard game that is not over an action is accepted exactly if it is planned and leaves the
own king unattacked. -/
theorem Standard.exists_accepted_iff (hg : g.Standard) (hk : g.Kept)
    (hover : g.status.isTerminal = false) (hon : g.board.on? p = some id)
    (howns : g.board.owns g.turn id) :
    (∃ status h, g.update ⟨g.turn, p, t⟩ = .ok (.ok status, h)) ↔ ∃ ply b,
      g.plan? id t = some ply ∧ ply.Step g.board b ∧
        ({ g with board := b } : Game).kingAttacked g.turn = false := by
  constructor
  · rintro ⟨status, h, hupdate⟩
    obtain ⟨ply, hplan, hstep, -, hcalm⟩ := hk.exists_plan_of_accepted hon hupdate
    exact ⟨ply, h.board, hplan, hstep, hcalm⟩
  · rintro ⟨ply, b, hplan, hstep, hcalm⟩
    have hvet : g.vet ⟨g.turn, p, t⟩ = .ok ply := vet_eq_ok_iff.2
      ⟨hover, rfl, Board.contains_of_on? hon, contains_of_plan? hplan, id, hon, howns, hplan⟩
    have hsafe := (hk.isSafe_iff (hk.planned_of_vet hvet) hstep).2 hcalm
    obtain ⟨⟨r, h⟩, hupdate⟩ := hg.exists_update hk ⟨g.turn, p, t⟩
    obtain ⟨_, -, -, hrefused⟩ | ⟨_, status, rfl, -⟩ := hk.update_cases hupdate
    · rw [hrefused ply hvet] at hsafe
      cases hsafe
    · exact ⟨status, h, hupdate⟩

section Described

variable {X : Type} {may : X → Prop} {moves : X → List (PieceId × Point)} {gone : X → List PieceId}

/-- When the plans of a piece for a target are described by the conditions that they need and by how
they rearrange the board, then so are the accepted actions. -/
theorem Standard.accepted_of_described (hk : g.Kept) (hon : g.board.on? p = some id)
    (hplans : ∀ ply, g.plan? id t = some ply → ∃ x, may x ∧ ply.Rearranges (moves x) (gone x))
    (hupdate : g.update ⟨g.turn, p, t⟩ = .ok (.ok status, h)) : ∃ x ply, may x ∧
      g.plan? id t = some ply ∧ h.lastPly = some ply ∧
        g.board.Rearranged h.board (moves x) (gone x) := by
  obtain ⟨ply, hplan, hstep, hlast, -⟩ := hk.exists_plan_of_accepted hon hupdate
  obtain ⟨x, hx, hply⟩ := hplans ply hplan
  exact ⟨x, ply, hx, hplan, hlast, hstep.rearranged hk.sound hply⟩

/-- When moreover the conditions make for a plan, and for one only, an action is accepted exactly if
they are met and the own king is not attacked on the rearranged board. -/
theorem Standard.exists_accepted_iff_described (hg : g.Standard) (hk : g.Kept)
    (hover : g.status.isTerminal = false) (hon : g.board.on? p = some id)
    (howns : g.board.owns g.turn id)
    (hplans : ∀ ply, g.plan? id t = some ply → ∃ x, may x ∧ ply.Rearranges (moves x) (gone x))
    (hplan : ∀ x, may x → ∃ ply, g.plan? id t = some ply)
    (hunique : ∀ x y, may x → may y → x = y) :
    (∃ status h, g.update ⟨g.turn, p, t⟩ = .ok (.ok status, h)) ↔ ∃ x b, may x ∧
      g.board.Rearranged b (moves x) (gone x) ∧
        ({ g with board := b } : Game).kingAttacked g.turn = false := by
  rw [hg.exists_accepted_iff hk hover hon howns]
  constructor
  · rintro ⟨ply, b, hplan, hstep, hcalm⟩
    obtain ⟨x, hx, hply⟩ := hplans ply hplan
    exact ⟨x, b, hx, hstep.rearranged hk.sound hply, hcalm⟩
  · rintro ⟨x, b, hx, hb, hcalm⟩
    obtain ⟨ply, hply⟩ := hplan x hx
    have hid : id ∈ g.board.ids := Plane.mem_values.2 ⟨p, hon⟩
    obtain ⟨b', hstep⟩ := hg.crowned.plain.playable hk id hid t ply hply
    obtain ⟨y, hy, hrearranges⟩ := hplans ply hply
    obtain rfl := hunique x y hx hy
    obtain rfl := hb.unique (hstep.rearranged hk.sound hrearranges)
    exact ⟨ply, b, hply, hstep, hcalm⟩

end Described

/-- A game of chessmen that is started with the side that is not to move out of check is a standard
opening. -/
theorem opening_of_calm_start {set : PieceSet} {layout : List Char} {config : GameConfig}
    {board : Board} {turn : Colour} (hstart : start set layout config = .ok g₀)
    (hread : Board.read set config.bounds layout = .ok (board, turn)) (hkinds : board.Standard)
    (hcalm : g₀.kingAttacked g₀.turn.other = false) : g₀.Opening ∧ g₀.Standard := by
  have h₀ := opening_of_start hstart hread (regular_setUp set config turn hkinds)
  exact ⟨h₀, standard_of_start hstart hread hkinds ((h₀.kept.inCheck_eq _).trans hcalm)⟩

/-- The latest ply of a game on a line was planned in an earlier game, by the side that is not to
move, and led to the board. -/
theorem Reached.exists_before (h₀ : g₀.Opening) (hg : Reached g₀ g)
    (hlast : g.lastPly = some ply) : ∃ g' log, Line g₀ log g' ∧ g'.Kept ∧
      g'.Planned g.turn.other ply ∧ ply.Step g'.board g.board := by
  have hline := hg.line
  rw [lastPly, Log.last?] at hlast
  cases hlog : g.log.committed with
  | nil =>
    rw [hlog] at hlast
    cases hlast
  | cons e log =>
    rw [hlog] at hline hlast
    obtain rfl := Option.some.inj hlast
    obtain ⟨g', hl', hk, hvet, -, hf, -⟩ := hline.cases_next h₀
    have hturn : g.turn.other = g'.turn := by
      rw [← Colour.other_other g'.turn, ← hf.turn]
      rfl
    exact ⟨g', log, hl', hk, hturn ▸ hk.planned_of_vet hvet, hf.step⟩

/-- A game of chessmen that is computed to be reached from a layout, with the side that is not to move
out of check, to pass a test, and to accept an action of the side to move. -/
theorem exists_calm_accepted (layout : List Char) (config : GameConfig) (ops : List Operation)
    (test : Game → Bool) (p t : Point)
    (h : (start .orthodox layout config).toOption.any fun g₀ =>
      (Board.read .orthodox config.bounds layout).toOption.isSome &&
        !g₀.kingAttacked g₀.turn.other && (g₀.run ops).toOption.any fun g =>
          test g && (g.update ⟨g.turn, p, t⟩).toOption.any fun r => r.1.toOption.isSome) :
    ∃ g₀ g board turn status h, start .orthodox layout config = .ok g₀ ∧
      Board.read .orthodox config.bounds layout = .ok (board, turn) ∧ board.Standard ∧
      g₀.kingAttacked g₀.turn.other = false ∧ g₀.run ops = .ok g ∧ test g ∧
      g.update ⟨g.turn, p, t⟩ = .ok (.ok status, h) := by
  obtain ⟨g₀, g, board, turn, hstart, hread, hkinds, hcalm, hrun, htest⟩ :=
    exists_calm_run layout config ops _ h
  rw [Bool.and_eq_true] at htest
  obtain ⟨htest, haccepted⟩ := htest
  obtain ⟨⟨r, h⟩, hupdate, hsome⟩ := (Option.any_eq_true _ _).1 haccepted
  obtain ⟨status, hr⟩ := Option.isSome_iff_exists.1 hsome
  rw [toOption_eq_some_iff] at hupdate hr
  dsimp only at hr
  subst hr
  exact ⟨g₀, g, board, turn, status, h, hstart, hread, hkinds, hcalm, hrun, htest, hupdate⟩

end Game

end VariantChess
