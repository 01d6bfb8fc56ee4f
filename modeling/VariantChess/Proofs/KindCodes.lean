import VariantChess.Proofs.Castling
import VariantChess.Proofs.EnPassant
import VariantChess.Proofs.KingTable

/-!
# Kinds that share a code

Kinds are told apart by more than their codes, but a kind condition compares bare codes, and the
letter of a chessman may be registered as the code of a custom kind. So the orthodox rules take a
piece of that kind for the chessman: a king castles with a custom piece of the rook's letter, and a
pawn takes one of the pawn's letter in passing. Nothing else is taken for a rook or a pawn, and as a
promotion makes chessmen only, nothing at all is where these two letters are not registered.
-/

namespace VariantChess

namespace Kind

variable {k : Kind} {m : Chessman}

/-- The custom kind whose code is the letter of a chessman. -/
def namesake (m : Chessman) : Kind := .custom (String.ofList [m.code])

/-- A chessman and its namesake have the same code, and no other kind has it. -/
theorem code_eq_iff : k.code = (Kind.standard m).code ↔ k = .standard m ∨ k = namesake m := by
  cases k with
  | standard n =>
    rw [namesake, Kind.standard.injEq, or_iff_left Kind.noConfusion]
    exact ⟨eq_of_code, congrArg fun n => (Kind.standard n).code⟩
  | custom code => simp [namesake, Kind.code]

end Kind

/-- The letter of a chessman can be registered, which makes its namesake known. -/
theorem PieceSet.exists_register_letter (set : PieceSet) (m : Chessman) (piece : CustomPiece) :
    ∃ set', set.register (String.ofList [m.code]) piece = .ok set' ∧
      set'.knows (Kind.namesake m) := by
  have hvalid : Kind.validCode (String.ofList [m.code]).toList := by cases m <;> decide
  refine ⟨_, if_pos hvalid, ?_⟩
  rw [Kind.namesake, knows, OrderedMap.contains, OrderedMap.get?_insert, if_pos rfl,
    Option.isSome_some]

/-- Whether a side effect relocates a piece. -/
def SideEffect.relocates (e : SideEffect) (id : PieceId) : Bool :=
  match e with
  | .relocate i _ _ _ => i = id
  | _ => false

theorem SideEffect.relocates_iff {e : SideEffect} {id : PieceId} :
    e.relocates id ↔ ∃ source goal first, e = .relocate id source goal first := by
  cases e <;> simp [relocates]

/-- Only taking in passing removes a piece, among the movements of a pawn. -/
theorem Chessman.eq_enPassant {m : Movement} (hm : m ∈ Chessman.pawn.movements) {place : Location}
    (hf : m.followUp = some (.remove place)) : m = Orthodox.enPassant := by
  rcases followUp_cases hm with hnone | ⟨hking, -⟩ | ⟨-, rfl | hpromote⟩
  · rw [hnone] at hf
    cases hf
  · cases hking
  · rfl
  · rw [hpromote] at hf
    cases hf

namespace Game

variable {g h : Game} {ply : Ply} {id : PieceId} {q : Piece} {t : Point}

/-- A planned ply promotes to a chessman, if it promotes. -/
theorem exists_chessman_of_plan? (hplan : g.plan? id t = some ply) {source target : Kind}
    (he : ply.effect = some (.promote source target)) : ∃ m, target = .standard m := by
  obtain ⟨q, _, _, hq, -⟩ := exists_of_plan? hplan
  obtain ⟨_, _, -, -, -, hside⟩ := exists_followUp_of_plan? hq hplan he
  obtain ⟨m, _, -, hm, -⟩ := followUp_of_sideEffect? hside
  exact ⟨m, hm⟩

/-- A king relocates an unmoved piece of its side that has the code of a rook. -/
theorem code_of_relocated (hq : g.board.piece? id = some q) (hking : q.kind = .standard .king)
    (hplan : g.plan? id t = some ply) {i : PieceId} {source goal : Point} {first : Bool}
    (he : ply.effect = some (.relocate i source goal first)) :
    ∃ r, g.board.piece? i = some r ∧ r.kind.code = (Kind.standard .rook).code ∧
      r.colour = q.colour ∧ r.moved = false := by
  obtain ⟨m, f, hm, hf, hholds, hside⟩ := exists_followUp_of_plan? hq hplan he
  rw [hking] at hm
  rcases Wing.mem_movements_king.1 hm with rfl | ⟨w, rfl⟩
  · cases hf
  · obtain rfl : .relocate w.corner w.crossing = f := Option.some.inj hf
    obtain ⟨p, _, j, r, hp, -, hj, -, hr, -, -, -, heq⟩ := exists_of_sideEffect?_relocate hside
    cases heq
    have hcorner : ((g.looking id q).heading t).Shows w.corner source i r := ⟨hp, hj, hr⟩
    simp only [Wing.conditions_castling, List.forall_mem_cons, Condition.holds_kind_iff,
      Condition.holds_friendly_iff, Condition.holds_moved_iff, decide_eq_true_eq] at hholds
    obtain ⟨-, ⟨_, _, _, hshows, hcode⟩, ⟨_, _, _, hshows', hfriend⟩,
      ⟨_, _, _, hshows'', hmoved⟩, -⟩ := hholds
    obtain ⟨-, -, rfl⟩ := hcorner.unique hshows
    obtain ⟨-, -, rfl⟩ := hcorner.unique hshows'
    obtain ⟨-, -, rfl⟩ := hcorner.unique hshows''
    exact ⟨r, hr, hcode, hfriend, hmoved⟩

/-- A pawn removes a piece of the other side that has the code of a pawn. -/
theorem code_of_removed (hq : g.board.piece? id = some q) (hpawn : q.kind = .standard .pawn)
    (hplan : g.plan? id t = some ply) {i : PieceId} {place : Point}
    (he : ply.effect = some (.remove i place)) :
    ∃ r, g.board.piece? i = some r ∧ r.kind.code = (Kind.standard .pawn).code ∧
      r.colour ≠ q.colour := by
  obtain ⟨m, f, hm, hf, hholds, hside⟩ := exists_followUp_of_plan? hq hplan he
  rw [hpawn] at hm
  obtain ⟨behind, rfl⟩ := followUp_of_sideEffect? hside
  obtain rfl := Chessman.eq_enPassant hm hf
  obtain rfl := FollowUp.remove.inj (Option.some.inj hf)
  obtain ⟨p, j, hp, -, hj, -, heq⟩ := exists_of_sideEffect?_remove hside
  cases heq
  simp only [Orthodox.conditions_enPassant, List.forall_mem_cons, Condition.holds_kind_iff,
    Condition.holds_friendly_iff, decide_eq_false_iff_not] at hholds
  obtain ⟨⟨_, _, r, hshows, hcode⟩, ⟨_, _, _, hshows', hhostile⟩, -⟩ := hholds
  obtain ⟨-, -, rfl⟩ := hshows.unique hshows'
  obtain rfl := Option.some.inj (hp.symm.trans hshows.point)
  obtain rfl := Option.some.inj (hj.symm.trans hshows.stands)
  exact ⟨r, hshows.record, hcode, hhostile⟩

end Game

/-- The kinds of the recorded pieces are known. -/
def Board.Knows (b : Board) (set : PieceSet) : Prop :=
  ∀ id q, b.piece? id = some q → set.knows q.kind

/-- A step that promotes to nothing but a chessman keeps the kinds known. -/
theorem Ply.Step.knows {p : Ply} {b b' : Board} {set : PieceSet} (h : p.Step b b')
    (hb : b.Knows set)
    (hpromotes : ∀ source target, p.effect = some (.promote source target) →
      ∃ m, target = .standard m) : b'.Knows set := by
  intro i q' hq'
  have hkind := h.kind_map_eq i
  rw [hq', Option.map_some] at hkind
  obtain ⟨q, hq, hkind⟩ := Option.map_eq_some_iff.1 hkind.symm
  rw [← hkind]
  split
  · next source target he =>
    obtain ⟨m, rfl⟩ := hpromotes source target he
    split
    · rfl
    · exact hb i q hq
  · exact hb i q hq

/-- Planned plies keep the kinds known. -/
theorem Board.Played.knows {b₀ b : Board} {log : List Ply} {set : PieceSet} (h : b₀.Played log b)
    (h₀ : b₀.Knows set)
    (hplanned : ∀ p ∈ log, ∃ (g : Game) (id : PieceId) (t : Point), g.plan? id t = some p) :
    b.Knows set := by
  induction h with
  | start => exact h₀
  | next hprev hstep ih =>
    obtain ⟨⟨_, _, _, hplan⟩, hearlier⟩ := List.forall_mem_cons.1 hplanned
    exact hstep.knows (ih hearlier) fun _ _ he => Game.exists_chessman_of_plan? hplan he

namespace Game

variable {g₀ g h : Game} {set : PieceSet} {layout : List Char} {config : GameConfig}
  {ops : List Operation} {a : Action} {status : Status}

/-- In every game of a run the kinds of the recorded pieces are known. -/
theorem knows_of_run (hstart : start set layout config = .ok g₀) (hrun : g₀.run ops = .ok g) :
    g.board.Knows set := by
  obtain ⟨board, first, hread, -, -, -, hg⟩ := chronicled_of_run hstart hrun
  refine hg.played.knows (fun id q hq => Board.knows_of_read hread hq) fun p hp => ?_
  obtain ⟨e, he, rfl⟩ := List.mem_map.1 hp
  exact hg.turns.exists_earlier.planned he

/-- What has the code of a chessman is the chessman, or its namesake if that is known. -/
theorem kind_of_code {b : Board} {r : Piece} {i : PieceId} {m : Chessman} (hb : b.Knows set)
    (hr : b.piece? i = some r) (hcode : r.kind.code = (Kind.standard m).code) :
    r.kind = .standard m ∨ r.kind = .namesake m ∧ set.knows (.namesake m) := by
  rcases Kind.code_eq_iff.1 hcode with hstandard | hnamesake
  · exact .inl hstandard
  · exact .inr ⟨hnamesake, hnamesake ▸ hb i r hr⟩

/-- In every game of a run, from any layout and with any piece set, an accepted action of a king that
relocates a piece relocates an unmoved piece of the king's side that is a rook or, if the piece set
has a custom kind of the rook's letter, of that kind; and an accepted action of a pawn that removes a
piece removes one of the other side that is a pawn or, if the piece set has a custom kind of the
pawn's letter, of that kind. So a piece set without these two kinds lets the orthodox rules apply to
chessmen only. -/
theorem sideEffect_of_run (hstart : start set layout config = .ok g₀) (hrun : g₀.run ops = .ok g)
    (hupdate : g.update a = .ok (.ok status, h)) : ∃ ply q, h.lastPly = some ply ∧
      g.board.piece? ply.piece = some q ∧
      (∀ i source goal first, q.kind = .standard .king →
        ply.effect = some (.relocate i source goal first) → ∃ r, g.board.piece? i = some r ∧
          (r.kind = .standard .rook ∨
            r.kind = .namesake .rook ∧ set.knows (.namesake .rook)) ∧
          r.colour = q.colour ∧ r.moved = false) ∧
      ∀ i place, q.kind = .standard .pawn → ply.effect = some (.remove i place) →
        ∃ r, g.board.piece? i = some r ∧
          (r.kind = .standard .pawn ∨
            r.kind = .namesake .pawn ∧ set.knows (.namesake .pawn)) ∧
          r.colour ≠ q.colour := by
  obtain ⟨board, first, hread, -, -, -, hg⟩ := chronicled_of_run hstart hrun
  have hknows := knows_of_run hstart hrun
  obtain ⟨_, hr, -⟩ | ⟨ply, _, -, hc⟩ :=
    update_cases_of_sound (hg.played.sound (Board.of_read hread).1) hupdate
  · cases hr
  · obtain ⟨id, t, hplan⟩ := hc.planned
    obtain rfl := piece_of_plan? hplan
    obtain ⟨q, hq, -⟩ := source_of_plan? hplan
    refine ⟨ply, q, by rw [lastPly, hc.log]; rfl, hq, ?_, ?_⟩
    · intro i source goal first hking he
      obtain ⟨r, hr, hcode, hrest⟩ := code_of_relocated hq hking hplan he
      exact ⟨r, hr, kind_of_code hknows hr hcode, hrest⟩
    · intro i place hpawn he
      obtain ⟨r, hr, hcode, hhostile⟩ := code_of_removed hq hpawn hplan he
      exact ⟨r, hr, kind_of_code hknows hr hcode, hhostile⟩

/-- In a game of chessmen a king castles, and what it relocates is a rook. -/
theorem sideEffect_of_run_castling : ∃ g₀ g status h r,
    start .orthodox "w wKa1* wRd1* bKb3".toList oblongConfig = .ok g₀ ∧ g₀.run [] = .ok g ∧
      g.update ⟨.white, .ofCoords 0 0, .ofCoords 2 0⟩ = .ok (.ok status, h) ∧
      g.board.piece? ⟨1⟩ = some r ∧ r.kind = .standard .rook ∧ r.moved = false := by
  obtain ⟨g₀, g, status, h, hstart, hrun, hupdate, htest⟩ :=
    exists_accepted .orthodox "w wKa1* wRd1* bKb3".toList oblongConfig []
      ⟨.white, .ofCoords 0 0, .ofCoords 2 0⟩
      (fun _ g _ h => h.lastPly.any fun ply =>
        ply.effect.any (·.relocates ⟨1⟩) && (g.board.piece? ply.piece).any Piece.isKing)
      (by decide +kernel)
  obtain ⟨ply, q, hlast, hq, hrook, -⟩ := sideEffect_of_run hstart hrun hupdate
  rw [hlast, Option.any_some, hq, Option.any_some, Bool.and_eq_true, Option.any_eq_true] at htest
  obtain ⟨⟨e, he, hrelocates⟩, hking⟩ := htest
  obtain ⟨_, _, _, rfl⟩ := SideEffect.relocates_iff.1 hrelocates
  obtain ⟨r, hr, hkind, -, hmoved⟩ := hrook _ _ _ _ (of_decide_eq_true hking) he
  refine ⟨g₀, g, status, h, r, hstart, hrun, hupdate, hr, hkind.resolve_right ?_, hmoved⟩
  rintro ⟨-, hknows⟩
  cases hknows

/-- A piece that does not move and has the letter of a rook. -/
def blockSet : PieceSet := ⟨.insert .empty "R" { value := 7, movements := [] }⟩

/-- A king castles with a custom piece. -/
theorem sideEffect_of_run_block : ∃ g₀ status h ply q source goal first r,
    PieceSet.orthodox.register "R" { value := 7, movements := [] } = .ok blockSet ∧
      start blockSet "w wKa1* w~R~d1* bKd3".toList oblongConfig = .ok g₀ ∧
      g₀.update ⟨.white, .ofCoords 0 0, .ofCoords 2 0⟩ = .ok (.ok status, h) ∧
      h.lastPly = some ply ∧ g₀.board.piece? ply.piece = some q ∧ q.kind = .standard .king ∧
      ply.effect = some (.relocate ⟨1⟩ source goal first) ∧
      g₀.board.piece? ⟨1⟩ = some r ∧ r.kind ≠ .standard .rook := by
  have hregister : PieceSet.orthodox.register "R" { value := 7, movements := [] } =
      .ok blockSet := by decide +kernel
  obtain ⟨g₀, g, status, h, hstart, hrun, hupdate, htest⟩ :=
    exists_accepted blockSet "w wKa1* w~R~d1* bKd3".toList oblongConfig []
      ⟨.white, .ofCoords 0 0, .ofCoords 2 0⟩
      (fun _ g _ h => h.lastPly.any fun ply =>
        ply.effect.any (·.relocates ⟨1⟩) &&
          (g.board.piece? ply.piece).any (fun q => q.kind = .standard .king) &&
          (g.board.piece? ⟨1⟩).any fun r => r.kind ≠ .standard .rook)
      (by decide +kernel)
  obtain rfl := Except.ok.inj hrun
  simp only [Option.any_eq_true, Bool.and_eq_true, decide_eq_true_eq] at htest
  obtain ⟨ply, hlast, ⟨⟨e, he, hrelocates⟩, q, hq, hking⟩, r, hr, hkind⟩ := htest
  obtain ⟨source, goal, first, rfl⟩ := SideEffect.relocates_iff.1 hrelocates
  exact ⟨g₀, status, h, ply, q, source, goal, first, r, hregister, hstart, hupdate, hlast, hq, hking,
    he, hr, hkind⟩

end Game

end VariantChess
