import Mathlib.Data.List.Nodup
import Mathlib.Data.List.FinRange
import VariantChess.Proofs.Run

/-!
# The listed actions are the accepted ones

The actions that a game lists are found piece by piece, by planning and trying; an update validates
one action on its own. Both come to the same: an action is accepted exactly when it is listed. No
action is listed twice, since the sources of two pieces differ and the targets of one piece do too.
The move map of the side to move holds the same moves once more.
-/

namespace VariantChess

/-- The points of bounds are listed in point order. -/
theorem Bounds.increasing_points (b : Bounds) :
    b.points.Pairwise fun p q => compare p q = .lt := by
  have hspan : ∀ a c : Coord, (span a c).Pairwise (· < ·) := by
    intro a c
    rw [span, List.pairwise_ofFn]
    intro i j hij
    exact Fin.mk_lt_mk.2 (Nat.add_lt_add_left hij _)
  have hlt : ∀ p q : Point, compare p q = .lt ↔ p.key < q.key := fun p q => Nat.compare_eq_lt
  simp only [hlt, Point.key]
  rw [points, List.pairwise_flatMap]
  refine ⟨fun y _ => ?_, ?_⟩
  · rw [List.pairwise_map]
    refine (hspan _ _).imp fun {x x'} hx => ?_
    have hx := Fin.lt_def.1 hx
    simp only
    omega
  · refine (hspan _ _).imp fun {y y'} hy p hp q hq => ?_
    obtain ⟨x, -, rfl⟩ := List.mem_map.1 hp
    obtain ⟨x', -, rfl⟩ := List.mem_map.1 hq
    have hy := Fin.lt_def.1 hy
    simp only
    omega

/-- No point of some bounds is listed twice. -/
theorem Bounds.nodup_points (b : Bounds) : b.points.Nodup :=
  OrderedSet.nodup ⟨b.points, b.increasing_points⟩

/-- On a sound board no piece is listed twice. -/
theorem Board.Sound.nodup_ids {b : Board} (hb : b.Sound) : b.ids.Nodup :=
  b.bounds.nodup_points.filterMap fun _ _ _ hp hr => hb.on?_inj hp hr

/-- A move map lists the moves that it was made of. -/
theorem MoveMap.mem_moversTo_ofMoves {moves : List (PieceId × Point)} {id : PieceId} {p : Point} :
    id ∈ (ofMoves moves).moversTo p ↔ (id, p) ∈ moves := by
  have hfold : ∀ index : PieceIndex,
      id ∈ (moves.foldl (fun g m => g.add m.1 m.2) index).listed p ↔
        id ∈ index.listed p ∨ (id, p) ∈ moves := by
    induction moves with
    | nil => simp
    | cons m rest ih =>
      intro index
      obtain ⟨i, r⟩ := m
      rw [List.foldl_cons, ih, PieceIndex.mem_listed_add, List.mem_cons, Prod.mk.injEq, or_assoc]
  rw [moversTo, ofMoves, hfold, PieceIndex.listed_empty]
  simp

namespace Game

variable {g : Game} {ply : Ply} {id : PieceId} {c : Colour}

/-- The targets of the legal plies of a piece are listed in the order of its destinations. -/
theorem map_target_legalTo_sublist (g : Game) (id : PieceId) (targets : List Point) :
    ((g.legalTo id targets).map (·.target)).Sublist targets := by
  induction targets with
  | nil => exact .slnil
  | cons target rest ih =>
    rw [legalTo, List.filterMap_cons]
    cases hplan : (g.plan? id target).filter g.isSafe with
    | none => exact ih.cons _
    | some ply =>
      have htarget : ply.target = target :=
        target_of_plan? (Option.filter_eq_some_iff.1 hplan).1
      rw [List.map_cons, htarget]
      exact ih.cons_cons _

/-- No two legal plies of a colour have the same ends. -/
theorem Kept.nodup_actions (hk : g.Kept) (c : Colour) :
    ((g.legal c).map fun p => Action.mk c p.source p.target).Nodup := by
  rw [legal, List.map_flatMap, List.nodup_flatMap]
  constructor
  · intro id _
    refine List.Nodup.of_map Action.target ?_
    rw [List.map_map]
    exact (nodup_destinations g id).sublist (map_target_legalTo_sublist g id _)
  · refine (hk.sound.nodup_ids.filter _).imp_of_mem fun {i j} hi hj hij a ha ha' => ?_
    obtain ⟨p, hp, rfl⟩ := List.mem_map.1 ha
    obtain ⟨p', hp', heq⟩ := List.mem_map.1 ha'
    obtain ⟨hon, -⟩ := hk.of_mem_legal (mem_legal.2 ⟨i, hi, hp⟩)
    obtain ⟨hon', -⟩ := hk.of_mem_legal (mem_legal.2 ⟨j, hj, hp'⟩)
    obtain ⟨_, hplan, -⟩ := mem_legalOf.1 hp
    obtain ⟨_, hplan', -⟩ := mem_legalOf.1 hp'
    injection heq with _ hsource _
    rw [hsource, hon, piece_of_plan? hplan, piece_of_plan? hplan'] at hon'
    exact hij (Option.some.inj hon')

/-- An action is accepted exactly when it is listed. -/
theorem Kept.update_ok_iff (hk : g.Kept) {a : Action} {r : Except Rejection Status} {h : Game}
    (hupdate : g.update a = .ok (r, h)) : (∃ status, r = .ok status) ↔
      g.status.isTerminal = false ∧
        a ∈ (g.legal g.turn).map fun p => Action.mk g.turn p.source p.target := by
  constructor
  · rintro ⟨status, rfl⟩
    obtain ⟨_, hr, -⟩ | ⟨ply, _, -, hvet, hsafe, -⟩ := hk.update_cases hupdate
    · cases hr
    · obtain ⟨hover, -, -, -, id, hon, howns, hplan⟩ := vet_eq_ok_iff.1 hvet
      have hid : id ∈ g.board.idsOf g.turn :=
        List.mem_filter.2 ⟨Plane.mem_values.2 ⟨a.source, hon⟩, howns⟩
      have hmem : ply ∈ g.legalOf id := mem_legalOf.2 ⟨a.target, hplan, hsafe⟩
      exact ⟨hover, List.mem_map.2 ⟨ply, mem_legal.2 ⟨id, hid, hmem⟩, (hk.of_vet hvet).2.symm⟩⟩
  · rintro ⟨hover, ha⟩
    obtain ⟨ply, hply, rfl⟩ := List.mem_map.1 ha
    obtain ⟨hon, howns, htarget, hplan, hsafe⟩ := hk.of_mem_legal hply
    have hvet : g.vet ⟨g.turn, ply.source, ply.target⟩ = .ok ply :=
      vet_eq_ok_iff.2 ⟨hover, rfl, Board.contains_of_on? hon, htarget, _, hon, howns, hplan⟩
    obtain ⟨e, -, -, hrefused⟩ | ⟨_, status, hr, -⟩ := hk.update_cases hupdate
    · rw [hrefused ply hvet] at hsafe
      cases hsafe
    · exact ⟨status, hr⟩

/-- While the game is not over, the move map of the side to move holds the moves of the listed
actions. -/
theorem Kept.moveMap_of_legalActions (hk : g.Kept) (hover : g.status.isTerminal = false)
    {actions : List Action} {h : Game} (hactions : g.legalActions = .ok (actions, h)) :
    ∃ moves, g.moveMap g.turn = .ok (moves, g) ∧ ∀ p id, id ∈ moves.moversTo p ↔
      ∃ a ∈ actions, a.target = p ∧ g.board.on? a.source = some id := by
  obtain ⟨-, hlist⟩ := hk.legalActions_eq_ok hactions
  rw [legalActions, if_neg (by simp [hover])] at hactions
  obtain ⟨⟨plies, g₁⟩, hplies, -⟩ := bind_eq_ok_iff.1 hactions
  obtain ⟨rfl, rfl⟩ := hk.legalPlies_eq_ok hplies
  refine ⟨_, bind_eq_ok_iff.2 ⟨_, hplies, rfl⟩, fun p id => ?_⟩
  rw [MoveMap.mem_moversTo_ofMoves, hlist, if_neg (by simp [hover])]
  simp only [List.mem_map, Prod.mk.injEq]
  constructor
  · rintro ⟨ply, hply, rfl, rfl⟩
    exact ⟨_, ⟨ply, hply, rfl⟩, rfl, (hk.of_mem_legal hply).1⟩
  · rintro ⟨_, ⟨ply, hply, rfl⟩, rfl, hon⟩
    exact ⟨ply, hply, Option.some.inj ((hk.of_mem_legal hply).1.symm.trans hon), rfl⟩

variable {g₀ : Game} {ops : List Operation} {set : PieceSet} {layout : List Char}
  {config : GameConfig}

/-- In every game of a run, from any layout and with any regular piece set, an update accepts
exactly the listed actions. None of them is listed twice, and while the game is not over they are
the moves of the move map. -/
theorem update_ok_iff_mem_legalActions (hset : set.Regular)
    (hstart : start set layout config = .ok g₀) (hrun : g₀.run ops = .ok g)
    {actions : List Action} {h : Game} (hactions : g.legalActions = .ok (actions, h)) :
    (∀ a r h', g.update a = .ok (r, h') → ((∃ status, r = .ok status) ↔ a ∈ actions)) ∧
      actions.Nodup ∧
      (g.status.isTerminal = false → ∃ moves, g.moveMap g.turn = .ok (moves, g) ∧
        ∀ p id, id ∈ moves.moversTo p ↔
          ∃ a ∈ actions, a.target = p ∧ g.board.on? a.source = some id) := by
  have h₀ := opening_of_regular hset hstart
  have hk := (h₀.reached_of_run hrun).kept h₀
  obtain ⟨-, hlist⟩ := hk.legalActions_eq_ok hactions
  refine ⟨fun a r h' hupdate => ?_, ?_, fun hover => hk.moveMap_of_legalActions hover hactions⟩
  · rw [hk.update_ok_iff hupdate, hlist]
    cases g.status.isTerminal <;> simp
  · rw [hlist]
    split
    · exact .nil
    · exact hk.nodup_actions g.turn

/-- A king that a rook checks along its rank steps off the rank or takes the rook. These two actions
are listed, an update accepts them and no others, and the move map holds their moves; the one that
takes the rook is accepted and leaves bare kings. -/
theorem update_ok_iff_mem_legalActions_small : ∃ g₀ g actions h,
    start .orthodox "w wKa1 wRb1 bKc3".toList smallConfig = .ok g₀ ∧
      g₀.run [.update ⟨.white, .ofCoords 1 0, .ofCoords 1 2⟩, .undo 1 true, .redo 1] = .ok g ∧
      g.status = .check .black ∧ g.legalActions = .ok (actions, h) ∧
      actions = [⟨.black, .ofCoords 2 2, .ofCoords 2 1⟩, ⟨.black, .ofCoords 2 2, .ofCoords 1 2⟩] ∧
      (∃ h', g.update ⟨.black, .ofCoords 2 2, .ofCoords 1 2⟩ = .ok (.ok .stalemate, h')) ∧
      (∀ a r h', g.update a = .ok (r, h') → ((∃ status, r = .ok status) ↔ a ∈ actions)) ∧
      actions.Nodup ∧
      ∃ moves, g.moveMap g.turn = .ok (moves, g) ∧ ∀ p id, id ∈ moves.moversTo p ↔
        ∃ a ∈ actions, a.target = p ∧ g.board.on? a.source = some id := by
  obtain ⟨g₀, g, hstart, hrun, htest⟩ :=
    exists_run_passing .orthodox "w wKa1 wRb1 bKc3".toList smallConfig
      [.update ⟨.white, .ofCoords 1 0, .ofCoords 1 2⟩, .undo 1 true, .redo 1]
      (fun _ g => decide (g.status = .check .black) &&
        (g.legalActions.toOption.any fun r : List Action × Game => decide (r.1 =
          [⟨.black, .ofCoords 2 2, .ofCoords 2 1⟩, ⟨.black, .ofCoords 2 2, .ofCoords 1 2⟩])) &&
        (g.update ⟨.black, .ofCoords 2 2, .ofCoords 1 2⟩).toOption.any
          fun r : Except Rejection Status × Game => decide (r.1.toOption = some .stalemate))
      (by decide +kernel)
  rw [Bool.and_eq_true, Bool.and_eq_true, decide_eq_true_eq] at htest
  obtain ⟨⟨hstatus, hlist⟩, htake⟩ := htest
  obtain ⟨⟨actions, h⟩, hactions, hpinned⟩ := (Option.any_eq_true _ _).1 hlist
  obtain ⟨⟨answer, h'⟩, hupdate, hanswer⟩ := (Option.any_eq_true _ _).1 htake
  rw [toOption_eq_some_iff] at hactions hupdate
  rw [decide_eq_true_eq, toOption_eq_some_iff] at hanswer
  obtain ⟨haccepts, hnodup, hmap⟩ :=
    update_ok_iff_mem_legalActions regular_orthodox hstart hrun hactions
  exact ⟨g₀, g, actions, h, hstart, hrun, hstatus, hactions, of_decide_eq_true hpinned,
    ⟨h', hanswer ▸ hupdate⟩, haccepts, hnodup, hmap (by rw [hstatus]; rfl)⟩

end Game

end VariantChess
