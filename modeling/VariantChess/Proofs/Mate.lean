import VariantChess.Proofs.PlainGame

/-!
# Answers to a check

A legal ply of another piece than the king meets every attack on the king: it takes the attacker or
goes to a point of the line along which the attacker sees the king. One ply meets one attack at
most. For two attackers are not both taken; none is blocked on a point where another one stands; the
pawn that is taken in passing stands behind the target, from where the king would be a knight's jump
away; and on a line that two attackers share the nearer one hides the king from the other.

So the king of a crowned game is mated, as the rules look for it, exactly when it is in check and
neither it nor another piece of its side has a legal ply.
-/

namespace VariantChess

namespace Game

variable {g : Game} {c : Colour} {ply : Ply} {b : Board} {id i j king : PieceId} {q r mover : Piece}
  {p : Point}

/-- A hostile piece that stands on the board and threatens a point. -/
structure Attacks (g : Game) (c : Colour) (p : Point) (id : PieceId) (q : Piece) : Prop where
  record : g.board.piece? id = some q
  stands : g.board.on? q.point = some id
  colour : q.colour = c.other
  threatens : p ∈ g.reach id

/-- How a ply can meet the attack of a piece on a point. -/
inductive Meets (g : Game) (p : Point) (ply : Ply) (id : PieceId) (q : Piece) : Prop
  | takes (taken : ply.taken = some id)
  | blocks {d : Int × Int} {n m : Nat}
      (sees : (g.threatening id q).Sees d n p)
      (pos : 0 < m) (lt : m < n) (along : q.point.Along d m ply.target)

/-- The pieces that the threat map of the other side lists at a point are its attackers. -/
theorem Kept.attacks_of_mem (hk : g.Kept) (hid : id ∈ (g.threats.get c.other).threatsAt p) :
    ∃ q, g.Attacks c p id q := by
  obtain ⟨howns, hhas, hreach⟩ := hk.fresh.mem_threatsAt_iff.1 hid
  obtain ⟨q, hq, hon⟩ := Board.has_iff.1 hhas
  exact ⟨q, hq, hon, (Board.owns_iff_of_piece? hq).1 howns, hreach⟩

/-- A hostile piece among those of a ply of another piece than the king is taken. -/
theorem taken_of_mem_pieces (hk : g.Kept) (hg : g.Plain) (hply : g.Planned c ply)
    (hmover : g.board.piece? ply.piece = some mover) (hking : mover.kind ≠ .standard .king)
    (hq : g.board.piece? id = some q) (hcolour : q.colour = c.other) (hmem : id ∈ ply.pieces) :
    ply.taken = some id := by
  have hne : id ≠ ply.piece := by
    intro heq
    have howns := hply.owns
    rw [← heq, Board.owns_iff_of_piece? hq, hcolour] at howns
    exact c.other_ne howns
  have heffect := plainEffect_of_plan? hk.sound hg hply.plan hmover
  rcases Ply.mem_pieces.1 hmem with hpiece | hcaptured | hchanged
  · exact absurd hpiece hne
  · exact heffect.taken_of_captured hcaptured
  · rcases heffect.of_mem_effectPieces hchanged with
      hpiece | ⟨r, -, ⟨hcastles, -⟩ | ⟨-, htaken⟩⟩
    · exact absurd hpiece hne
    · exact absurd hcastles hking
    · exact htaken

/-- A safe ply of another piece than the king ends every attack on it whose attacker it leaves
alone. -/
theorem Attacks.not_mem_reach_after (ha : g.Attacks c p id q) (hk : g.Kept)
    (hply : g.Planned c ply) (hstep : ply.Step g.board b)
    (hstill : (g.after ply b).king? c = some p) (hsafe : g.isSafe ply) (hout : id ∉ ply.pieces) :
    p ∉ (g.after ply b).reach id := by
  intro hreach
  have hrecord : b.piece? id = some q := (hstep.agreeOff.record id hout).trans ha.record
  have hcheck : (g.after ply b).inCheck c := by
    rw [(hk.after hstep).fresh.inCheck_iff hstill, board_after]
    refine ⟨id, Board.owns_iff.2 ⟨q, hrecord, ha.colour⟩, Board.has_iff.2 ⟨q, hrecord, ?_⟩, hreach⟩
    exact (hstep.agreeOff.stands id hout _).2 ha.stands
  rw [hply.isSafe_eq hstep, hcheck] at hsafe
  cases hsafe

/-- A ply after which the king is not in check meets every attack on it, if the king does not move.
-/
theorem Attacks.meets (ha : g.Attacks c p id q) (hk : g.Kept) (hg : g.Plain)
    (hply : g.Planned c ply) (hmover : g.board.piece? ply.piece = some mover)
    (hking : mover.kind ≠ .standard .king) (hstep : ply.Step g.board b)
    (hstill : (g.after ply b).king? c = some p) (hsafe : g.isSafe ply) :
    g.Meets p ply id q := by
  by_cases hmem : id ∈ ply.pieces
  · exact .takes (taken_of_mem_pieces hk hg hply hmover hking ha.record ha.colour hmem)
  · have hagree := hstep.agreeOff
    have hrecord : (g.after ply b).board.piece? id = some q := by
      rw [board_after, hagree.record id hmem, ha.record]
    have hmovements : (g.after ply b).movementsOf id = g.movementsOf id := by
      rw [movementsOf_eq_of_piece? hrecord, movementsOf_eq_of_piece? ha.record, pieceSet_after]
    obtain ⟨m, hm, hthreat⟩ := (mem_reach_iff ha.record).1 ha.threatens
    have hended : p ∉ m.candidates ((g.after ply b).threatening id q) .threats := by
      intro hthreat'
      refine ha.not_mem_reach_after hk hply hstep hstill hsafe hmem ?_
      rw [mem_reach_iff hrecord, hmovements]
      exact ⟨m, hm, hthreat'⟩
    have hplace : (g.threatening id q).SamePlace ((g.after ply b).threatening id q) := by
      refine ⟨?_, rfl, rfl, rfl⟩
      rw [threatening, board_after]
      exact hagree.bounds
    obtain ⟨d, n, l, r, hsees, hl, hln, hr, hstops⟩ :=
      (hg.direct hm).exists_block hplace hthreat hended
    rw [threatening, board_after] at hstops
    -- what stops the line now is the mover on its target, since nothing else has come there
    have htarget : r = ply.target := by
      by_contra hne
      obtain ⟨r', hr', hpass⟩ := hsees.clear l hl hln
      obtain rfl := hr.unique hr'
      have heffect := plainEffect_of_plan? hk.sound hg hply.plan hmover
      have hstay : ∀ i source goal first, ply.effect ≠ some (.relocate i source goal first) :=
        fun _ _ _ _ h => hking (heffect.of_relocate h).1
      rcases hstep.pieceAt?_cases hk.sound hstay hne with hnone | hsame
      · rw [hnone] at hstops
        cases hstops
      · rw [hsame] at hstops
        exact Bool.false_ne_true (hstops.symm.trans hpass)
    exact .blocks hsees hl hln (htarget ▸ hr)

section TwoAttackers

/-- An attacker does not see a point along a line on which another one stands in between. -/
theorem Attacks.not_behind (hi : g.Attacks c p i q) (hj : g.Attacks c p j r) {d : Int × Int}
    {n m : Nat}
    (hsees : (g.threatening j r).Sees d n p)
    (hpos : 0 < m) (hlt : m < n) : ¬r.point.Along d m q.point := by
  intro halong
  have hpiece : g.board.pieceAt? q.point = some q := by
    rw [Board.pieceAt?, hi.stands, Option.bind_some, hi.record]
  exact hsees.hostile hpos hlt halong hpiece (hi.colour.trans hj.colour.symm)

/-- The point behind an attacking pawn, as its own side sees it, is on no line with the king. -/
theorem Attacks.not_along_of_pawn (hi : g.Attacks c p i q) (hpawn : q.kind = .standard .pawn)
    {target : Point} (hbehind : Point.delta q.point target = (0, c.forward)) {d : Int × Int}
    (hd : Point.IsStep d) {n : Nat} : ¬target.Along d n p := by
  intro hline
  obtain ⟨hfiles, hranks⟩ := delta_of_pawn hi.record hpawn hi.threatens
  rw [hi.colour, Colour.forward_other] at hranks
  rw [Point.delta, Prod.mk.injEq] at hbehind
  have hforward := c.forward_eq
  -- the king is one file and two ranks away from the point
  refine hline.not_knight hd ?_ ?_
  · rw [Point.delta] at hfiles ⊢
    dsimp only at hfiles ⊢
    omega
  · rw [Point.delta] at hranks ⊢
    dsimp only at hranks ⊢
    omega

/-- A ply does not take one attacker and block another one. -/
theorem Meets.not_takes_and_blocks (hk : g.Kept) (hg : g.Plain)
    (hply : g.Planned c ply) (hmover : g.board.piece? ply.piece = some mover)
    (hi : g.Attacks c p i q) (hj : g.Attacks c p j r) (htaken : ply.taken = some i)
    {d : Int × Int} {n m : Nat}
    (hsees : (g.threatening j r).Sees d n p)
    (hpos : 0 < m) (hlt : m < n) (halong : r.point.Along d m ply.target) : False := by
  rcases (plainEffect_of_plan? hk.sound hg hply.plan hmover).of_taken htaken with
    hcaptured | ⟨q', hq', hpawn, hbehind⟩
  · obtain ⟨q', hq', htarget⟩ := (records_of_plan? hk.sound hply.plan).captured i hcaptured
    obtain rfl : q = q' := Option.some.inj (hi.record.symm.trans hq')
    exact hi.not_behind hj hsees hpos hlt (htarget ▸ halong)
  · obtain rfl : q = q' := Option.some.inj (hi.record.symm.trans hq')
    rw [(Board.owns_iff_of_piece? hmover).1 hply.owns] at hbehind
    exact hi.not_along_of_pawn hpawn hbehind hsees.step (halong.sub hsees.along (Nat.le_of_lt hlt))

/-- A ply does not block two attackers. -/
theorem Meets.not_blocks_both (hi : g.Attacks c p i q) (hj : g.Attacks c p j r) (hne : i ≠ j)
    {d e : Int × Int} {n m n' m' : Nat}
    (hsees : (g.threatening i q).Sees d n p)
    (hpos : 0 < m) (hlt : m < n) (halong : q.point.Along d m ply.target)
    (hsees' : (g.threatening j r).Sees e n' p)
    (hpos' : 0 < m') (hlt' : m' < n') (halong' : r.point.Along e m' ply.target) : False := by
  -- both lines lead from the target to the king, so they are one
  have hline := halong.sub hsees.along (Nat.le_of_lt hlt)
  have hline' := halong'.sub hsees'.along (Nat.le_of_lt hlt')
  obtain rfl : d = e := hline.step_unique hsees.step hsees'.step (by omega) (by omega) hline'
  have hcount := hline.count_unique hsees.step hline'
  rcases Nat.lt_trichotomy m m' with hm | hm | hm
  · refine hi.not_behind hj hsees' ?_ ?_ (halong.sub_end halong' (Nat.le_of_lt hm))
    · omega
    · omega
  · subst hm
    have hpoint : q.point = r.point := by
      have hzero := halong.sub_end halong' (Nat.le_refl m)
      rw [Nat.sub_self] at hzero
      exact hzero.unique (Point.along_zero r.point d)
    apply hne
    exact Option.some.inj (hi.stands.symm.trans (hpoint ▸ hj.stands))
  · refine hj.not_behind hi hsees ?_ ?_ (halong'.sub_end halong (Nat.le_of_lt hm))
    · omega
    · omega

/-- One ply meets one attack at most. -/
theorem Meets.unique (hk : g.Kept) (hg : g.Plain) (hply : g.Planned c ply)
    (hmover : g.board.piece? ply.piece = some mover) (hi : g.Attacks c p i q)
    (hj : g.Attacks c p j r) (hmi : g.Meets p ply i q) (hmj : g.Meets p ply j r) : i = j := by
  by_contra hne
  cases hmi with
  | takes taken =>
    cases hmj with
    | takes taken' => exact hne (Option.some.inj (taken.symm.trans taken'))
    | blocks sees pos lt along =>
      exact Meets.not_takes_and_blocks hk hg hply hmover hi hj taken sees pos lt along
  | blocks sees pos lt along =>
    cases hmj with
    | takes taken =>
      exact Meets.not_takes_and_blocks hk hg hply hmover hj hi taken sees pos lt along
    | blocks sees' pos' lt' along' =>
      exact Meets.not_blocks_both hi hj hne sees pos lt along sees' pos' lt' along'

end TwoAttackers

/-- A ply that meets the attack of a piece goes to its point or in between, or takes it. -/
theorem Meets.answers (hm : g.Meets p ply id q) :
    answers (q.point :: (Path.between q.point p).interior) id ply := by
  rw [Game.answers, Bool.or_eq_true, List.contains_iff_mem, decide_eq_true_eq]
  cases hm with
  | takes taken => exact .inr taken
  | blocks sees pos lt along =>
    exact .inl (List.mem_cons_of_mem _ (sees.along.mem_interior sees.step along pos lt))

/-- The legal plies of the pieces other than the king meet every attack on it. -/
theorem Crowned.meets_of_legal (hg : g.Crowned) (hk : g.Kept) (hking : g.kings.get c = some king)
    (hpoint : g.king? c = some p) (hid : id ∈ g.board.idsOf c) (hne : id ≠ king)
    (hmem : ply ∈ g.legalOf id) : ∃ mover, g.Planned c ply ∧
      g.board.piece? ply.piece = some mover ∧ ∀ j r, g.Attacks c p j r → g.Meets p ply j r := by
  have hlegal : ply ∈ g.legal c := mem_legal.2 ⟨id, hid, hmem⟩
  have hply := hk.planned_of_mem_legal hlegal
  obtain ⟨-, -, -, -, hsafe⟩ := hk.of_mem_legal hlegal
  obtain ⟨target, hplan, -⟩ := mem_legalOf.1 hmem
  obtain rfl := piece_of_plan? hplan
  obtain ⟨mover, hmover, hcolour⟩ := Board.owns_iff.1 hply.owns
  obtain ⟨b, hstep⟩ := hg.plain.exists_step hk.sound hply.plan hply.stands
  have hkind : mover.kind ≠ .standard .king := by
    intro hkind
    have hnamed := hg.king_of ply.piece mover hmover (decide_eq_true hkind)
    rw [hcolour, hking] at hnamed
    exact hne (Option.some.inj hnamed).symm
  have hstill : (g.after ply b).king? c = some p := by
    have hout := hg.not_mem_pieces hk.sound hply hking hne
    rw [king?, kings_after, board_after, hking, Option.bind_some, hstep.agreeOff.record king hout]
    rw [king?, hking, Option.bind_some] at hpoint
    exact hpoint
  exact ⟨mover, hply, hmover, fun j r ha =>
    ha.meets hk hg.plain hply hmover hkind hstep hstill hsafe⟩

/-- A checked king is mated exactly when neither it nor another piece of its side has a legal
ply. -/
theorem Crowned.mated_iff (hg : g.Crowned) (hk : g.Kept) (hking : g.kings.get c = some king)
    (hcheck : g.inCheck c) : g.mated c ↔
      g.legalOf king = [] ∧ ∀ id ∈ g.board.idsOf c, id ≠ king → g.legalOf id = [] := by
  obtain ⟨p, hpoint, hthreat⟩ := (Option.any_eq_true _ _).1 hcheck
  have hlisted : ∀ i, i ∈ ((g.threats.get c.other).threatsAt p).members → ∃ q, g.Attacks c p i q :=
    fun i hi => hk.attacks_of_mem hi
  have hincreasing := ((g.threats.get c.other).threatsAt p).increasing
  simp only [mated, hking, hpoint, Bool.and_eq_true, List.isEmpty_iff]
  apply and_congr_right
  intro _
  cases hmembers : ((g.threats.get c.other).threatsAt p).members with
  | nil =>
    obtain ⟨i, hi⟩ := (hk.fresh.coherent _).threatens_iff.1 hthreat
    rw [OrderedSet.mem_def, hmembers] at hi
    cases hi
  | cons i rest =>
    rw [hmembers] at hlisted hincreasing
    obtain ⟨q, hi⟩ := hlisted i List.mem_cons_self
    cases rest with
    | nil =>
      -- against one attacker every legal ply is an answer
      simp only [hi.record, Bool.not_eq_true', List.any_eq_false]
      constructor
      · intro hnone id hid hne
        rw [List.eq_nil_iff_forall_not_mem]
        intro ply hmem
        obtain ⟨mover, -, -, hmeets⟩ := hg.meets_of_legal hk hking hpoint hid hne hmem
        apply hnone id (List.mem_filter.2 ⟨hid, decide_eq_true hne⟩)
        exact List.any_eq_true.2 ⟨ply, hmem, (hmeets i q hi).answers⟩
      · intro hnone id hid
        obtain ⟨hid, hne⟩ := List.mem_filter.1 hid
        rw [hnone id hid (of_decide_eq_true hne)]
        exact Bool.false_ne_true
    | cons j rest =>
      -- against two attackers there is no legal ply
      obtain ⟨r, hj⟩ := hlisted j (List.mem_cons_of_mem i List.mem_cons_self)
      have hij : i ≠ j := by
        rintro rfl
        exact OrderedSet.irrefl i (List.rel_of_pairwise_cons hincreasing List.mem_cons_self)
      refine ⟨fun _ id hid hne => ?_, fun _ => rfl⟩
      rw [List.eq_nil_iff_forall_not_mem]
      intro ply hmem
      obtain ⟨mover, hply, hmover, hmeets⟩ := hg.meets_of_legal hk hking hpoint hid hne hmem
      exact hij (Meets.unique hk hg.plain hply hmover hi hj (hmeets i q hi) (hmeets j r hj))

/-- A checked king that is mated leaves its side without legal plies. -/
theorem Crowned.legal_eq_nil_of_mated (hg : g.Crowned) (hk : g.Kept) (hcheck : g.inCheck c)
    (hmated : g.mated c) : g.legal c = [] := by
  cases hking : g.kings.get c with
  | none =>
    rw [mated, hking] at hmated
    cases hmated
  | some king =>
    obtain ⟨hnone, hothers⟩ := (hg.mated_iff hk hking hcheck).1 hmated
    rw [legal, List.flatMap_eq_nil_iff]
    intro id hid
    by_cases hne : id = king
    · rw [hne, hnone]
    · exact hothers id hid hne

/-- A checked king on the board is mated exactly when its side has no legal ply. -/
theorem Crowned.mated_eq (hg : g.Crowned) (hk : g.Kept) (hcheck : g.inCheck c)
    (hids : ∀ king, g.kings.get c = some king → king ∈ g.board.ids) :
    g.mated c = (g.legal c).isEmpty := by
  rw [Bool.eq_iff_iff, List.isEmpty_iff]
  refine ⟨hg.legal_eq_nil_of_mated hk hcheck, fun hnone => ?_⟩
  rw [legal, List.flatMap_eq_nil_iff] at hnone
  obtain ⟨p, hpoint, -⟩ := (Option.any_eq_true _ _).1 hcheck
  cases hking : g.kings.get c with
  | none =>
    rw [king?, hking] at hpoint
    cases hpoint
  | some king =>
    obtain ⟨k, hk', -, hcolour⟩ := hg.king_is c king hking
    have hown : king ∈ g.board.idsOf c :=
      List.mem_filter.2 ⟨hids king hking, Board.owns_iff.2 ⟨k, hk', hcolour⟩⟩
    exact (hg.mated_iff hk hking hcheck).2 ⟨hnone king hown, fun id hid _ => hnone id hid⟩

end Game

end VariantChess
