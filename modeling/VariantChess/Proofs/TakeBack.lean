import VariantChess.Proofs.Run

/-!
# Taking an action back

Of two games on the lines from one opening, those with the same committed log differ in their redo
stacks only. So undoing an accepted action gives the game back as it was, threat maps and status
included, whether the action is saved for redoing or not.

This rests on regular pieces. A slide whose condition looks at the destination alone leaves out
points that it walks over, and the game does not find it again there: when such a slide is cut short
and opened again, its threats stay lost.
-/

namespace VariantChess

namespace Game

variable {g₀ g h : Game} {set : PieceSet} {layout : List Char} {config : GameConfig}
  {ops : List Operation} {a : Action} {status : Status}

/-- Games on lines from one opening are determined by their logs. -/
theorem Reached.eq_of_committed (hg : Reached g₀ g) (hh : Reached g₀ h)
    (hlog : h.log.committed = g.log.committed) : h = { g with log := h.log } := by
  have hline := hh.line
  rw [hlog] at hline
  have hrecord : h.onRecord = g.onRecord := hline.unique hg.line
  injection hrecord with hboard hset _ hthreats hkings hturn hstatus hinitial hconfig
  rw [← hh.status, ← hg.status] at hstatus
  exact Game.ext hboard hset rfl hthreats hkings hturn hstatus hinitial hconfig

/-- In every game of a run, from any layout and with any regular piece set, undoing an action that
has just been accepted gives back the game with its status, and only the redo stack can differ. -/
theorem undo_of_update (hset : set.Regular) (hstart : start set layout config = .ok g₀)
    (hrun : g₀.run ops = .ok g) (hupdate : g.update a = .ok (.ok status, h)) (save : Bool) :
    ∃ undone, h.undo 1 save = .ok (g.status, { g with log := ⟨g.log.committed, undone⟩ }) := by
  have h₀ := opening_of_regular hset hstart
  have hg := h₀.reached_of_run hrun
  obtain ⟨k, status', hundo, hk, hdrop, hanswer⟩ := (hg.update h₀ hupdate).undo_eq_ok h₀ 1 save
  have hlog : ∃ e, h.log.committed = e :: g.log.committed := by
    obtain ⟨_, hr, -⟩ | ⟨ply, status, -, -, -, hf, -⟩ := (hg.kept h₀).update_cases hupdate
    · cases hr
    · exact ⟨_, congrArg Log.committed hf.log⟩
  obtain ⟨e, hlog⟩ := hlog
  rw [hlog, List.drop_succ_cons, List.drop_zero] at hdrop
  have heq := hg.eq_of_committed hk hdrop
  have hstatus : status' = k.status := by
    apply hanswer
    rw [Log.length, hlog, List.length_cons]
    omega
  refine ⟨k.log.undone, ?_⟩
  rw [hundo, hstatus, ← hdrop]
  rw [heq]

/-- A rook goes to and fro and then gives check; undoing the check gives the game back. -/
theorem undo_of_update_small : ∃ g₀ g status h,
    start .orthodox "w wKa1 wRb1 bKc3".toList smallConfig = .ok g₀ ∧
      g₀.run [.update ⟨.white, .ofCoords 1 0, .ofCoords 1 2⟩, .undo 1 true] = .ok g ∧
      g.update ⟨.white, .ofCoords 1 0, .ofCoords 2 0⟩ = .ok (.ok status, h) ∧
      status = .check .black ∧
      ∀ save, ∃ undone,
        h.undo 1 save = .ok (g.status, { g with log := ⟨g.log.committed, undone⟩ }) := by
  obtain ⟨g₀, g, status, h, hstart, hrun, hupdate, hstatus⟩ :=
    exists_accepted .orthodox "w wKa1 wRb1 bKc3".toList smallConfig
      [.update ⟨.white, .ofCoords 1 0, .ofCoords 1 2⟩, .undo 1 true]
      ⟨.white, .ofCoords 1 0, .ofCoords 2 0⟩ (fun _ _ status _ => status = .check .black)
      (by decide +kernel)
  exact ⟨g₀, g, status, h, hstart, hrun, hupdate, of_decide_eq_true hstatus,
    undo_of_update regular_orthodox hstart hrun hupdate⟩

/-- A piece that slides ahead and attacks on the last rank only. -/
def lance : CustomPiece where
  value := 3
  movements := [(Movement.slide (Orthodox.ray false true)).attackOnly.when
    (.onBoard Orthodox.ahead false)]

/-- The chessmen and the lance. -/
def lanceSet : PieceSet := ⟨.insert .empty "lance" lance⟩

/-- Whether two threat maps agree in both of their indices. -/
def sameThreats (m n : ThreatMap) : Bool := m.byPiece = n.byPiece && m.byPoint.lists = n.byPoint.lists

/-- Threat maps that agree in both of their indices are equal. -/
theorem eq_of_sameThreats {m n : ThreatMap} (h : sameThreats m n) : m = n := by
  rw [sameThreats, Bool.and_eq_true, decide_eq_true_eq, decide_eq_true_eq] at h
  cases m
  cases n
  exact (ThreatMap.mk.injEq ..).mpr ⟨Grid.ext_lists h.2, h.1⟩

/-- A pawn on the last rank that a lance attacks steps towards the lance and hides the rank from it.
The threat maps are those computed from nothing before the step, but once it is undone, saved or
not, the lance threatens nothing. -/
theorem undo_of_update_lance : ∃ g₀ h status,
    PieceSet.orthodox.register "lance" lance = .ok lanceSet ∧
      start lanceSet "b w~lance~a1 bPa3 bKc1 wKc3".toList smallConfig = .ok g₀ ∧
      g₀.rebuild.threats = g₀.threats ∧
      g₀.update ⟨.black, .ofCoords 0 2, .ofCoords 0 1⟩ = .ok (.ok status, h) ∧
      ∀ save, ∃ answer k, h.undo 1 save = .ok (answer, k) ∧ k.threats ≠ g₀.threats := by
  have hregister : PieceSet.orthodox.register "lance" lance = .ok lanceSet := by decide +kernel
  obtain ⟨g₀, g, status, h, hstart, hrun, hupdate, htest⟩ :=
    exists_accepted lanceSet "b w~lance~a1 bPa3 bKc1 wKc3".toList smallConfig []
      ⟨.black, .ofCoords 0 2, .ofCoords 0 1⟩
      (fun g₀ _ _ h => sameThreats g₀.rebuild.threats.white g₀.threats.white &&
        sameThreats g₀.rebuild.threats.black g₀.threats.black &&
        [true, false].all fun save => (h.undo 1 save).toOption.any fun r =>
          r.2.threats.white.reach ⟨0⟩ ≠ g₀.threats.white.reach ⟨0⟩) (by decide +kernel)
  obtain rfl := Except.ok.inj hrun
  rw [Bool.and_eq_true, Bool.and_eq_true, List.all_eq_true] at htest
  obtain ⟨⟨hwhite, hblack⟩, hlost⟩ := htest
  refine ⟨g₀, h, status, hregister, hstart, ?_, hupdate, fun save => ?_⟩
  · apply Sides.ext_get
    intro c
    cases c with
    | white => exact eq_of_sameThreats hwhite
    | black => exact eq_of_sameThreats hblack
  · have hsave : save ∈ [true, false] := by cases save <;> decide
    obtain ⟨⟨answer, k⟩, hundo, hne⟩ := (Option.any_eq_true _ _).1 (hlost save hsave)
    refine ⟨answer, k, toOption_eq_some_iff.1 hundo, fun heq => ?_⟩
    apply of_decide_eq_true hne
    rw [heq]

end Game

end VariantChess
