import MonitoredVm.Proofs.Disabling

/-!
# Instruction events

The table of `INSTRUCTION` is made when some event, whichever it is, gets a second tool, and it is made empty. The tools
that watched `INSTRUCTION` before are lost then: they are called again only once they enter anew. All others are called
at every instruction that can carry the overlay.
-/

namespace MonitoredVm

open ToolMask

/-- The tools that watched `INSTRUCTION` when its table was made and have not entered since. -/
def lost : List Happening → ToolMask
  | [] => 0
  | .aligned a :: before =>
    (if madeTable .instruction .instruction before then lost before
      else if a.callsForTable .instruction .instruction then LocalMonitors.get a.before .instruction
      else 0).without (LocalMonitors.get a.added .instruction)
  | .answered _ :: before => lost before

/-- No callback has disabled `INSTRUCTION`. -/
def silent : List Happening → Bool
  | [] => true
  | .aligned _ :: before => silent before
  | .answered c :: before => !(c.disables && decide (c.args.event = .instruction)) && silent before

namespace Cell

/-- The cell calls the active tools that are not `lost`; it reports wherever there are any. -/
structure Watched (c : Cell) (active lost : ToolMask) : Prop where
  bare : c.entry = none → active.Solo ∧ (active ≠ 0 → c.armed = true) ∧ lost = 0
  entry : ∀ m, c.entry = some m → m = active.without lost
  armed : ∀ m, c.entry = some m → m ≠ 0 → c.armed = true

namespace Watched
variable {c : Cell} {active lost : ToolMask}

theorem change (h : c.Watched active lost) (table : c.entry = some m) (restarted : Bool)
    (gone_eq : gone = if restarted then active else active.without after)
    (new_eq : new = if restarted then after else after.without active) :
    (c.change after gone new).Watched after (lost.without new) := by
  have m_eq := h.entry m table
  have left : m.without gone ||| new = after.without (lost.without new) := by
    apply ext_has
    intro t
    cases restarted <;> simp [m_eq, gone_eq, new_eq] <;> grind
  refine ⟨by simp [change_entry, table], fun k e => ?_, fun k e some_called => ?_⟩
  · simp only [change_entry, table, Option.map_some, Option.some.injEq] at e
    rw [← e, left]
  · simp only [change_entry, table, Option.map_some, Option.some.injEq] at e
    rw [change_armed]
    by_cases enters : new = 0#8
    · have kept : m.without gone ≠ 0 := by
        rw [← e, enters] at some_called
        simpa using some_called
      have called : m ≠ 0 := by
        rintro rfl
        exact kept (zero_without gone)
      exact .inr ⟨h.armed m table called, .inr (by simpa [leavesNone, table] using kept)⟩
    · exact .inl enters

theorem change_bare (h : c.Watched active lost) (none_there : c.entry = none) (restarted : Bool)
    (gone_eq : gone = if restarted then active else active.without after)
    (new_eq : new = if restarted then after else after.without active) (solo : after.Solo) :
    (c.change after gone new).Watched after 0 := by
  obtain ⟨solo_before, armed, -⟩ := h.bare none_there
  refine ⟨fun _ => ⟨solo, fun some_active => ?_, rfl⟩, by simp [change_entry, none_there],
    by simp [change_entry, none_there]⟩
  rw [change_armed]
  by_cases enters : new = 0#8
  · -- nobody enters, so the one active tool was active before and does not leave
    obtain ⟨t, has⟩ := (ne_zero_iff _).1 some_active
    have same : ∀ u, new.has u = false := (eq_zero_iff new).1 enters
    have was_active : active.has t = true := by
      have := same t
      cases restarted <;> simp [new_eq, has] at this
      exact this
    refine .inr ⟨armed ((ne_zero_iff _).2 ⟨t, was_active⟩), .inl ((eq_zero_iff _).2 fun u => ?_)⟩
    have stays := solo_before u t
    have := same u
    cases restarted <;> simp [gone_eq, new_eq] at this ⊢ <;> grind
  · exact .inl enters

theorem align (h : c.Watched (LocalMonitors.get a.before e) lost) :
    (c.align a .instruction e).Watched (LocalMonitors.get a.after e)
      ((if c.entry.isSome then lost
        else if a.callsForTable .instruction e then LocalMonitors.get a.before e
        else 0).without (LocalMonitors.get a.added e)) := by
  unfold Cell.align
  cases entry : c.entry with
  | some m =>
    rw [prepare_of_entry entry]
    exact h.change entry a.restarted (a.get_removed e) (a.get_added e)
  | none =>
    unfold prepare
    cases called : a.callsForTable .instruction e with
    | true =>
      have empty : (c.fill 0).entry = some 0 := by simp [fill, entry]
      have born : (c.fill 0).Watched (LocalMonitors.get a.before e) (LocalMonitors.get a.before e) := by
        refine ⟨fun none_there => ?_, fun m there => ?_, fun m there some_called => ?_⟩
        · rw [empty] at none_there
          cases none_there
        · rw [← Option.some.inj (empty.symm.trans there)]
          exact (without_self _).symm
        · exact absurd (Option.some.inj (empty.symm.trans there)).symm some_called
      exact born.change empty a.restarted (a.get_removed e) (a.get_added e)
    | false =>
      have bare := h.change_bare entry a.restarted (a.get_removed e) (a.get_added e)
        (Alignment.solo_of_not_callsForTable called)
      simpa using bare

end Watched
end Cell

namespace CodeState

/-- Without a `DISABLE`, instructions call the active tools that are not lost. -/
def InstructionsWatched (code : Code) (s : CodeState) : Prop :=
  silent s.history = true → ∀ i, code.eventAt .instruction i = some .instruction →
    (s.cell .instruction i).Watched (s.active .instruction) (lost s.history) ∧
      (s.cell .instruction i).entry.isSome = madeTable .instruction .instruction s.history

theorem kept_instructionsWatched : Kept InstructionsWatched where
  fresh code _ i _ := by
    rw [cell_ofCode]
    exact ⟨⟨fun _ => ⟨solo_zero, fun h => absurd rfl h, rfl⟩, nofun, nofun⟩, rfl⟩
  preset own stamps h quiet i event := by
    rw [cell_preset, active_preset]
    exact h quiet i event
  reported _ h := h
  realigned {e code s s'} _ r h quiet i event := by
    rw [r.history] at quiet ⊢
    obtain ⟨watched, made⟩ := h quiet i event
    rw [← before_alignment s e] at watched
    rw [r.cell .instruction i _ event, r.active]
    refine ⟨?_, ?_⟩
    · have aligned := watched.align
      rwa [made] at aligned
    · rw [Cell.isSome_align, made]
      rfl
  faulted {e code s s'} _ f h quiet i event := by
    rw [f.history] at quiet ⊢
    rcases f.cell .instruction i _ event with same | ⟨other, -⟩
    · rw [same, f.active]
      exact h quiet i event
    · cases other
  heeded {code s c} formed allowed h quiet i event := by
    rw [history_heed] at quiet ⊢
    obtain ⟨keeps, quiet⟩ := Bool.and_eq_true_iff.1 quiet
    have missed : c.hits code .instruction i .instruction = false := by
      refine Bool.eq_false_iff.2 fun hit => ?_
      simp only [Call.hits, Bool.or_eq_true, Bool.and_eq_true, decide_eq_true_eq] at hit
      rcases hit with ⟨disables, -, -, is_instruction⟩ | ⟨other, -⟩
      · simp [disables, is_instruction] at keeps
      · cases other
    rw [cell_heed formed allowed event, missed, active_heed]
    exact h quiet i event

end CodeState

/-- `INSTRUCTION` at the engine's version, as long as no callback disables it. It goes to the tools that have it enabled
and are not lost, and wherever there are any the overlay is there. So every instruction carries the overlay exactly if
some tool has `INSTRUCTION` enabled and fires it for exactly these tools if, and only if, none of them is lost. -/
theorem instruction_events {w : World} (reached : w.Reached fun e => !e.isLocal) {c : Nat} {code : Code}
    {s : CodeState} (current : w.Current c code s) (linable : s.Linable w.engine code)
    (quiet : silent s.history = true) {i : Nat} (mem : i ∈ code.offsetsFrom code.firstTraceable)
    (carries : (code.opcodeAt i).skipsInstructionOverlay = false) :
    s.overlayCalls w.engine.globals .instruction i .instruction =
        (s.enabled w.engine .instruction).without (lost s.history) ∧
      (s.overlayCalls w.engine.globals .instruction i .instruction ≠ 0 → (s.slot i).instruction = true) ∧
      ((s.slot i).instruction = true → s.enabled w.engine .instruction ≠ 0) ∧
      (((s.slot i).instruction = true ↔ s.enabled w.engine .instruction ≠ 0) ∧
          s.overlayCalls w.engine.globals .instruction i .instruction = s.enabled w.engine .instruction ↔
        s.enabled w.engine .instruction &&& lost s.history = 0) := by
  obtain ⟨sound, kept⟩ := CodeState.kept_instructionsWatched.reached reached current
  have event : code.eventAt .instruction i = some .instruction := by simp [Code.eventAt, mem, carries]
  have watched := (kept quiet i event).1
  have tame := sound.formed.tame event
  have same := sound.step.active current.monitored current.version linable .instruction rfl
  rw [CodeState.overlayCalls_eq same, ← same]
  have fired : (s.cell .instruction i).entry.getD (s.active .instruction) =
      (s.active .instruction).without (lost s.history) := by
    cases entry : (s.cell .instruction i).entry with
    | none => simp [(watched.bare entry).2.2]
    | some m => exact watched.entry m entry
  have reports : (s.active .instruction).without (lost s.history) ≠ 0 → (s.slot i).instruction = true := by
    intro some_called
    cases entry : (s.cell .instruction i).entry with
    | none =>
      obtain ⟨-, armed, none_lost⟩ := watched.bare entry
      exact armed (by simpa [none_lost] using some_called)
    | some m => exact watched.armed m entry (watched.entry m entry ▸ some_called)
  rw [fired]
  have all_called : (s.active .instruction).without (lost s.history) = s.active .instruction ↔
      s.active .instruction &&& lost s.history = 0 := by
    simp only [ToolMask.eq_iff_has]
    simp
  refine ⟨rfl, reports, tame.armed, fun both => all_called.1 both.2, fun none_lost => ?_⟩
  have all := all_called.2 none_lost
  exact ⟨⟨tame.armed, fun some_active => reports (by rwa [all])⟩, all⟩

/-- One tool watches `INSTRUCTION`; then two others come to share `CALL`. -/
def callShared : World :=
  World.after [{ steps := [.emit .resume (.literal 0), .emit .nop (.literal 0)] }] [] .error
    [.control (.useTool 0 "first"), .control (.useTool 1 "second"), .control (.useTool 2 "third"),
      .control (.setEvents 0 (EventSet.single .instruction)), .control (.instrument 0),
      .control (.setEvents 1 (EventSet.single .call)), .control (.setEvents 2 (EventSet.single .call))]

/-- The first tool still has `INSTRUCTION` enabled and no longer receives it. -/
theorem instruction_events_lost :
    (callShared.entry 0).state.enabled callShared.engine .instruction = ToolMask.single 0 ∧
      (callShared.entry 0).state.overlayCalls callShared.engine.globals .instruction 1 .instruction = 0 := by
  have reached : callShared.Reached fun e => !e.isLocal := ⟨_, _, _, _, by decide, rfl⟩
  have current : callShared.Current 0 (callShared.entry 0).code (callShared.entry 0).state :=
    ⟨by decide +kernel, rfl, rfl, by decide +kernel, by decide +kernel⟩
  have linable : (callShared.entry 0).state.Linable callShared.engine (callShared.entry 0).code :=
    fun enabled => absurd enabled (by decide +kernel)
  refine ⟨by decide +kernel, ?_⟩
  rw [(instruction_events reached current linable (by decide +kernel) (by decide +kernel) (by decide +kernel)).1]
  decide +kernel

end MonitoredVm
