import MonitoredVm.Proofs.Disabling

/-!
# Opcode events

The tools called for the event of an instruction are those active for it, less those that disabled it there. This is
so whether the tools are read off the active events or off a table, and through every change between the two.
-/

namespace MonitoredVm

namespace CodeState

/-- At every slot exactly the active tools that did not disable it there are called. -/
def OpcodesExact (code : Code) (s : CodeState) : Prop :=
  ∀ i e, code.eventAt .opcode i = some e →
    (s.cell .opcode i).Exact (s.active e) (disabledAt code .opcode i e s.history)

theorem kept_opcodesExact : Kept OpcodesExact where
  fresh code i e _ := by
    rw [cell_ofCode]
    exact ⟨by simp [active, ofCode, disabledAt], nofun, fun _ => ToolMask.solo_zero⟩
  preset own stamps h i e event := by
    rw [cell_preset, active_preset]
    exact h i e event
  reported _ h := h
  realigned {e code s s'} _ r h i ev event := by
    have before := h i ev event
    rw [← before_alignment s e] at before
    rw [r.cell .opcode i ev event, r.active, r.history]
    exact before.align
  faulted {e code s s'} _ f h i ev event := by
    have before := h i ev event
    rw [f.active, f.history]
    rcases f.cell .opcode i ev event with same | ⟨-, filled⟩
    · rwa [same]
    · rw [filled]
      exact before.fill
  heeded {code s c} formed allowed h i ev event := by
    have before := h i ev event
    rw [cell_heed formed allowed event, active_heed, history_heed, disabledAt]
    split
    next => exact before.remove _
    next => exact before

end CodeState

/-- Opcode events at the engine's version. The enabled events are the active ones, except on code with `LINE` enabled
and no line table; at every instruction with an event the tools called are those active for it, less those that
disabled it there, and the instruction is instrumented exactly if there are any. -/
theorem opcode_events {w : World} (reached : w.Reached fun e => !e.isLocal) {c : Nat} {code : Code} {s : CodeState}
    (current : w.Current c code s) :
    ((∀ e : Event, e.isLocal = true → s.active e = s.enabled w.engine e) ↔ s.Linable w.engine code) ∧
      ∀ i ∈ code.offsetsFrom code.firstTraceable, ∀ e, (code.opcodeAt i).event? (code.oparg i) = some e →
        s.stepTools w.engine.globals .opcode i e = (s.active e).without (disabledAt code .opcode i e s.history) ∧
          ((s.slot i).instrumented = true ↔ s.stepTools w.engine.globals .opcode i e ≠ 0) := by
  obtain ⟨sound, exact_there⟩ := CodeState.kept_opcodesExact.reached reached current
  refine ⟨⟨fun all enabled => ?_, sound.step.active current.monitored current.version⟩, fun i mem e is_event => ?_⟩
  · rw [← all .line rfl] at enabled
    have there := sound.formed.lined.there enabled
    obtain ⟨t, some_t⟩ := Option.isSome_iff_exists.1 there
    rw [sound.formed.lined.built t some_t]
    rfl
  · have event : code.eventAt .opcode i = some e := by simp [Code.eventAt, mem, is_event]
    have at_i := exact_there i e event
    rw [s.stepTools_opcode w.engine.globals i (Code.isLocal_eventAt event), at_i.calls_eq]
    exact ⟨rfl, at_i.armed⟩

/-- Two tools watch `CALL`, and the first one disables it where it is called. -/
def callDisabled : World :=
  World.after [{ steps := [.emit .resume (.literal 0), .emit .call (.literal 0)] }] [.scripted [.disable] [] 0] .error
    [.control (.useTool 0 "first"), .control (.useTool 1 "second"),
      .control (.register 0 (EventSet.single .call) (some 0)), .control (.setEvents 0 (EventSet.single .call)),
      .control (.setEvents 1 (EventSet.single .call)), .thread 0 (.step 0 1 none false)]

/-- A tool asks for `CALL` and `LINE` on code whose second line is out of reach of a line table. -/
def lineOutOfReach : World :=
  World.after
    [{ firstLine := some 1
       steps := [.emit .resume (.literal 0), .line (.literal 0x80000000), .emit .call (.literal 0)] }] [] .error
    [.control (.useTool 0 "tool"), .control (.setLocal 0 0 (EventSet.single .call ||| EventSet.single .line))]

/-- The tool that disabled the call is no longer called there; and where there is no line table the enabled events are
not active. -/
theorem opcode_events_call :
    (callDisabled.entry 0).state.stepTools callDisabled.engine.globals .opcode 1 .call = ToolMask.single 1 ∧
      ¬ ∀ e : Event, e.isLocal = true →
        (lineOutOfReach.entry 0).state.active e = (lineOutOfReach.entry 0).state.enabled lineOutOfReach.engine e := by
  have disabled_reached : callDisabled.Reached fun e => !e.isLocal := ⟨_, _, _, _, by decide, rfl⟩
  have disabled_current : callDisabled.Current 0 (callDisabled.entry 0).code (callDisabled.entry 0).state :=
    ⟨by decide +kernel, rfl, rfl, by decide +kernel, by decide +kernel⟩
  have unlined_reached : lineOutOfReach.Reached fun e => !e.isLocal := ⟨_, _, _, _, by decide, rfl⟩
  have unlined_current : lineOutOfReach.Current 0 (lineOutOfReach.entry 0).code (lineOutOfReach.entry 0).state :=
    ⟨by decide +kernel, rfl, rfl, by decide +kernel, by decide +kernel⟩
  constructor
  · have calls := (opcode_events disabled_reached disabled_current).2
    rw [(calls 1 (by decide +kernel) .call (by decide +kernel)).1]
    decide +kernel
  · rw [(opcode_events unlined_reached unlined_current).1]
    intro linable
    exact absurd (linable (by decide +kernel)) (by decide +kernel)

end MonitoredVm
