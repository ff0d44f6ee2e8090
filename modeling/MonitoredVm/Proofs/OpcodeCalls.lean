import MonitoredVm.Proofs.Disabling

/-!
# Opcode events from one alignment to the next

Whatever history a code object has, also one in which events were fired by hand from slots that do not report them, an
alignment makes of the tools called for an opcode event those that stay active and those that become so. Who is called after
it therefore depends, tool by tool, on who was called before it (`CodeState.Realigned.has_stepTools`).
-/

namespace MonitoredVm

open ToolMask

/-- A cell that does not report has no tool in its entry. -/
def Cell.Hushed (c : Cell) : Prop := c.armed = false → ∀ m, c.entry = some m → m = 0

namespace Cell
variable {c : Cell}

theorem Hushed.remove (h : c.Hushed) (active tools) : (c.remove active tools).Hushed := by
  intro off m there
  obtain ⟨k, old, rfl⟩ := Option.map_eq_some_iff.1 there
  cases on : c.armed with
  | false =>
    rw [h on k old]
    exact zero_without _
  | true =>
    have left : c.leavesNone active tools = true := by simpa [Cell.remove, on] using off
    simpa [leavesNone, old] using left

theorem Hushed.fill (h : c.Hushed) (active) : (c.fill (if c.armed then active else 0)).Hushed := by
  intro (off : c.armed = false) m there
  cases there
  cases old : c.entry with
  | some k => exact h off k old
  | none => simp [off]

theorem Hushed.change (h : c.Hushed) (active gone new) : (c.change active gone new).Hushed := by
  unfold Cell.change
  dsimp only
  split
  · split
    · exact h
    · exact h.remove active gone
  · exact nofun

theorem Tame.calls_le (h : c.Tame active) (called : (c.calls active).has t = true) : active.has t = true := by
  unfold calls at called
  split at called
  · cases old : c.entry with
    | some m => exact h.entry m old t (by simpa [old] using called)
    | none => simpa [old] using called
  · simp at called

theorem calls_change_some (h : c.Hushed) (tame : c.Tame before) (old : c.entry = some m) :
    (c.change after (before.without after) (after.without before)).calls after =
      (c.calls before &&& after) ||| after.without before := by
  have armed := change_armed c after (before.without after) (after.without before)
  have entry := change_entry c after (before.without after) (after.without before)
  generalize c.change after (before.without after) (after.without before) = c' at armed entry ⊢
  have known := tame.entry m old
  have left : m.without (before.without after) ||| after.without before =
      (c.calls before &&& after) ||| after.without before := by
    apply ext_has
    intro t
    have inside := known t
    cases on : c.armed with
    | true =>
      simp [calls, on, old]
      grind
    | false => simp [calls, on, h on m old]
  rw [calls, entry, old, Option.map_some, Option.getD_some, ← left]
  split
  next => rfl
  next off =>
    obtain ⟨none_enter, stopped⟩ := not_or.1 (mt armed.2 off)
    have none_enter := Decidable.not_not.1 none_enter
    cases on : c.armed with
    | true =>
      obtain ⟨-, none_left⟩ := not_or.1 (fun both => stopped ⟨on, both⟩)
      have none_left : m.without (before.without after) = 0 := by simpa [leavesNone, old] using none_left
      rw [none_left, none_enter]
      rfl
    | false =>
      rw [h on m old, none_enter]
      simp

theorem calls_change_none (old : c.entry = none) (solo : after.Solo) :
    (c.change after (before.without after) (after.without before)).calls after =
      (c.calls before &&& after) ||| after.without before := by
  have armed := change_armed c after (before.without after) (after.without before)
  have entry := change_entry c after (before.without after) (after.without before)
  generalize c.change after (before.without after) (after.without before) = c' at armed entry ⊢
  rw [calls, entry, old, Option.map_none, Option.getD_none]
  cases on : c.armed with
  | true =>
    have all : (c.calls before &&& after) ||| after.without before = after := by
      apply ext_has
      intro t
      simp [calls, on, old]
      grind
    rw [all]
    split
    next => rfl
    next off =>
      -- the slot stops only if nobody is active any more
      obtain ⟨-, stopped⟩ := not_or.1 (mt armed.2 off)
      obtain ⟨-, none_left⟩ := not_or.1 (fun both => stopped ⟨on, both⟩)
      have none_left : after &&& before.without after = after := by simpa [leavesNone, old] using none_left
      refine ((eq_zero_iff _).2 fun t => ?_).symm
      have there := congrArg (ToolMask.has · t) none_left
      simp at there
      grind
  | false =>
    have new : (c.calls before &&& after) ||| after.without before = after.without before := by simp [calls, on]
    rw [new]
    split
    next starts =>
      -- who is active is alone, and has just become so
      have enters : after.without before ≠ 0 := (armed.1 starts).resolve_right fun was => by rw [on] at was; cases was.1
      obtain ⟨x, there⟩ := (ne_zero_iff _).1 enters
      apply ext_has
      intro t
      simp only [has_without, ToolMask.Solo] at there solo ⊢
      grind
    next off => exact (Decidable.not_not.1 (not_or.1 (mt armed.2 off)).1).symm

theorem calls_change (h : c.Hushed) (tame : c.Tame before) (solo : c.entry = none → after.Solo) :
    (c.change after (before.without after) (after.without before)).calls after =
      (c.calls before &&& after) ||| after.without before := by
  cases old : c.entry with
  | some m => exact calls_change_some h tame old
  | none => exact calls_change_none old (solo old)

variable {a : Alignment} {e : Event}

theorem Hushed.align (h : c.Hushed) : (c.align a .opcode e).Hushed := by
  refine Hushed.change ?_ _ _ _
  unfold prepare
  split
  · exact h.fill _
  · exact h

theorem calls_prepare : (c.prepare a .opcode e).calls (LocalMonitors.get a.before e) = c.calls (LocalMonitors.get a.before e) := by
  unfold prepare
  split
  · cases on : c.armed <;> cases old : c.entry <;> simp [calls, Cell.fill, Alignment.born, on, old]
  · rfl

theorem calls_align (h : c.Hushed) (tame : c.Tame (LocalMonitors.get a.before e)) :
    (c.align a .opcode e).calls (LocalMonitors.get a.after e) =
      if a.restarted then LocalMonitors.get a.after e
      else (c.calls (LocalMonitors.get a.before e) &&& LocalMonitors.get a.after e) |||
        (LocalMonitors.get a.after e).without (LocalMonitors.get a.before e) := by
  split
  next again =>
    rw [(tame.align_restarted again).calls_eq]
    exact without_zero _
  next going_on =>
    have prepared : (c.prepare a .opcode e).Hushed ∧ (c.prepare a .opcode e).Tame (LocalMonitors.get a.before e) := by
      unfold prepare
      split
      · refine ⟨h.fill _, tame.fill fun t has => ?_⟩
        simp only [Alignment.born] at has
        split at has
        · exact has
        · simp at has
      · exact ⟨h, tame⟩
    rw [align, a.get_removed, a.get_added, if_neg going_on, if_neg going_on, ← calls_prepare]
    exact calls_change prepared.1 prepared.2 fun none_there =>
      Alignment.solo_of_not_callsForTable (entry_prepare_none none_there)

end Cell

namespace CodeState

/-- No slot that does not report its opcode event has a tool in the table. -/
def Hushed (code : Code) (s : CodeState) : Prop :=
  ∀ i e, code.eventAt .opcode i = some e → (s.cell .opcode i).Hushed

theorem Hushed.heed {s : CodeState} (formed : s.Formed code) (h : s.Hushed code) : (s.heed code c).Hushed code := by
  intro i e event
  have sibling : ((s.heedSibling code c).cell .opcode i).Hushed := by
    rw [cell_heedSibling formed c event]
    split
    · exact (h i e event).remove _ _
    · exact h i e event
  rw [heed_eq]
  split
  · rw [(formed.heedSibling c).cell_remove event]
    split
    · exact sibling.remove _ _
    · exact sibling
  · exact sibling

theorem kept_hushed : Kept fun code s => s.Hushed code where
  fresh code i e _ _ m there := by
    rw [cell_ofCode] at there
    cases there
  preset own stamps h i e event := by
    rw [cell_preset]
    exact h i e event
  reported _ h := h
  realigned {e code s s'} _ r h i ev event := by
    rw [r.cell .opcode i ev event]
    exact (h i ev event).align
  faulted {e code s s'} _ f h i ev event := by
    rcases f.cell .opcode i ev event with same | ⟨-, filled⟩
    · rw [same]
      exact h i ev event
    · rw [filled]
      exact (h i ev event).fill _
  heeded formed _ h := h.heed formed

theorem invariant_hushed (rule) : Invariant rule fun e code s => Sound e code s ∧ s.Hushed code :=
  kept_hushed.invariant_of fun formed _ h => h.heed formed

/-- A tool is called for an opcode event after an alignment if it is active and was called before, or was not active. -/
theorem Realigned.has_stepTools {e : Engine} {code : Code} {s s' : CodeState} (r : s.Realigned e code s')
    (formed : s.Formed code) (hushed : s.Hushed code) (globals globals') {i ev}
    (event : code.eventAt .opcode i = some ev) (t) :
    (s'.stepTools globals' .opcode i ev).has t = ((s'.active ev).has t &&
      (decide (s.version < e.lastRestart) || (s.stepTools globals .opcode i ev).has t || !(s.active ev).has t)) := by
  have isLocal := Code.isLocal_eventAt event
  have tame := formed.tame event
  rw [← before_alignment s e] at tame
  rw [stepTools_opcode s' globals' i isLocal, stepTools_opcode s globals i isLocal, r.cell .opcode i ev event, r.active,
    Cell.calls_align (hushed i ev event) tame, before_alignment]
  have again : (s.alignment e).restarted = decide (s.version < e.lastRestart) := rfl
  rw [again]
  split
  next behind => simp [behind]
  next current =>
    rw [Bool.eq_false_iff.2 current]
    simp
    grind

end CodeState
end MonitoredVm
