import MonitoredVm.Proofs.Alignment
import MonitoredVm.Proofs.Moves

/-!
# Well-formed code objects

What every move keeps. Slots and tables have the size of the code and slots their compiled opcodes; only slots that
have an event report, and only tools that are active are called. A code object at the engine's version has exactly
the enabled events active, unless `LINE` is enabled on it and its lines are too far apart for a line table.
-/

namespace MonitoredVm

namespace CodeState

/-- A code object that fits its code. -/
structure Formed (code : Code) (s : CodeState) : Prop where
  sized : s.outline.Sized code.size
  base : ∀ i, (s.slot i).base = code.opcodeAt i
  lined : s.Lined code
  tame : ∀ {l i e}, code.eventAt l i = some e → (s.cell l i).Tame (s.active e)
  idle : ∀ {l i}, code.eventAt l i = none → (s.cell l i).armed = false

theorem cell_ofCode (code l i) : (ofCode code).cell l i = {} := by
  have slot : (ofCode code).slot i = { base := code.opcodeAt i } := by
    simp only [CodeState.slot, ofCode, Code.opcodeAt, Code.unitAt, Array.getElem?_map]
    cases code.units[i]? <;> rfl
  simp only [cell, slot]
  cases l <;> rfl

theorem formed_ofCode (code) : Formed code (ofCode code) where
  sized := ⟨by simp [outline, ofCode, Code.size], fun l m h => by simp [outline, ofCode] at h⟩
  base i := by
    simp only [slot, ofCode, Code.opcodeAt, Code.unitAt, Array.getElem?_map]
    cases code.units[i]? <;> rfl
  lined := ⟨fun t h => by simp [lines, ofCode] at h, fun h => by simp [active, ofCode] at h⟩
  tame _ := by
    rw [cell_ofCode]
    exact ⟨fun _ entry => absurd entry (by simp), fun on => absurd on (by simp)⟩
  idle _ := by rw [cell_ofCode]

theorem Formed.realigned (h : Formed code s) (r : Realigned e code s s') : Formed code s' where
  sized := r.sized
  base i := (r.base i).trans (h.base i)
  lined := by
    refine ⟨fun t there => ?_, fun enabled => r.lined (r.active .line ▸ enabled)⟩
    rw [r.lines] at there
    cases old : s.lines with
    | some t' =>
      have same : t' = t := by
        split at there <;> simpa [old] using there
      exact h.lined.built t (same ▸ old)
    | none =>
      split at there
      next => simp [old] at there
      next => simpa [old] using there
  tame {l i ev} event := by
    have tame := h.tame event
    rw [← before_alignment s e] at tame
    rw [r.cell l i ev event, r.active]
    exact tame.align
  idle {l i} none_there := (r.idle l i none_there).trans (h.idle none_there)

theorem Formed.faulted (h : Formed code s) (f : Faulted e code s s') : Formed code s' where
  sized := f.sized
  base i := (f.base i).trans (h.base i)
  lined := ⟨fun t there => h.lined.built t (f.lines ▸ there),
    fun enabled => f.lines ▸ h.lined.there (f.active .line ▸ enabled)⟩
  tame {l i ev} event := by
    have tame := h.tame event
    rw [f.active]
    rcases f.cell l i ev event with same | ⟨-, filled⟩
    · rwa [same]
    · rw [filled]
      refine tame.fill fun t has => ?_
      split at has
      next => exact has
      next => simp at has
  idle {l i} none_there := (f.armed l i).trans (h.idle none_there)

section preset
variable (s : CodeState) (own : LocalMonitors) (stamps : Vector Nat 8)

theorem table_preset (l : Layer) : (s.preset own stamps).data.bind l.table = s.data.bind l.table := by
  cases data : s.data <;> cases l <;> simp [preset, Layer.table, data]

theorem active_preset (e) : (s.preset own stamps).active e = s.active e := by
  cases data : s.data <;> simp [preset, active, data]

theorem lines_preset : (s.preset own stamps).lines = s.lines := by
  cases data : s.data <;> simp [preset, lines, data]

theorem cell_preset (l i) : (s.preset own stamps).cell l i = s.cell l i := by
  have slot : (s.preset own stamps).slot i = s.slot i := rfl
  simp only [cell, table_preset, slot]

end preset

theorem Formed.preset (h : Formed code s) (own) (stamps : Vector Nat 8) : Formed code (s.preset own stamps) where
  sized := by
    refine ⟨h.sized.slots, fun l m sizes => h.sized.table l m ?_⟩
    simpa only [outline, table_preset] using sizes
  base := h.base
  lined := ⟨fun t there => h.lined.built t (lines_preset s own stamps ▸ there), fun enabled => by
    rw [active_preset] at enabled
    rw [lines_preset]
    exact h.lined.there enabled⟩
  tame event := by
    rw [cell_preset, active_preset]
    exact h.tame event
  idle none_there := by
    rw [cell_preset]
    exact h.idle none_there

theorem Formed.force (h : Formed code s) (grid : code.OnGrid) (e : Engine) : Formed code (e.force code s).1 := by
  cases monitored : code.noMonitoring with
  | true =>
    rw [Engine.force, if_pos monitored]
    exact h
  | false =>
    rcases force_cases e monitored grid h.sized h.lined with ⟨-, r⟩ | ⟨-, f⟩
    · exact h.realigned r
    · exact h.faulted f

theorem Formed.remove (h : Formed code s) (l i e tools) : Formed code (s.remove l i e tools) := by
  cases data : s.data with
  | none =>
    rw [CodeState.remove, data]
    exact h
  | some d =>
    have outline := outline_remove s l i e tools
    have cell := cell_remove (s := s) (by rw [data]; rfl) l
    refine ⟨outline ▸ h.sized, fun j => ?_, ⟨fun t there => ?_, fun enabled => ?_⟩, ?_, ?_⟩
    · exact (congrFun (congrArg Outline.base outline) j).trans (h.base j)
    · exact h.lined.built t (lines_of_outline outline ▸ there)
    · rw [active_of_outline outline] at enabled
      rw [lines_of_outline outline]
      exact h.lined.there enabled
    · intro k j ev event
      rw [cell, active_of_outline outline]
      split
      next => exact (h.tame event).remove _ _
      next => exact h.tame event
    · intro k j none_there
      rw [cell]
      split
      next => simp [Cell.remove, h.idle none_there]
      next => exact h.idle none_there

theorem outline_heed (s : CodeState) (code c) :
    (s.heed code c).outline = { s.outline with history := .answered c :: s.history } := by
  have noted : ({ s with history := .answered c :: s.history } : CodeState).outline =
    { s.outline with history := .answered c :: s.history } := rfl
  unfold heed
  dsimp only
  rw [← noted]
  split <;> split <;> simp only [outline_remove]

theorem history_heed (s : CodeState) (code c) : (s.heed code c).history = .answered c :: s.history :=
  congrArg Outline.history (outline_heed s code c)

theorem version_heed (s : CodeState) (code c) : (s.heed code c).version = s.version :=
  congrArg Outline.version (outline_heed s code c)

theorem active_heed (s : CodeState) (code c e) : (s.heed code c).active e = s.active e :=
  active_of_outline (s := { s with history := .answered c :: s.history }) (outline_heed s code c) e

theorem own_heed (s : CodeState) (code c e) : (s.heed code c).own e = s.own e :=
  own_of_outline (s := { s with history := .answered c :: s.history }) (outline_heed s code c) e

theorem Formed.noted (h : Formed code s) (history changes) : Formed code { s with history, changes } :=
  ⟨⟨h.sized.slots, h.sized.table⟩, h.base, ⟨h.lined.built, h.lined.there⟩, h.tame, h.idle⟩

theorem Formed.heed (h : Formed code s) (c) : Formed code (s.heed code c) := by
  have noted := h.noted (.answered c :: s.history) s.changes
  unfold CodeState.heed
  dsimp only
  split
  next =>
    split
    · exact (noted.remove ..).remove ..
    · exact noted.remove ..
  next =>
    split
    · exact noted.remove ..
    · exact noted

theorem Formed.move (h : Formed code s) (grid : code.OnGrid) (m : Move rule e code s s') : Formed code s' := by
  cases m with
  | forced => exact h.force grid e
  | stamped stamps => exact h.preset (s.data.getD {}).own stamps
  | localSet own stamps => exact (h.preset own stamps).force grid e
  | answered => exact h.heed _

/-! Being in step with the engine -/

/-- The tools that have an event enabled, for all code or for this code object. -/
def enabled (s : CodeState) (e : Engine) (ev : Event) : ToolMask := GlobalMonitors.get e.globals ev ||| s.own ev

/-- The tools that an overlay event fired at `i` goes to. -/
def overlayCalls (s : CodeState) (globals : GlobalMonitors) (l : Layer) (i : Nat) (ev : Event) : ToolMask :=
  match s.data with
  | none => 0
  | some d => overlayTools d (l.table d) globals i ev

theorem overlayCalls_eq {s : CodeState} {e : Engine} (same : s.active ev = s.enabled e ev) (l i) :
    s.overlayCalls e.globals l i ev = (s.cell l i).entry.getD (s.active ev) := by
  unfold overlayCalls
  cases data : s.data with
  | none => simp [cell, active, data]
  | some d =>
    rw [same]
    cases table : l.table d <;> simp [overlayTools, enabled, own, cell, data, table]

/-- The tools that a step at `i` calls for the event of a layer. -/
def stepTools (s : CodeState) (globals : GlobalMonitors) (l : Layer) (i : Nat) (ev : Event) : ToolMask :=
  if l.armed (s.slot i) then
    match l with
    | .opcode => s.toolsAt globals i ev
    | .line | .instruction => s.overlayCalls globals l i ev
  else 0

theorem stepTools_opcode (s : CodeState) (globals i) (isLocal : ev.isLocal = true) :
    s.stepTools globals .opcode i ev = (s.cell .opcode i).calls (s.active ev) := by
  have masked : ev.maskEvent = ev := by cases ev <;> first | rfl | simp [Event.isLocal, Event.id] at isLocal
  have tools : s.toolsAt globals i ev = (s.cell .opcode i).entry.getD (s.active ev) := by
    simp only [toolsAt, masked, isLocal, if_pos, cell, active]
    cases data : s.data with
    | none => rfl
    | some d => cases table : d.tools <;> simp [Layer.table, table]
  unfold stepTools Cell.calls
  rw [tools]
  rfl

theorem stepTools_eq {s : CodeState} {e : Engine} {ev : Event} (same : s.active ev = s.enabled e ev)
    (isLocal : ev.isLocal = true) : s.stepTools e.globals l i ev = (s.cell l i).calls (s.active ev) := by
  cases l with
  | opcode => exact stepTools_opcode s e.globals i isLocal
  | line =>
    unfold stepTools Cell.calls
    rw [← overlayCalls_eq same]
    rfl
  | instruction =>
    unfold stepTools Cell.calls
    rw [← overlayCalls_eq same]
    rfl

/-- `LINE` is not enabled, or the code has a line table. -/
def Linable (s : CodeState) (e : Engine) (code : Code) : Prop :=
  s.enabled e .line ≠ 0 → (LineTable.build code).isSome = true

/-- A code object is at most at the engine's version, and when it is the enabled events are active. -/
structure InStep (e : Engine) (code : Code) (s : CodeState) : Prop where
  behind : s.version ≤ e.version
  active : code.noMonitoring = false → s.version = e.version → s.Linable e code →
    ∀ ev : Event, ev.isLocal = true → s.active ev = s.enabled e ev

theorem after_alignment (s : CodeState) (e : Engine) (h : ev.isLocal = true) :
    LocalMonitors.get (s.alignment e).after ev = GlobalMonitors.get e.globals ev ||| LocalMonitors.get (s.keptOwn e) ev :=
  GlobalMonitors.get_union e.globals (s.keptOwn e) h

theorem inStep_force (h : Formed code s) (grid : code.OnGrid) (behind : s.version ≤ e.version) :
    InStep e code (e.force code s).1 := by
  cases monitored : code.noMonitoring with
  | true =>
    rw [Engine.force, if_pos monitored]
    exact ⟨behind, fun unmonitored => by rw [monitored] at unmonitored; cases unmonitored⟩
  | false =>
    rcases force_cases e monitored grid h.sized h.lined with ⟨-, r⟩ | ⟨-, f⟩
    · refine ⟨Nat.le_of_eq r.version, fun _ _ _ ev isLocal => ?_⟩
      rw [r.active, after_alignment s e isLocal, enabled, r.own]
    · refine ⟨f.version ▸ behind, fun _ _ linable => ?_⟩
      have line_enabled := f.enabled
      rw [after_alignment s e rfl, ← f.own] at line_enabled
      have built := linable line_enabled
      rw [f.unbuilt] at built
      cases built

theorem InStep.move (h : InStep e code s) (formed : Formed code s) (grid : code.OnGrid) (m : Move rule e code s s') :
    InStep e code s' := by
  cases m with
  | forced => exact inStep_force formed grid h.behind
  | stamped stamps =>
    have enabled : ∀ ev, (s.preset (s.data.getD {}).own stamps).enabled e ev = s.enabled e ev := by
      intro ev
      cases data : s.data <;> simp [CodeState.enabled, preset, CodeState.own, data]
    have step : InStep e code (s.preset (s.data.getD {}).own stamps) := by
      refine ⟨h.behind, fun monitored current linable ev isLocal => ?_⟩
      rw [active_preset, enabled]
      exact h.active monitored current (by simpa only [Linable, enabled] using linable) ev isLocal
    exact step
  | localSet own stamps => exact inStep_force (formed.preset own stamps) grid h.behind
  | @answered c =>
    have enabled : ∀ ev, (s.heed code c).enabled e ev = s.enabled e ev := fun ev => by
      simp only [CodeState.enabled, own_heed]
    refine ⟨version_heed s code c ▸ h.behind, fun monitored current linable ev isLocal => ?_⟩
    rw [version_heed] at current
    rw [active_heed, enabled]
    exact h.active monitored current (by simpa only [Linable, enabled] using linable) ev isLocal

end CodeState

/-- No event is enabled before the first change. -/
def Engine.Begun (e : Engine) : Prop := e.version = 0 → ∀ ev, GlobalMonitors.get e.globals ev = 0

theorem CodeState.inStep_ofCode (begun : e.Begun) (code) : InStep e code (ofCode code) := by
  refine ⟨Nat.zero_le _, fun _ current _ ev _ => ?_⟩
  have none_enabled := begun current.symm ev
  simp [enabled, none_enabled, active, own, ofCode]

end MonitoredVm
