import MonitoredVm.Proofs.Coverage

/-!
# Places that one tool has given up

With a single tool no event is ever shared, so no tool table is made and a slot reports or does not. Of two states of a
code object that differ in where they report only, one may be thinner: every place it lacks has nothing more to tell.
Bringing both in line, and taking note of answers, keeps it so.
-/

namespace MonitoredVm

namespace ToolMask

def Only (t : Nat) (m : ToolMask) : Prop := ∀ s, m.has s = true → s = t

variable {t : Nat} {m m' : ToolMask}

theorem only_zero : Only t 0 := fun s h => by simp at h

theorem Only.union (h : m.Only t) (h' : m'.Only t) : Only t (m ||| m') := by
  intro s has
  rw [has_or, Bool.or_eq_true] at has
  exact has.elim (h s) (h' s)

theorem Only.without (h : m.Only t) (tools) : Only t (m.without tools) := by
  intro s has
  rw [has_without, Bool.and_eq_true] at has
  exact h s has.1

theorem only_single (t) : Only t (single t) := by
  intro s has
  rw [has_single, Bool.and_eq_true] at has
  exact (of_decide_eq_true has.2).symm

theorem Only.tools_eq (h : m.Only t) : m.tools = if m.has t then [t] else [] := by
  have each : ∀ s, m.has s = (m.has t && decide (s = t)) := by
    intro s
    cases has : m.has s with
    | false =>
      by_cases same : s = t
      · rw [← same, has]
        rfl
      · simp [same]
    | true =>
      obtain rfl := h s has
      simp [has]
  unfold tools
  rw [List.filter_congr fun s _ => each s]
  split
  next on =>
    have alone : ∀ t < 8, [7, 6, 5, 4, 3, 2, 1, 0].filter (fun s => true && decide (s = t)) = [t] := by decide
    rw [on]
    exact alone t (lt_of_has on)
  next off => simp [off]

end ToolMask

namespace Monitors
variable {n : Nat} {t : Nat} {m : Monitors n}

def Only (t : Nat) (m : Monitors n) : Prop := ∀ e, (m.mask e).Only t

theorem only_none : (none : Monitors n).Only t := fun e => by
  rw [mask_none]
  exact ToolMask.only_zero

theorem only_ofFn (h : ∀ e, (f e).Only t) : (ofFn f : Monitors n).Only t := by
  intro e
  rw [mask_ofFn]
  split
  next => exact h e
  next => exact ToolMask.only_zero

theorem Only.setEvents (h : m.Only t) (events) : (m.setEvents t events).Only t := by
  refine only_ofFn fun e => ?_
  split
  next => exact (h e).union (ToolMask.only_single t)
  next => exact (h e).without _

theorem Only.dropTools (h : m.Only t) (tools : List Nat) : (tools.foldl clearTool m).Only t := by
  induction tools generalizing m with
  | nil => exact h
  | cons s rest ih => exact ih (only_ofFn fun e => (h e).without _)

theorem Only.not_shared (h : m.Only t) : m.isShared = false := by
  refine Vector.any_eq_false.2 fun e lt => ?_
  have mask : m.masks[e] = m.mask e := by simp [Monitors.mask, lt]
  rw [mask, (h e).tools_eq]
  split <;> simp

end Monitors

theorem GlobalMonitors.only_union {t : Nat} {g : GlobalMonitors} {own : LocalMonitors} (h : Monitors.Only t g)
    (h' : Monitors.Only t own) : Monitors.Only t (g.union own) :=
  Monitors.only_ofFn fun e => (h e).union (h' e)

theorem MonitoringData.bare_eq (h : ∀ l : Layer, l.table d = none) : d.bare = d := by
  have opcode := h .opcode
  have line := h .line
  have instruction := h .instruction
  obtain ⟨own, active, tools, lines, lineTools, instructionTools, stamps⟩ := d
  simp only [Layer.table] at opcode line instruction
  simp only [bare, opcode, line, instruction]

theorem Cell.armed_align (one : a.after.isShared = false) (l e) : ∃ starts keeps : Prop, ∀ x : Bool,
      (({ armed := x } : Cell).align a l e).armed = true ↔ starts ∨ x = true ∧ keeps := by
  refine ⟨LocalMonitors.get a.added e ≠ 0, LocalMonitors.get a.removed e = 0 ∨
    (LocalMonitors.get a.after e &&& LocalMonitors.get a.removed e == LocalMonitors.get a.after e) = false, fun x => ?_⟩
  have unprepared : ({ armed := x } : Cell).prepare a l e = { armed := x } := by
    rw [prepare, Alignment.callsForTable, one]
    rfl
  rw [align, unprepared, change_armed]
  exact Iff.rfl

namespace CodeState
variable {t : Nat} {code : Code} {saw saw' : Layer → Nat → Prop} {s s' : CodeState}

/-- Only one tool watches the code object, and there are no tool tables. -/
structure Lone (t : Nat) (s : CodeState) : Prop where
  own : (s.data.getD {}).own.Only t
  active : (s.data.getD {}).active.Only t
  table : ∀ l : Layer, s.data.bind l.table = none

theorem Lone.cell_eq (h : s.Lone t) (l : Layer) (i) : s.cell l i = { armed := l.armed (s.slot i) } := by
  rw [cell, h.table l]
  rfl

theorem Lone.of_data (h : s.Lone t) (same : s'.data = s.data) : s'.Lone t :=
  ⟨same ▸ h.own, same ▸ h.active, same ▸ h.table⟩

theorem Lone.data_of_outline (h : s.Lone t) (same : s'.outline = s.outline) : s'.data = s.data := by
  have data : s'.data.map MonitoringData.bare = s.data.map MonitoringData.bare := congrArg Outline.data same
  have table : ∀ l : Layer, s'.data.bind l.table = none := by
    intro l
    have sizes : (s'.data.bind l.table).map Array.size = (s.data.bind l.table).map Array.size :=
      congrFun (congrArg Outline.tableSize same) l
    rw [h.table l] at sizes
    exact Option.map_eq_none_iff.1 sizes
  have bare : ∀ {r : CodeState}, (∀ l : Layer, r.data.bind l.table = none) →
      r.data.map MonitoringData.bare = r.data := by
    intro r none_there
    cases there : r.data with
    | none => rfl
    | some d =>
      rw [there] at none_there
      exact congrArg some (MonitoringData.bare_eq none_there)
  rwa [bare table, bare h.table] at data

theorem Lone.preset (h : s.Lone t) {own} (only : own.Only t) (stamps : Vector Nat 8) : (s.preset own stamps).Lone t :=
  ⟨only, h.active, fun l => (table_preset s own stamps l).trans (h.table l)⟩

theorem Lone.only_keptOwn (h : s.Lone t) (e) : (s.keptOwn e).Only t := h.own.dropTools _

section force
variable {e : Engine} (h : s.Lone t) (only : Monitors.Only t e.globals)
include h only

theorem Lone.only_after : (s.alignment e).after.Only t := GlobalMonitors.only_union only (h.only_keptOwn e)

theorem Lone.madeTable_eq (l) : s.madeTable? e code l = none := by
  have one := (h.only_after only).not_shared
  unfold madeTable? newTable?
  rw [h.table l, if_neg (by simp [one])]
  rfl

theorem Lone.abandoned : (s.abandoned e code).Lone t := by
  refine ⟨h.only_keptOwn e, h.active, fun l => ?_⟩
  rw [table_abandoned, h.madeTable_eq only, h.table l]
  split <;> rfl

theorem Lone.prepared : (s.prepared e code).Lone t :=
  ⟨h.only_keptOwn e, h.only_after only, fun l => (table_prepared s e code l).trans (h.madeTable_eq only l)⟩

theorem Lone.data_force (sized : s.outline.Sized code.size) (monitored : code.noMonitoring = false) :
    (e.force code s).1.data =
      if LocalMonitors.get (s.alignment e).after .line ≠ 0 ∧ (s.madeLines? e code).isNone then
        (s.abandoned e code).data
      else (s.prepared e code).data := by
  rw [force_eq e monitored]
  split
  next => rfl
  next =>
    split
    next => rfl
    next =>
      have swept := (h.prepared only).data_of_outline (cell_update rfl (sized_prepared e sized) (s.alignment e)).1
      exact swept

theorem Lone.force (sized : s.outline.Sized code.size) : (e.force code s).1.Lone t := by
  cases monitored : code.noMonitoring with
  | true =>
    rw [Engine.force, if_pos monitored]
    exact h
  | false =>
    have data := h.data_force only sized monitored
    split at data
    next => exact (h.abandoned only).of_data data
    next => exact (h.prepared only).of_data data

end force

/-- Two states of a code object that one tool watches. The first reports nowhere but where the second does, and where it
does not there is nothing more to tell. -/
structure Thinned (t : Nat) (code : Code) (saw : Layer → Nat → Prop) (s s' : CodeState) : Prop where
  grid : code.OnGrid
  formed : s.Formed code
  formed' : s'.Formed code
  lone : s.Lone t
  data : s'.data = s.data
  version : s'.version = s.version
  armed : ∀ (l : Layer) (i : Nat), l.armed (s.slot i) = true → l.armed (s'.slot i) = true
  lost : ∀ (l : Layer) (i : Nat), l.armed (s'.slot i) = true → l.armed (s.slot i) = true ∨ saw l i

namespace Thinned

theorem fresh (spec : CodeSpec) : Thinned t spec.assemble.1 saw (ofCode spec.assemble.1) (ofCode spec.assemble.1) where
  grid := spec.onGrid_assemble
  formed := formed_ofCode _
  formed' := formed_ofCode _
  lone := ⟨Monitors.only_none, Monitors.only_none, fun _ => rfl⟩
  data := rfl
  version := rfl
  armed _ _ on := on
  lost _ _ on := .inl on

theorem lone' (h : Thinned t code saw s s') : s'.Lone t := h.lone.of_data h.data

theorem mono (h : Thinned t code saw s s') (more : ∀ l i, saw l i → saw' l i) : Thinned t code saw' s s' :=
  { h with lost := fun l i on => (h.lost l i on).imp_right (more l i) }

theorem noted (h : Thinned t code saw s s') (history history' changes changes') :
    Thinned t code saw { s with history, changes } { s' with history := history', changes := changes' } :=
  { h with
    formed := h.formed.noted history changes
    formed' := h.formed'.noted history' changes'
    lone := h.lone.of_data rfl }

theorem preset (h : Thinned t code saw s s') {own} (only : own.Only t) (stamps : Vector Nat 8) :
    Thinned t code saw (s.preset own stamps) (s'.preset own stamps) where
  grid := h.grid
  formed := h.formed.preset own stamps
  formed' := h.formed'.preset own stamps
  lone := h.lone.preset only stamps
  data := by simp only [CodeState.preset, h.data]
  version := h.version
  armed := h.armed
  lost := h.lost

section force
variable (h : Thinned t code saw s s') (e : Engine)
include h

theorem alignment_eq : s'.alignment e = s.alignment e := by
  simp only [alignment, keptOwn, h.data, h.version]

theorem madeLines_eq : s'.madeLines? e code = s.madeLines? e code := by
  simp only [madeLines?, h.alignment_eq, lines, h.data]

theorem force_outcome :
    (e.force code s').2 = (e.force code s).2 ∧ (e.force code s').1.version = (e.force code s).1.version := by
  cases monitored : code.noMonitoring with
  | true =>
    rw [Engine.force, Engine.force, if_pos monitored, if_pos monitored]
    exact ⟨rfl, h.version⟩
  | false =>
    rw [force_eq e monitored, force_eq e monitored, h.alignment_eq, h.madeLines_eq]
    split
    next => exact ⟨rfl, h.version⟩
    next => split <;> exact ⟨rfl, rfl⟩

theorem force_data (only : Monitors.Only t e.globals) : (e.force code s').1.data = (e.force code s).1.data := by
  cases monitored : code.noMonitoring with
  | true =>
    rw [Engine.force, Engine.force, if_pos monitored, if_pos monitored]
    exact h.data
  | false =>
    rw [h.lone.data_force only h.formed.sized monitored, h.lone'.data_force only h.formed'.sized monitored,
      h.alignment_eq, h.madeLines_eq]
    simp only [abandoned, prepared, h.lone.madeTable_eq only, h.lone'.madeTable_eq only, h.madeLines_eq,
      h.alignment_eq, keptOwn, h.data]

theorem force_armed (only : Monitors.Only t e.globals) (l : Layer) (i) :
    ∃ starts keeps : Prop, (l.armed ((e.force code s).1.slot i) = true ↔ starts ∨ l.armed (s.slot i) = true ∧ keeps) ∧
      (l.armed ((e.force code s').1.slot i) = true ↔ starts ∨ l.armed (s'.slot i) = true ∧ keeps) := by
  have still : ∀ {r r' : CodeState}, l.armed (r'.slot i) = l.armed (r.slot i) →
      (l.armed (r'.slot i) = true ↔ False ∨ l.armed (r.slot i) = true ∧ True) := by
    intro r r' same
    rw [same, false_or, and_true]
  cases monitored : code.noMonitoring with
  | true =>
    rw [Engine.force, Engine.force, if_pos monitored, if_pos monitored]
    exact ⟨False, True, still rfl, still rfl⟩
  | false =>
    have outcome := (h.force_outcome e).1
    rcases force_cases e monitored h.grid h.formed.sized h.formed.lined with ⟨⟨r, went⟩, realigned⟩ | ⟨fault, faulted⟩
    · rcases force_cases e monitored h.grid h.formed'.sized h.formed'.lined with ⟨-, realigned'⟩ | ⟨fault', -⟩
      · cases event : code.eventAt l i with
        | none => exact ⟨False, True, still (realigned.idle l i event), still (realigned'.idle l i event)⟩
        | some ev =>
          obtain ⟨starts, keeps, goes⟩ := Cell.armed_align (h.lone.only_after only).not_shared l ev
          have cell := congrArg Cell.armed (realigned.cell l i ev event)
          have cell' := congrArg Cell.armed (realigned'.cell l i ev event)
          rw [h.lone.cell_eq] at cell
          rw [h.lone'.cell_eq, h.alignment_eq] at cell'
          exact ⟨starts, keeps, (Bool.eq_iff_iff.1 cell).trans (goes _), (Bool.eq_iff_iff.1 cell').trans (goes _)⟩
      · rw [outcome, went] at fault'
        cases fault'
    · rcases force_cases e monitored h.grid h.formed'.sized h.formed'.lined with ⟨⟨r, went'⟩, -⟩ | ⟨-, faulted'⟩
      · rw [outcome, fault] at went'
        cases went'
      · exact ⟨False, True, still (faulted.armed l i), still (faulted'.armed l i)⟩

theorem force (only : Monitors.Only t e.globals) : Thinned t code saw (e.force code s).1 (e.force code s').1 where
  grid := h.grid
  formed := h.formed.force h.grid e
  formed' := h.formed'.force h.grid e
  lone := h.lone.force only h.formed.sized
  data := h.force_data e only
  version := (h.force_outcome e).2
  armed l i on := by
    obtain ⟨starts, keeps, goes, goes'⟩ := h.force_armed e only l i
    exact goes'.2 ((goes.1 on).imp_right (And.imp_left (h.armed l i)))
  lost l i on := by
    obtain ⟨starts, keeps, goes, goes'⟩ := h.force_armed e only l i
    rcases goes'.1 on with begun | ⟨was, kept⟩
    · exact .inl (goes.2 (.inl begun))
    · exact (h.lost l i was).imp_left fun here => goes.2 (.inr ⟨here, kept⟩)

end force

theorem remove (h : Thinned t code saw s s') (told : saw l i) (ev tools) :
    Thinned t code saw (s.remove l i ev tools) s' := by
  cases data : s.data with
  | none =>
    rw [CodeState.remove, data]
    exact h
  | some d =>
    have outline := outline_remove s l i ev tools
    have kept := h.lone.data_of_outline outline
    have cell := cell_remove (s := s) (by rw [data]; rfl) l
    refine ⟨h.grid, h.formed.remove l i ev tools, h.formed', h.lone.of_data kept, h.data.trans kept.symm,
      h.version.trans (congrArg Outline.version outline).symm, fun k j on => ?_, fun k j on => ?_⟩
    · have there := congrArg Cell.armed (cell k i j ev tools)
      split at there
      next => exact h.armed k j (Bool.and_eq_true_iff.1 (there.symm.trans on)).1
      next => exact h.armed k j (there.symm.trans on)
    · by_cases here : k = l ∧ j = i
      · exact .inr (here.1 ▸ here.2 ▸ told)
      · have there := congrArg Cell.armed (cell k i j ev tools)
        rw [if_neg here] at there
        exact (h.lost k j on).imp_left there.trans

theorem heard (h : Thinned t code saw s s') (direct : c.sibling? code = none) (proceeds : c.disables = false) :
    Thinned t code saw s (s'.heed code c) := by
  have noted := h.noted s.history (.answered c :: s'.history) s.changes s'.changes
  simp only [heed, direct, proceeds, Bool.false_and]
  exact noted

/-- The thinner state takes note of an answer: a place that is given up has nothing more to tell. -/
theorem answered (h : Thinned t code saw s s') (direct : c.sibling? code = none)
    (told : c.disables = true → saw c.layer c.slot) : Thinned t code saw (s.heed code c) s' := by
  have noted := h.noted (.answered c :: s.history) s'.history s.changes s'.changes
  simp only [heed, direct]
  split
  next disables => exact noted.remove (told (Bool.and_eq_true_iff.1 disables).1) _ _
  next => exact noted

end Thinned
end CodeState
end MonitoredVm
