import MonitoredVm.Monitoring.Instrumented
import MonitoredVm.Proofs.Cell

/-!
# The cells of a code object

Taking tools out and putting tools in changes one cell and nothing else that is observed: the outline of a
code object, which is what it is apart from its cells, stays.
-/

namespace MonitoredVm

namespace Layer

def put (b : Bool) : Layer → Slot → Slot
  | .opcode, s => { s with instrumented := b }
  | .line, s => { s with line := b }
  | .instruction, s => { s with instruction := b }

@[simp] theorem armed_put (l k : Layer) (b s) : k.armed (l.put b s) = if k = l then b else k.armed s := by
  cases l <;> cases k <;> rfl

@[simp] theorem base_put (l : Layer) (b) (s : Slot) : (l.put b s).base = s.base := by cases l <;> rfl

theorem put_of_armed {l : Layer} (h : l.armed s = b) : l.put b s = s := by
  subst h
  cases l <;> rfl

theorem table_mapTable (l k : Layer) (f : Array ToolMask → Array ToolMask) (d) :
    k.table (l.mapTable f d) = if k = l then (k.table d).map f else k.table d := by
  cases l <;> cases k <;> rfl

end Layer

/-- The data without its tool tables. -/
def MonitoringData.bare (d : MonitoringData) : MonitoringData :=
  { d with tools := none, lineTools := none, instructionTools := none }

@[simp] theorem MonitoringData.bare_mapTable (l : Layer) (f : Array ToolMask → Array ToolMask) (d : MonitoringData) :
    (l.mapTable f d).bare = d.bare := by
  cases l <;> rfl

/-- A code object apart from its cells. -/
@[ext] structure Outline where
  version : Nat
  history : List Happening
  size : Nat
  base : Nat → Opcode
  data : Option MonitoringData
  tableSize : Layer → Option Nat

namespace CodeState

def outline (s : CodeState) : Outline where
  version := s.version
  history := s.history
  size := s.slots.size
  base i := (s.slot i).base
  data := s.data.map MonitoringData.bare
  tableSize l := (s.data.bind l.table).map Array.size

/-- The tools for which `e` is instrumented. -/
def active (s : CodeState) (e : Event) : ToolMask := (s.data.map fun d => LocalMonitors.get d.active e).getD 0

/-- The tools that have `e` enabled for this code object alone. -/
def own (s : CodeState) (e : Event) : ToolMask := (s.data.map fun d => LocalMonitors.get d.own e).getD 0

def cell (s : CodeState) (l : Layer) (i : Nat) : Cell :=
  { armed := l.armed (s.slot i), entry := (s.data.bind l.table).map (maskIn · i) }

theorem active_of_outline {s s' : CodeState} (h : s'.outline = s.outline) (e) : s'.active e = s.active e := by
  have data := congrArg Outline.data h
  simp only [outline] at data
  unfold active
  cases hs : s.data <;> cases hs' : s'.data <;> simp_all [MonitoringData.bare]

theorem own_of_outline {s s' : CodeState} (h : s'.outline = s.outline) (e) : s'.own e = s.own e := by
  have data := congrArg Outline.data h
  simp only [outline] at data
  unfold own
  cases hs : s.data <;> cases hs' : s'.data <;> simp_all [MonitoringData.bare]

/-! Slots -/

theorem slot_setSlot (s : CodeState) (i j x) :
    (s.setSlot i x).slot j = if j = i ∧ i < s.slots.size then x else s.slot j := by
  unfold slot setSlot
  simp only [Array.getElem?_setIfInBounds]
  by_cases same : i = j
  · subst same
    by_cases lt : i < s.slots.size
    · simp [lt]
    · simp [lt]
  · have ne : ¬ j = i := fun h => same h.symm
    simp [same, ne]

theorem slot_of_ge {s : CodeState} (h : s.slots.size ≤ i) : s.slot i = ⟨.cache, false, false, false⟩ := by
  simp [slot, h]

@[simp] theorem slots_resetCounter (s : CodeState) (i op) : (s.resetCounter i op).slots = s.slots := by
  unfold resetCounter
  split <;> rfl

@[simp] theorem data_resetCounter (s : CodeState) (i op) : (s.resetCounter i op).data = s.data := by
  unfold resetCounter
  split <;> rfl

@[simp] theorem version_resetCounter (s : CodeState) (i op) : (s.resetCounter i op).version = s.version := by
  unfold resetCounter
  split <;> rfl

@[simp] theorem history_resetCounter (s : CodeState) (i op) : (s.resetCounter i op).history = s.history := by
  unfold resetCounter
  split <;> rfl

/-- What arming and disarming do: one slot is put, and no table changes. -/
structure Puts (s s' : CodeState) (l : Layer) (i : Nat) (b : Bool) : Prop where
  slot : ∀ j, s'.slot j = if j = i ∧ i < s.slots.size then l.put b (s.slot i) else s.slot j
  size : s'.slots.size = s.slots.size
  data : s'.data = s.data
  version : s'.version = s.version
  history : s'.history = s.history

theorem puts_arm (s : CodeState) (l i) : Puts s (s.arm l i) l i true := by
  cases l with
  | opcode =>
    simp only [arm, instrument]
    split
    next on =>
      have same : Layer.put true .opcode (s.slot i) = s.slot i := Layer.put_of_armed on
      exact ⟨fun j => by rw [same]; grind, rfl, rfl, rfl, rfl⟩
    next off =>
      refine ⟨fun j => ?_, by simp [setSlot], by simp [setSlot], by simp [setSlot], by simp [setSlot]⟩
      rw [← slot_setSlot]
      simp [slot, Layer.put]
  | line => exact ⟨fun j => slot_setSlot s i j _, by simp [arm, modifySlot, setSlot], rfl, rfl, rfl⟩
  | instruction => exact ⟨fun j => slot_setSlot s i j _, by simp [arm, modifySlot, setSlot], rfl, rfl, rfl⟩

theorem puts_disarm (s : CodeState) (l i) : Puts s (s.disarm l i) l i false := by
  cases l with
  | opcode =>
    simp only [disarm, restore]
    split
    next on =>
      refine ⟨fun j => ?_, by simp [setSlot], by simp [setSlot], by simp [setSlot], by simp [setSlot]⟩
      rw [← slot_setSlot]
      simp [slot, Layer.put]
    next off =>
      have same : Layer.put false .opcode (s.slot i) = s.slot i := Layer.put_of_armed (Bool.not_eq_true _ ▸ off)
      exact ⟨fun j => by rw [same]; grind, rfl, rfl, rfl, rfl⟩
  | line => exact ⟨fun j => slot_setSlot s i j _, by simp [disarm, modifySlot, setSlot], rfl, rfl, rfl⟩
  | instruction => exact ⟨fun j => slot_setSlot s i j _, by simp [disarm, modifySlot, setSlot], rfl, rfl, rfl⟩

namespace Puts
variable {s s' : CodeState} {l : Layer} {i : Nat} {b : Bool}

theorem outline_eq (h : Puts s s' l i b) : s'.outline = s.outline := by
  ext1
  · exact h.version
  · exact h.history
  · exact h.size
  · funext j
    simp only [outline, h.slot]
    split
    next at_i => rw [Layer.base_put, at_i.1]
    next => rfl
  · simp only [outline, h.data]
  · simp only [outline, h.data]

theorem armed_eq (h : Puts s s' l i b) (k : Layer) (j) :
    k.armed (s'.slot j) = if k = l ∧ j = i ∧ i < s.slots.size then b else k.armed (s.slot j) := by
  rw [h.slot]
  by_cases at_i : j = i ∧ i < s.slots.size
  · rw [if_pos at_i, Layer.armed_put, at_i.1]
    simp [at_i.2]
  · rw [if_neg at_i, if_neg fun all => at_i all.2]

theorem cell_eq (h : Puts s s' l i b) (inside : b = true → i < s.slots.size) (k j) :
    s'.cell k j = if k = l ∧ j = i then { s.cell k j with armed := b } else s.cell k j := by
  have armed : k.armed (s'.slot j) = if k = l ∧ j = i then b else k.armed (s.slot j) := by
    rw [h.armed_eq]
    by_cases lt : i < s.slots.size
    · simp [lt]
    · -- beyond the end nothing reports, and there only disarming is asked for
      have off : b = false := Bool.eq_false_iff.2 fun on => lt (inside on)
      have none_there : k.armed (s.slot i) = false := by
        rw [slot_of_ge (Nat.le_of_not_lt lt)]
        cases k <;> rfl
      grind
  simp only [cell, armed, h.data]
  split <;> rfl

end Puts

/-! Tables -/

@[simp] theorem maskIn_removeIn (table i j tools) :
    maskIn (removeIn table i tools) j = if j = i then (maskIn table i).without tools else maskIn table j := by
  unfold maskIn removeIn
  rw [Array.getElem?_setIfInBounds]
  by_cases same : i = j
  · subst same
    by_cases lt : i < table.size <;> simp [lt, ToolMask.without, maskIn]
  · have ne : ¬ j = i := fun h => same h.symm
    simp [same, ne]

theorem maskIn_addIn (lt : i < table.size) (j tools) :
    maskIn (addIn table i tools) j = if j = i then maskIn table i ||| tools else maskIn table j := by
  unfold maskIn addIn
  rw [Array.getElem?_setIfInBounds]
  by_cases same : i = j
  · subst same
    simp [lt, maskIn]
  · have ne : ¬ j = i := fun h => same h.symm
    simp [same, ne]

theorem outline_mapTable (s : CodeState) (l : Layer) (f : Array ToolMask → Array ToolMask)
    (size : ∀ table, (f table).size = table.size) : (s.modifyData (l.mapTable f)).outline = s.outline := by
  ext1
  · rfl
  · rfl
  · rfl
  · rfl
  · cases e : s.data <;> simp [outline, modifyData, e]
  · funext k
    cases e : s.data with
    | none => simp [outline, modifyData, e]
    | some d =>
      simp only [outline, modifyData, e, Option.map_some, Option.bind_some, Layer.table_mapTable]
      split
      next => cases t : k.table d <;> simp [size]
      next => rfl

@[simp] theorem outline_remove (s : CodeState) (l i e tools) : (s.remove l i e tools).outline = s.outline := by
  have table := outline_mapTable s l (removeIn · i tools) fun table => by simp [removeIn]
  unfold remove
  split
  next => rfl
  next d _ =>
    split
    · rw [(puts_disarm _ l i).outline_eq, table]
    · exact table

@[simp] theorem outline_add (s : CodeState) (l i tools) : (s.add l i tools).outline = s.outline := by
  rw [add, (puts_arm _ l i).outline_eq]
  exact outline_mapTable s l (addIn · i tools) fun table => by simp [addIn]

theorem cell_mapTable (s : CodeState) (l : Layer) (i) (f : Array ToolMask → Array ToolMask) (g : ToolMask → ToolMask)
    (entry : ∀ d table, s.data = some d → l.table d = some table →
      ∀ j, maskIn (f table) j = if j = i then g (maskIn table i) else maskIn table j) (k j) :
    (s.modifyData (l.mapTable f)).cell k j =
      if k = l ∧ j = i then { s.cell k j with entry := (s.cell k j).entry.map g } else s.cell k j := by
  have slots : (s.modifyData (l.mapTable f)).slot j = s.slot j := rfl
  simp only [cell, slots]
  cases data : s.data with
  | none => simp [modifyData, data]
  | some d =>
    simp only [modifyData, data, Option.map_some, Option.bind_some, Layer.table_mapTable]
    by_cases same : k = l
    · subst same
      cases t : k.table d with
      | none => simp
      | some table => by_cases at_i : j = i <;> simp [at_i, entry d table data t]
    · simp [same]

theorem cell_remove {s : CodeState} (data : s.data.isSome = true) (l k i j e tools) :
    (s.remove l i e tools).cell k j =
      if k = l ∧ j = i then (s.cell k j).remove (s.active e) tools else s.cell k j := by
  obtain ⟨d, some_d⟩ := Option.isSome_iff_exists.1 data
  have taken := cell_mapTable s l i (removeIn · i tools) (·.without tools)
    (fun _ table _ _ j => maskIn_removeIn table i j tools)
  have last : leavesNone (l.table d) (LocalMonitors.get d.active e) i tools =
      (s.cell l i).leavesNone (s.active e) tools := by
    simp only [leavesNone, Cell.leavesNone, cell, active, some_d, Option.bind_some, Option.map_some, Option.getD_some]
    cases l.table d <;> rfl
  simp only [remove, some_d, last]
  split
  next none_left =>
    rw [(puts_disarm _ l i).cell_eq (by simp), taken]
    split
    next here =>
      obtain ⟨rfl, rfl⟩ := here
      simp [Cell.remove, none_left]
    next => rfl
  next some_left =>
    rw [taken]
    split
    next here =>
      obtain ⟨rfl, rfl⟩ := here
      simp [Cell.remove, some_left]
    next => rfl

theorem cell_add {s : CodeState} {l : Layer} (inside : i < s.slots.size)
    (sized : ∀ d table, s.data = some d → l.table d = some table → i < table.size) (k j tools) :
    (s.add l i tools).cell k j = if k = l ∧ j = i then (s.cell k j).add tools else s.cell k j := by
  have put := cell_mapTable s l i (addIn · i tools) (· ||| tools)
    (fun d table some_d t j => maskIn_addIn (sized d table some_d t) j tools)
  have armed := puts_arm (s.modifyData (l.mapTable (addIn · i tools))) l i
  rw [add, armed.cell_eq (fun _ => inside), put]
  split
  next => rfl
  next => rfl

end CodeState
end MonitoredVm
