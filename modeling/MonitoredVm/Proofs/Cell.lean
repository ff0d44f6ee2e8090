import MonitoredVm.Proofs.Masks

/-!
# Cells

What one layer of a slot amounts to: whether the slot reports there, and the entry of the layer's tool table
once there is one. Without an entry the tools active for the event stand for it, and there is at most one.
Every change of a slot or table is a change of cells, and what is called at a place is read off its cell.
-/

namespace MonitoredVm

open ToolMask

/-- One layer of one slot. -/
structure Cell where
  armed : Bool := false
  entry : Option ToolMask := none
  deriving DecidableEq, Repr, Inhabited

namespace Cell

/-- The tools to call, given those active for the event. -/
def calls (c : Cell) (active : ToolMask) : ToolMask := if c.armed then c.entry.getD active else 0

/-- Taking `tools` out leaves none. -/
def leavesNone (c : Cell) (active tools : ToolMask) : Bool :=
  match c.entry with
  | some m => m.without tools == 0
  | none => active &&& tools == active

def remove (c : Cell) (active tools : ToolMask) : Cell :=
  { armed := c.armed && !c.leavesNone active tools, entry := c.entry.map (·.without tools) }

def add (c : Cell) (tools : ToolMask) : Cell := { armed := true, entry := c.entry.map (· ||| tools) }

def fill (c : Cell) (m : ToolMask) : Cell := { c with entry := some (c.entry.getD m) }

/-- Takes tools out, then puts tools in; neither when there are none. -/
def change (c : Cell) (active gone new : ToolMask) : Cell :=
  let c := if gone = 0 then c else c.remove active gone
  if new = 0 then c else c.add new

theorem remove_of_off {c : Cell} (off : c.armed = false) (none_there : c.entry = none) (active tools) :
    c.remove active tools = c := by
  cases c
  simp_all [remove]

theorem remove_remove (c : Cell) (active tools) :
    (c.remove active tools).remove active tools = c.remove active tools := by
  have twice : ∀ m : ToolMask, (m.without tools).without tools = m.without tools := by
    intro m
    apply ext_has
    intro t
    simp
  cases e : c.entry with
  | none => simp [remove, leavesNone, e]
  | some m => simp [remove, leavesNone, e, twice]

theorem change_entry (c : Cell) (active gone new) :
    (c.change active gone new).entry = c.entry.map fun m => m.without gone ||| new := by
  cases e : c.entry with
  | none => by_cases g : gone = 0#8 <;> by_cases n : new = 0#8 <;> simp [change, remove, add, e, g, n]
  | some m =>
    by_cases g : gone = 0#8 <;> by_cases n : new = 0#8 <;> simp [change, remove, add, e, g, n]

theorem change_armed (c : Cell) (active gone new) :
    (c.change active gone new).armed = true ↔
      new ≠ 0 ∨ c.armed = true ∧ (gone = 0 ∨ c.leavesNone active gone = false) := by
  by_cases g : gone = 0#8 <;> by_cases n : new = 0#8 <;> simp [change, remove, add, g, n]

/-- The cell calls exactly the active tools that are not `out`, and reports only if there are any. -/
structure Exact (c : Cell) (active out : ToolMask) : Prop where
  armed : c.armed = true ↔ active.without out ≠ 0
  entry : ∀ m, c.entry = some m → m = active.without out
  solo : c.entry = none → active.Solo

namespace Exact
variable {c : Cell} {active out : ToolMask}

theorem calls_eq (h : c.Exact active out) : c.calls active = active.without out := by
  unfold calls
  split
  next on =>
    cases e : c.entry with
    | some m => exact h.entry m e
    | none =>
      -- the one active tool is not out, or the slot would not report
      have solo := h.solo e
      obtain ⟨t, ht⟩ := (ne_zero_iff _).1 (h.armed.1 on)
      apply ext_has
      intro s
      simp only [has_without, Option.getD_none] at ht ⊢
      grind [ToolMask.Solo]
  next off =>
    exact (Decidable.not_not.1 (mt h.armed.2 off)).symm

theorem fill (h : c.Exact active out) : (c.fill (if c.armed then active else 0)).Exact active out := by
  refine ⟨h.armed, ?_, by simp [Cell.fill]⟩
  intro m e
  simp only [Cell.fill, Option.some.injEq] at e
  cases entry : c.entry with
  | some k =>
    simp only [entry, Option.getD_some] at e
    exact e ▸ h.entry k entry
  | none =>
    have calls := h.calls_eq
    simp only [Cell.calls, entry, Option.getD_none] at calls e
    rw [← e, calls]

theorem remove (h : c.Exact active out) (tools) : (c.remove active tools).Exact active (out ||| tools) := by
  cases e : c.entry with
  | some m =>
    have m_eq := h.entry m e
    have left : m.without tools = active.without (out ||| tools) := by
      apply ext_has
      intro t
      simp [m_eq]
      grind
    refine ⟨?_, ?_, by simp [Cell.remove, e]⟩
    · simp only [Cell.remove, leavesNone, e, left, Bool.and_eq_true, h.armed, Bool.not_eq_true',
        beq_eq_false_iff_ne, and_iff_right_iff_imp, ne_zero_iff]
      rintro ⟨t, ht⟩
      exact ⟨t, by simp at ht ⊢; grind⟩
    · intro k
      simp only [Cell.remove, e, Option.map_some, Option.some.injEq]
      rintro rfl
      exact left
  | none =>
    have solo := h.solo e
    refine ⟨?_, by simp [Cell.remove, e], fun _ => solo⟩
    simp only [Cell.remove, leavesNone, e, Bool.and_eq_true, h.armed, Bool.not_eq_true', beq_eq_false_iff_ne,
      ne_eq, eq_iff_has, has_without, has_and, has_or]
    grind [ToolMask.Solo]

/-- A change of the active tools from `active` to `after`: those that leave are taken out, those that enter are called
again wherever they were out. After a restart all leave and enter. -/
theorem change (h : c.Exact active out) (restarted : Bool)
    (gone_eq : gone = if restarted then active else active.without after)
    (new_eq : new = if restarted then after else after.without active) (solo : c.entry = none → after.Solo) :
    (c.change after gone new).Exact after (out.without new) := by
  cases e : c.entry with
  | some m =>
    have m_eq := h.entry m e
    have left : m.without gone ||| new = after.without (out.without new) := by
      apply ext_has
      intro t
      cases restarted <;> simp [m_eq, gone_eq, new_eq] <;> grind
    refine ⟨?_, ?_, by simp [change_entry, e]⟩
    · rw [change_armed, h.armed, ← left]
      simp only [leavesNone, e, beq_eq_false_iff_ne, ne_zero_iff, eq_iff_has, ← m_eq]
      simp
      grind
    · intro k
      simp only [change_entry, e, Option.map_some, Option.some.injEq]
      rintro rfl
      exact left
  | none =>
    have solo_before := h.solo e
    have solo_after := solo e
    refine ⟨?_, by simp [change_entry, e], fun _ => solo_after⟩
    rw [change_armed, h.armed]
    simp only [leavesNone, e, beq_eq_false_iff_ne, ne_eq, eq_iff_has]
    cases restarted <;> simp [gone_eq, new_eq] <;> grind [ToolMask.Solo]

end Exact

/-- The cell calls active tools only, and reports only if there are any. -/
structure Tame (c : Cell) (active : ToolMask) : Prop where
  entry : ∀ m, c.entry = some m → ∀ t, m.has t = true → active.has t = true
  armed : c.armed = true → active ≠ 0

theorem Tame.remove {c : Cell} (h : c.Tame active) (other tools) : (c.remove other tools).Tame active := by
  refine ⟨fun m e t has => ?_, fun on => h.armed (Bool.and_eq_true_iff.1 on).1⟩
  obtain ⟨k, old, rfl⟩ := Option.map_eq_some_iff.1 e
  rw [has_without] at has
  exact h.entry k old t (Bool.and_eq_true_iff.1 has).1

theorem Tame.fill {c : Cell} {active : ToolMask} (h : c.Tame active) {m : ToolMask}
    (sub : ∀ t, m.has t = true → active.has t = true) : (c.fill m).Tame active := by
  refine ⟨fun k e t has => ?_, h.armed⟩
  cases e
  cases old : c.entry with
  | none => exact sub t (by simpa [old] using has)
  | some k => exact h.entry k old t (by simpa [old] using has)

/-! A change from `before` to `after`, of a cell that may already know of tools that enter. -/
section change
variable {c : Cell} {before after gone new : ToolMask} (restarted : Bool)
  (gone_eq : gone = if restarted then before else before.without after)
  (new_eq : new = if restarted then after else after.without before)
  (known : ∀ m, c.entry = some m → ∀ t, m.has t = true → before.has t = true ∨ after.has t = true)
  (armed : c.armed = true → before ≠ 0)
include gone_eq new_eq known

theorem has_of_change (m : ToolMask) (h : c.entry = some m) (t) (has : (m.without gone ||| new).has t = true) :
    after.has t = true := by
  have from_either := known m h t
  cases restarted <;> simp [gone_eq, new_eq] at has <;> grind

include armed

theorem tame_change : (c.change after gone new).Tame after := by
  have entry := has_of_change restarted gone_eq new_eq known
  refine ⟨fun m e t has => ?_, fun on => ?_⟩
  · rw [change_entry] at e
    obtain ⟨k, old, rfl⟩ := Option.map_eq_some_iff.1 e
    exact entry k old t has
  · rw [ne_zero_iff]
    rcases (change_armed c after gone new).1 on with enters | ⟨was_on, none_gone | some_left⟩
    · obtain ⟨t, has⟩ := (ne_zero_iff _).1 enters
      exact ⟨t, by cases restarted <;> simp_all⟩
    · obtain ⟨t, has⟩ := (ne_zero_iff _).1 (armed was_on)
      have stays := (eq_zero_iff _).1 none_gone t
      rw [gone_eq] at stays
      exact ⟨t, by cases restarted <;> simp at stays <;> grind⟩
    · cases e : c.entry with
      | none =>
        simp only [leavesNone, e, beq_eq_false_iff_ne, ne_eq, eq_iff_has] at some_left
        simp at some_left
        grind
      | some m =>
        simp only [leavesNone, e, beq_eq_false_iff_ne, ne_zero_iff] at some_left
        obtain ⟨t, has⟩ := some_left
        exact ⟨t, entry m e t (by simp [has])⟩

theorem exact_change (again : restarted = true) (solo : c.entry = none → after.Solo) :
    (c.change after gone new).Exact after 0 := by
  subst again
  have tame := tame_change true gone_eq new_eq known armed
  have new_eq : new = after := new_eq
  have all : ∀ m, c.entry = some m → m.without gone ||| new = after := by
    intro m e
    have entry := has_of_change true gone_eq new_eq known m e
    apply ext_has
    intro t
    have := entry t
    simp_all
  refine ⟨?_, fun m e => ?_, fun e => solo (by simpa [change_entry] using e)⟩
  · refine ⟨fun on => by simpa using tame.armed on, fun some_active => ?_⟩
    exact (change_armed ..).2 (.inl (by simpa [new_eq] using some_active))
  · rw [change_entry] at e
    obtain ⟨k, old, rfl⟩ := Option.map_eq_some_iff.1 e
    simpa using all k old

end change
end Cell
end MonitoredVm
