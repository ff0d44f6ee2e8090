import MonitoredVm.Bytecode.Assembler

/-!
# The instruction grid

The offsets of a walk are those its start leads to, instruction by instruction, each once. In assembled code the
first traceable offset lies on the walk from the start, and so does all that is no cache, since the assembler emits whole
instructions.
-/

namespace MonitoredVm

namespace Code

/-- `j` is reached from `i` by stepping over whole instructions. -/
inductive Leads (c : Code) : Nat → Nat → Prop where
  | refl (i : Nat) : Leads c i i
  | step {i j} : i < c.size → Leads c (c.next i) j → Leads c i j

theorem Leads.trans {c : Code} (h : c.Leads i j) (h' : c.Leads j k) : c.Leads i k := by
  induction h with
  | refl => exact h'
  | step lt _ ih => exact .step lt (ih h')

theorem lt_next (c : Code) (i) : i < c.next i := by
  unfold next instructionSize
  omega

theorem Leads.le {c : Code} (h : c.Leads i j) : i ≤ j := by
  induction h with
  | refl => exact Nat.le_refl _
  | step _ _ ih => exact Nat.le_trans (Nat.le_of_lt (c.lt_next _)) ih

theorem mem_walk (c : Code) (count i j) (room : c.size - i ≤ count) :
    j ∈ c.walk count i ↔ c.Leads i j ∧ j < c.size := by
  induction count generalizing i with
  | zero =>
    simp only [walk, List.not_mem_nil, false_iff, not_and]
    intro leads lt
    have := leads.le
    omega
  | succ count ih =>
    have step := c.lt_next i
    simp only [walk]
    split
    next lt =>
      rw [List.mem_cons, ih (c.next i) (by omega)]
      constructor
      · rintro (rfl | ⟨leads, inside⟩)
        · exact ⟨.refl _, lt⟩
        · exact ⟨.step lt leads, inside⟩
      · rintro ⟨leads, inside⟩
        cases leads with
        | refl => exact .inl rfl
        | step _ rest => exact .inr ⟨rest, inside⟩
    next ge =>
      simp only [List.not_mem_nil, false_iff, not_and]
      intro leads inside
      have := leads.le
      omega

theorem mem_offsetsFrom {c : Code} : j ∈ c.offsetsFrom i ↔ c.Leads i j ∧ j < c.size :=
  c.mem_walk _ i j (Nat.le_refl _)

theorem lt_of_mem_offsetsFrom {c : Code} (h : j ∈ c.offsetsFrom i) : j < c.size :=
  (mem_offsetsFrom.1 h).2

theorem walk_nodup (c : Code) (count i) (room : c.size - i ≤ count) : (c.walk count i).Nodup := by
  induction count generalizing i with
  | zero => simp [walk]
  | succ count ih =>
    have step := c.lt_next i
    simp only [walk]
    split
    next =>
      refine List.nodup_cons.2 ⟨?_, ih (c.next i) (by omega)⟩
      intro again
      have := ((c.mem_walk count (c.next i) i (by omega)).1 again).1.le
      omega
    next => exact List.nodup_nil

theorem offsetsFrom_nodup (c : Code) (i) : (c.offsetsFrom i).Nodup := c.walk_nodup _ i (Nat.le_refl _)

/-- What may fire events lies on the walk over the whole code. -/
def OnGrid (c : Code) : Prop := c.Leads 0 c.firstTraceable

theorem OnGrid.mem {c : Code} (h : c.OnGrid) (mem : i ∈ c.offsetsFrom c.firstTraceable) : i ∈ c.offsetsFrom 0 := by
  obtain ⟨leads, lt⟩ := mem_offsetsFrom.1 mem
  exact mem_offsetsFrom.2 ⟨h.trans leads, lt⟩

theorem Leads.extend {c c' : Code} (longer : c.size ≤ c'.size)
    (same : ∀ i, i < c.size → (c'.unitAt i).code = (c.unitAt i).code) (h : c.Leads i j) : c'.Leads i j := by
  induction h with
  | refl => exact .refl _
  | @step i j lt _ ih =>
    have next : c'.next i = c.next i := by simp only [next, instructionSize, opcodeAt, same i lt]
    exact .step (Nat.lt_of_lt_of_le lt longer) (next ▸ ih)

theorem opcodeAt_of_ge {c : Code} (beyond : c.size ≤ i) : c.opcodeAt i = .cache := by
  rw [opcodeAt, unitAt, Array.getElem?_eq_none beyond]
  rfl

end Code

theorem Opcode.ofByte_byte (op : Opcode) : Opcode.ofByte op.byte = op := by
  cases op <;> decide

namespace Assembler

/-- The assembler has emitted whole instructions, and events may fire from the start of one. -/
structure Whole (a : Assembler) : Prop where
  traceable : a.build.Leads 0 a.firstTraceable
  all : a.build.Leads 0 a.units.size
  starts : ∀ j < a.units.size, a.build.opcodeAt j ≠ .cache → a.build.Leads 0 j

section Codes
variable {a b : Assembler} (same : ∀ i, i < a.units.size → ((b.units[i]?).getD {}).code = ((a.units[i]?).getD {}).code)
include same

theorem leads_of_codes (longer : a.units.size ≤ b.units.size) (h : a.build.Leads 0 j) : b.build.Leads 0 j := by
  have longer' : a.build.size ≤ b.build.size := longer
  have same' : ∀ i, i < a.build.size → (b.build.unitAt i).code = (a.build.unitAt i).code := same
  exact h.extend longer' same'

theorem opcodeAt_of_codes (lt : j < a.units.size) : b.build.opcodeAt j = a.build.opcodeAt j :=
  congrArg Opcode.ofByte (same j lt)

theorem Whole.of_codes (h : a.Whole) (size : b.units.size = a.units.size)
    (traceable : b.firstTraceable = a.firstTraceable ∨ b.firstTraceable = a.units.size) : b.Whole := by
  have keeps : ∀ {j : Nat}, a.build.Leads 0 j → b.build.Leads 0 j := leads_of_codes same (Nat.le_of_eq size.symm)
  refine ⟨?_, size ▸ keeps h.all, fun j lt stands => ?_⟩
  · rcases traceable with still | next
    · exact still ▸ keeps h.traceable
    · exact next ▸ keeps h.all
  · rw [size] at lt
    rw [opcodeAt_of_codes same lt] at stands
    exact keeps (h.starts j lt stands)

end Codes

theorem Whole.of_units {a b : Assembler} (h : a.Whole) (units : b.units = a.units)
    (traceable : b.firstTraceable = a.firstTraceable ∨ b.firstTraceable = a.units.size) : b.Whole :=
  h.of_codes (fun _ _ => by rw [units]) (by rw [units]) traceable

theorem Whole.push {a : Assembler} (h : a.Whole) (op arg) : (a.push op arg).Whole := by
  have size : (a.push op arg).units.size = a.units.size + 1 + op.caches := by
    simp [Assembler.push]
    omega
  have kept : ∀ i, i < a.units.size →
      (((a.push op arg).units[i]?).getD {}).code = ((a.units[i]?).getD {}).code := by
    intro i lt
    simp [Assembler.push, Array.getElem?_append, lt]
  have keeps : ∀ {j : Nat}, a.build.Leads 0 j → (a.push op arg).build.Leads 0 j :=
    leads_of_codes kept (by omega)
  refine ⟨keeps h.traceable, (keeps h.all).trans ?_, fun j _ stands => ?_⟩
  · have here : (a.push op arg).build.opcodeAt a.units.size = op := by
      simp [Code.opcodeAt, Code.unitAt, build, Assembler.push, CodeUnit.ofOpcode, Opcode.ofByte_byte]
    refine .step (show a.units.size < (a.push op arg).units.size by omega) ?_
    have next : (a.push op arg).build.next a.units.size = (a.push op arg).units.size := by
      simp only [Code.next, Code.instructionSize, here, size]
      omega
    rw [next]
    exact .refl _
  · obtain before | rfl | after := Nat.lt_trichotomy j a.units.size
    · rw [opcodeAt_of_codes kept before] at stands
      exact keeps (h.starts j before stands)
    · exact keeps h.all
    · -- what follows the instruction are its caches
      obtain ⟨d, rfl⟩ := Nat.exists_eq_add_of_lt after
      refine absurd ?_ stands
      simp only [Code.opcodeAt, Code.unitAt, build, Assembler.push, Nat.add_assoc,
        Array.getElem?_append_right (Nat.le_add_right ..), Nat.add_sub_cancel_left, List.getElem?_toArray,
        List.getElem?_cons_succ, List.getElem?_replicate]
      split <;> rfl

theorem Whole.emit {a : Assembler} (h : a.Whole) (op arg) : (a.emit op arg).Whole := by
  unfold Assembler.emit
  apply Whole.push
  generalize highBytes arg = bytes
  induction bytes generalizing a with
  | nil => exact h
  | cons byte rest ih => exact ih (h.push .extendedArg byte)

theorem patchJump_ok {a : Assembler} {b offset} (ok : a.patchJump offset = .ok b) :
    ∃ arg, b = { a with units := a.units.setIfInBounds offset { (a.units[offset]?).getD {} with arg } } := by
  simp only [patchJump, bind, Except.bind] at ok
  split at ok
  · cases ok
  next arg _ =>
    cases ok
    exact ⟨arg, rfl⟩

theorem Whole.patchJump {a b : Assembler} (h : a.Whole) {offset} (ok : a.patchJump offset = .ok b) : b.Whole := by
  obtain ⟨arg, patched⟩ := patchJump_ok ok
  have size : b.units.size = a.units.size := by simp [patched]
  have traceable : b.firstTraceable = a.firstTraceable := by rw [patched]
  have same : ∀ i, i < a.units.size → ((b.units[i]?).getD {}).code = ((a.units[i]?).getD {}).code := by
    intro i lt
    rw [patched, Array.getElem?_setIfInBounds]
    split
    next eq =>
      subst eq
      simp [lt]
    next => rfl
  exact h.of_codes same size (.inl traceable)

theorem Whole.jumpBackward {a b : Assembler} (h : a.Whole) (ok : a.jumpBackward op target = .ok b) : b.Whole := by
  simp only [Assembler.jumpBackward, bind, Except.bind] at ok
  split at ok
  · cases ok
  · split at ok
    · cases ok
    · split at ok
      · cases ok
      next arg _ =>
        cases ok
        exact h.push op arg

theorem Whole.endAsyncFor {a b : Assembler} (h : a.Whole) (ok : a.endAsyncFor target = .ok b) : b.Whole := by
  simp only [Assembler.endAsyncFor, bind, Except.bind] at ok
  split at ok
  · cases ok
  next arg _ =>
    cases ok
    exact h.push .endAsyncFor arg

end Assembler

namespace Assembly

theorem whole_attempt {s : Assembly} (h : s.assembler.Whole) (r : Except BuildError Assembler) (reported)
    (ok : ∀ b, r = .ok b → b.Whole) : (s.attempt r reported).1.assembler.Whole := by
  cases r with
  | ok b => exact ok b rfl
  | error e => exact h

theorem whole_step {s : Assembly} (h : s.assembler.Whole) (step) : (s.step step).1.assembler.Whole := by
  cases step with
  | emit op arg => exact h.emit op _
  | jump op label => exact h.push op 0
  | patch label => exact whole_attempt h _ _ fun _ ok => h.patchJump ok
  | jumpBack op target => exact whole_attempt h _ _ fun _ ok => h.jumpBackward ok
  | endAsyncFor target => exact whole_attempt h _ _ fun _ ok => h.endAsyncFor ok
  | traceable => exact h.of_units rfl (.inr rfl)
  | line n => exact h.of_units rfl (.inl rfl)
  | noLine => exact h.of_units rfl (.inl rfl)
  | handler start stop target depth => exact h.of_units rfl (.inl rfl)
  | mark name => exact h

theorem whole_run {s : Assembly} (h : s.assembler.Whole) (steps) : (s.run steps).1.assembler.Whole := by
  induction steps generalizing s with
  | nil => exact h
  | cons step rest ih => exact ih (whole_step h step)

end Assembly

namespace CodeSpec

theorem whole_assemble (spec : CodeSpec) : ∃ a : Assembler, a.Whole ∧ spec.assemble.1 = a.build := by
  have start : ∀ a : Assembler, a.units = #[] → a.firstTraceable = 0 → a.Whole := by
    intro a units traceable
    refine ⟨?_, ?_, fun j lt => ?_⟩
    · rw [traceable]
      exact .refl 0
    · rw [units]
      exact .refl 0
    · rw [units] at lt
      exact absurd lt (Nat.not_lt_zero j)
  refine ⟨_, Assembly.whole_run (start _ ?_ ?_) spec.steps, rfl⟩
  · cases spec.filename <;> cases spec.firstLine <;> rfl
  · cases spec.filename <;> cases spec.firstLine <;> rfl

theorem onGrid_assemble (spec : CodeSpec) : spec.assemble.1.OnGrid := by
  obtain ⟨a, whole, assembled⟩ := spec.whole_assemble
  exact assembled ▸ whole.traceable

theorem mem_offsets_assemble (spec : CodeSpec) (stands : spec.assemble.1.opcodeAt j ≠ .cache) :
    j ∈ spec.assemble.1.offsetsFrom 0 := by
  obtain ⟨a, whole, assembled⟩ := spec.whole_assemble
  rw [assembled] at stands ⊢
  have lt : j < a.units.size := Nat.lt_of_not_le fun beyond => stands (Code.opcodeAt_of_ge beyond)
  exact Code.mem_offsetsFrom.2 ⟨whole.starts j lt stands, lt⟩

end CodeSpec

end MonitoredVm
