import MonitoredVm.Monitoring.Dispatch
import MonitoredVm.Proofs.Grid
import MonitoredVm.Proofs.Listing

/-!
# The ends of asynchronous loops

An `END_ASYNC_FOR` points back over a distance of one byte. Its step takes the distance to a target that lies ahead as none, so
it refuses only what is too far behind, where a jump back refuses what lies ahead as well. Later steps leave the instruction as
it is unless they patch it (`keeps_run`).

Main statement: `loop_end_encoded`.
-/

namespace MonitoredVm

/-- What was emitted is there still, with the operands of the units in `p`. -/
structure Code.Keeps (p : Nat → Prop) (c c' : Code) : Prop where
  size : c.size ≤ c'.size
  opcodeAt : ∀ {j}, j < c.size → c'.opcodeAt j = c.opcodeAt j
  arg : ∀ {j}, j < c.size → p j → (c'.unitAt j).arg = (c.unitAt j).arg

theorem Code.Keeps.refl (p c) : Code.Keeps p c c := ⟨Nat.le_refl _, fun _ => rfl, fun _ _ => rfl⟩

theorem Code.Keeps.trans {p : Nat → Prop} {c c' c'' : Code} (h : c.Keeps p c') (h' : c'.Keeps p c'') : c.Keeps p c'' where
  size := Nat.le_trans h.size h'.size
  opcodeAt lt := (h'.opcodeAt (Nat.lt_of_lt_of_le lt h.size)).trans (h.opcodeAt lt)
  arg lt kept := (h'.arg (Nat.lt_of_lt_of_le lt h.size) kept).trans (h.arg lt kept)

namespace Assembly
variable {s : Assembly} {p : Nat → Prop}

theorem Emits.keeps {step op bytes low} (h : s.Emits step op bytes low) (p) :
    s.assembler.build.Keeps p (s.step step).1.assembler.build where
  size := by
    change s.assembler.units.size ≤ (s.step step).1.assembler.units.size
    rw [h.writes.size]
    exact Nat.le_add_right ..
  opcodeAt lt := congrArg (fun u : CodeUnit => Opcode.ofByte u.code) (h.writes.unitAt_of_lt lt)
  arg lt _ := congrArg CodeUnit.arg (h.writes.unitAt_of_lt lt)

/-- A step changes operands only by patching. A label that is not known stands for the first instruction. -/
theorem keeps_step (s : Assembly) {step} (spared : ∀ label, step = .patch label → ¬ p ((s.labels.get? label).getD 0)) :
    s.assembler.build.Keeps p (s.step step).1.assembler.build := by
  cases outcome : (s.step step).2 with
  | error e =>
    rw [step_of_error outcome]
    exact .refl ..
  | ok x =>
    cases step with
    | emit op arg => exact (s.emits_emit op arg).keeps p
    | jump op label => exact (s.emits_jump op label).keeps p
    | jumpBack op target =>
      obtain ⟨-, d, -, -, emits⟩ := emits_jumpBack outcome
      exact emits.keeps p
    | endAsyncFor target =>
      obtain ⟨low, emits, -⟩ := emits_endAsyncFor outcome
      exact emits.keeps p
    | patch label =>
      obtain ⟨a, ok, -, moved⟩ := attempt_ok outcome
      obtain ⟨arg, rfl⟩ := Assembler.patchJump_ok ok
      have units : (s.step (.patch label)).1.assembler.units = s.assembler.units.setIfInBounds
          ((s.labels.get? label).getD 0) { s.assembler.build.unitAt ((s.labels.get? label).getD 0) with arg } :=
        (congrArg (fun s : Assembly => s.assembler.units) moved :)
      have grows := Assembler.grows_patch units (congrArg (fun s : Assembly => s.assembler.lines) moved :)
      refine ⟨grows.size, grows.opcodeAt, fun {j} _ kept => ?_⟩
      have elsewhere : (s.labels.get? label).getD 0 ≠ j := by
        rintro rfl
        exact spared label rfl kept
      change (((s.step (.patch label)).1.assembler.units[j]?).getD {}).arg = _
      rw [units, Array.getElem?_setIfInBounds_ne elsewhere]
      rfl
    | line | noLine | traceable | handler | mark => exact ⟨Nat.le_refl _, fun _ => rfl, fun _ _ => rfl⟩

/-- Taken in turn, none of the steps patches the instruction at `i`. -/
def Spares (s : Assembly) (i : Nat) : List AsmStep → Prop
  | [] => True
  | step :: rest => (∀ label, step = .patch label → (s.labels.get? label).getD 0 ≠ i) ∧ (s.step step).1.Spares i rest

theorem keeps_run (spares : s.Spares i steps) : s.assembler.build.Keeps (· = i) (s.run steps).1.assembler.build := by
  induction steps generalizing s with
  | nil => exact .refl ..
  | cons step rest ih => exact (keeps_step s spares.1).trans (ih spares.2)

end Assembly

theorem Code.loop_end_told (ends : c.opcodeAt i = .endAsyncFor) (plain : ∀ j, j + 1 = i → c.opcodeAt j ≠ .extendedArg)
    (span : source + (c.unitAt i).arg.toNat = i + 1) : c.branchAt? i = some ⟨source, source + 2, i + 1⟩ ∧
      ∀ prev taken, Act.opcodeEvent? c i prev taken = some (.branchRight, source, .destination (i + 1)) := by
  have next : c.next i = i + 1 := by rw [next, instructionSize, ends]; rfl
  have oparg : c.oparg i = (c.unitAt i).arg.toNat := by
    cases i with
    | zero => rfl
    | succ j => rw [Code.oparg, prefixed, if_neg (plain j rfl), Nat.add_zero]
  have back : i + 1 - c.oparg i = source := by omega
  have within : c.oparg i ≤ i + 1 := by omega
  constructor
  · simp [branchAt?, subtract?, ends, next, back, within]
  · intro prev taken
    simp [Act.opcodeEvent?, ends, next, back]

namespace Assembly
variable {s : Assembly} {target : Operand}

/-- The offset that an `END_ASYNC_FOR` put for the target points at: a target ahead is taken to be the next instruction. -/
def pointed (s : Assembly) (target : Operand) : Nat := min (s.number target) (s.assembler.offset + 1)

theorem endAsyncFor_outcome (s : Assembly) (target) : (s.step (.endAsyncFor target)).2 =
    if s.number target + 256 ≤ s.assembler.offset + 1 then
      .error (.jumpTooFar s.assembler.offset (s.assembler.offset + 1 - s.number target))
    else .ok (some s.assembler.offset) := by
  change (s.attempt (s.assembler.endAsyncFor (s.number target)) _).2 = _
  simp only [Assembler.endAsyncFor, Assembler.distance]
  by_cases far : s.number target + 256 ≤ s.assembler.offset + 1
  · rw [if_pos far, Nat.min_eq_left (by omega), if_neg (by omega)]
    rfl
  · rw [if_neg far, if_pos (by omega)]
    rfl

theorem endAsyncFor_told (accepted : (s.step (.endAsyncFor target)).2 = .ok x)
    (plain : ∀ j, j + 1 = s.assembler.offset → s.assembler.build.opcodeAt j ≠ .extendedArg)
    (spares : (s.step (.endAsyncFor target)).1.Spares s.assembler.offset rest)
    (built : (s.run (.endAsyncFor target :: rest)).1.assembler.build = c) :
    c.opcodeAt s.assembler.offset = .endAsyncFor ∧
      c.branchAt? s.assembler.offset = some ⟨s.pointed target, s.pointed target + 2, s.assembler.offset + 1⟩ ∧
      ∀ prev taken, Act.opcodeEvent? c s.assembler.offset prev taken =
        some (.branchRight, s.pointed target, .destination (s.assembler.offset + 1)) := by
  obtain ⟨low, emits, distance⟩ := emits_endAsyncFor accepted
  have later : (s.step (.endAsyncFor target)).1.assembler.build.Keeps _ c := built ▸ keeps_run spares
  have here : s.assembler.offset < (s.step (.endAsyncFor target)).1.assembler.build.size := by
    change s.assembler.units.size < (s.step (.endAsyncFor target)).1.assembler.units.size
    rw [emits.writes.size, Assembler.length_encoding]
    omega
  have ends := (later.opcodeAt here).trans emits.opcodeAt
  refine ⟨ends, Code.loop_end_told ends (fun j before => ?_) ?_⟩
  · rw [later.opcodeAt (by omega), (emits.keeps (· = j)).opcodeAt (show j < s.assembler.units.size from by
      change j + 1 = s.assembler.units.size at before
      omega)]
    exact plain j before
  · have unit := emits.writes.unitAt_add 0
    rw [show (Assembler.encoding .endAsyncFor [] low)[0]? = _ from Assembler.encoding_instruction] at unit
    rw [later.arg here rfl]
    change _ + ((s.step (.endAsyncFor target)).1.assembler.build.unitAt (s.assembler.units.size + 0)).arg.toNat = _
    rw [unit, pointed]
    change _ + low.toNat = _
    omega

end Assembly

/-- How the end of an asynchronous loop is encoded. It is refused exactly if its target is too far behind, and then nothing
changes. Otherwise, unless a prefix stands before it or it is patched later, the code lists for it, and stepping it reports,
a branch at the offset it points at: its target if that is behind it, but the next instruction for a target ahead, which a jump
back would refuse. -/
theorem loop_end_encoded (spec : CodeSpec) (before rest : List AsmStep) (target : Operand)
    (steps : spec.steps = before ++ .endAsyncFor target :: rest) {s : Assembly} (reached : (spec.blank.run before).1 = s) :
    ((∃ e, (s.step (.endAsyncFor target)).2 = .error e) ↔ s.number target + 256 ≤ s.assembler.offset + 1) ∧
    (∀ e, (s.step (.endAsyncFor target)).2 = .error e → (s.step (.endAsyncFor target)).1 = s) ∧
    (s.number target ≤ s.assembler.offset → s.pointed target = s.number target) ∧
    (s.assembler.offset < s.number target → s.pointed target = s.assembler.offset + 1 ∧
      (s.step (.jumpBack .jumpBackward target)).2 = .error (.notBackward s.assembler.offset (s.number target))) ∧
    ∀ x, (s.step (.endAsyncFor target)).2 = .ok x →
      (∀ j, j + 1 = s.assembler.offset → s.assembler.build.opcodeAt j ≠ .extendedArg) →
      (s.step (.endAsyncFor target)).1.Spares s.assembler.offset rest →
      x = some s.assembler.offset ∧ s.assembler.offset ∈ spec.assemble.1.offsetsFrom 0 ∧
        spec.assemble.1.branchAt? s.assembler.offset =
          some ⟨s.pointed target, s.pointed target + 2, s.assembler.offset + 1⟩ ∧
        ∀ prev taken, Act.opcodeEvent? spec.assemble.1 s.assembler.offset prev taken =
          some (.branchRight, s.pointed target, .destination (s.assembler.offset + 1)) := by
  have outcome := s.endAsyncFor_outcome target
  refine ⟨?_, fun e refused => Assembly.step_of_error refused, fun behind => ?_, fun ahead => ⟨?_, ?_⟩,
    fun x accepted plain spares => ?_⟩
  · rw [outcome]
    split <;> simp_all
  · exact Nat.min_eq_left (Nat.le_succ_of_le behind)
  · exact Nat.min_eq_right ahead
  · simp [Assembly.step, Assembly.attempt, Assembler.jumpBackward, ahead, throw, throwThe, MonadExceptOf.throw]
  · have built : (s.run (.endAsyncFor target :: rest)).1.assembler.build = spec.assemble.1 := by
      rw [spec.assemble_eq, steps, ← reached, ← Assembly.run_append]
    obtain ⟨ends, listed, told⟩ := Assembly.endAsyncFor_told accepted plain spares built
    refine ⟨?_, spec.mem_offsets_assemble (by rw [ends]; decide), listed, told⟩
    rw [outcome] at accepted
    split at accepted
    · cases accepted
    · exact (Except.ok.inj accepted).symm

/-- An end at the start of the code, put for a target ahead of it. -/
def aheadSpec : CodeSpec := { steps := [.endAsyncFor (.literal 5)] }

theorem loop_end_encoded_ahead :
    aheadSpec.assemble.2 = [.ok (some 0)] ∧ ⟨1, 3, 1⟩ ∈ aheadSpec.assemble.1.branches ∧
      (aheadSpec.blank.step (.jumpBack .jumpBackward (.literal 5))).2 = .error (.notBackward 0 5) ∧
      Act.opcodeEvent? aheadSpec.assemble.1 0 none false = some (.branchRight, 1, .destination 1) := by
  obtain ⟨-, -, -, ahead, told⟩ := loop_end_encoded aheadSpec [] [] (.literal 5) rfl rfl
  obtain ⟨-, start, listed, event⟩ := told _ rfl (fun j before => by cases before) trivial
  exact ⟨rfl, List.mem_filterMap.2 ⟨0, start, listed⟩, (ahead (by decide)).2, event none false⟩

end MonitoredVm
