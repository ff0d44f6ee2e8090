import MonitoredVm.Proofs.Grid

/-!
# Assemblies step by step

The assembler writes forward: the prefixes of an operand, the instruction, its caches, all on the current line. A jump gets
its operand later, when it is patched. So a step does one of three things (`Assembly.step_cases`): it emits an instruction,
it patches a jump emitted before, or it leaves what was emitted as it is.

Main statements: what was emitted stays as it is but for the operands of jumps (`Assembly.grows_run`), and these are in the
end what the last patch made them (`Assembly.unit_run`).
-/

namespace MonitoredVm

open List

namespace Assembler
variable {a b : Assembler}

/-! ## What an instruction is encoded as -/

/-- The units of an instruction: its prefixes, itself with the lowest byte, its caches. -/
def encoding (op : Opcode) (bytes : List UInt8) (low : UInt8) : List CodeUnit :=
  bytes.map (CodeUnit.ofOpcode .extendedArg) ++ CodeUnit.ofOpcode op low :: List.replicate op.caches {}

/-- The second assembler has written these units after the first, all on the line current then. -/
structure Writes (a b : Assembler) (written : List CodeUnit) : Prop where
  units : b.units = a.units ++ written.toArray
  lines : b.lines = a.lines ++ (List.replicate written.length a.currentLine).toArray

theorem writes_push (a : Assembler) (op arg) : a.Writes (a.push op arg) (encoding op [] arg) :=
  ⟨rfl, by simp [push, encoding]⟩

theorem Writes.trans (h : a.Writes b first) (h' : b.Writes c second) (line : b.currentLine = a.currentLine) :
    a.Writes c (first ++ second) := by
  refine ⟨?_, ?_⟩
  · simp [h'.units, h.units]
  · simp [h'.lines, h.lines, line, Array.append_assoc]

theorem writes_emit (a : Assembler) (op) (arg : UInt32) :
    a.Writes (a.emit op arg) (encoding op (highBytes arg) (UInt8.ofNat arg.toNat)) := by
  have prefixes : ∀ (bytes : List UInt8) (a : Assembler),
      a.Writes (bytes.foldl (fun a byte => a.push .extendedArg byte) a) (bytes.map (.ofOpcode .extendedArg)) ∧
        (bytes.foldl (fun a byte => a.push .extendedArg byte) a).currentLine = a.currentLine := by
    intro bytes
    induction bytes with
    | nil => exact fun a => ⟨⟨by simp, by simp⟩, rfl⟩
    | cons byte rest ih =>
      intro a
      obtain ⟨writes, line⟩ := ih (a.push .extendedArg byte)
      exact ⟨(a.writes_push .extendedArg byte).trans writes rfl, line⟩
  obtain ⟨writes, line⟩ := prefixes (highBytes arg) a
  exact writes.trans (writes_push _ op _) line

section Writes
variable {written : List CodeUnit}

theorem Writes.size (h : a.Writes b written) : b.units.size = a.units.size + written.length := by
  rw [h.units, Array.size_append]
  rfl

theorem Writes.unitAt_of_lt (h : a.Writes b written) (lt : j < a.units.size) : b.build.unitAt j = a.build.unitAt j := by
  change (b.units[j]?).getD {} = (a.units[j]?).getD {}
  rw [h.units, Array.getElem?_append_left lt]

theorem Writes.unitAt_add (h : a.Writes b written) (k) : b.build.unitAt (a.units.size + k) = (written[k]?).getD {} := by
  change (b.units[a.units.size + k]?).getD {} = _
  rw [h.units, Array.getElem?_append_right (Nat.le_add_right ..), Nat.add_sub_cancel_left, getElem?_toArray]

theorem Writes.line_of_lt (h : a.Writes b written) (lined : a.lines.size = a.units.size) (lt : j < a.units.size) :
    b.build.line j = a.build.line j := by
  change (b.lines[j]?).join = (a.lines[j]?).join
  rw [h.lines, Array.getElem?_append_left (lined ▸ lt)]

theorem Writes.line_of_ge (h : a.Writes b written) (lined : a.lines.size = a.units.size) (ge : a.units.size ≤ j)
    (lt : j < b.units.size) : b.build.line j = a.currentLine := by
  rw [h.size] at lt
  change (b.lines[j]?).join = _
  rw [h.lines, Array.getElem?_append_right (lined ▸ ge), getElem?_toArray, getElem?_replicate,
    if_pos (by omega)]
  rfl

end Writes

section Encoding
variable {op : Opcode} {bytes : List UInt8} {low : UInt8}

theorem length_encoding : (encoding op bytes low).length = bytes.length + 1 + op.caches := by
  simp [encoding]
  omega

theorem encoding_prefix {k : Nat} {byte : UInt8} (there : bytes[k]? = some byte) :
    (encoding op bytes low)[k]? = some (.ofOpcode .extendedArg byte) := by
  have lt := (List.getElem?_eq_some_iff.1 there).1
  rw [encoding, List.getElem?_append_left (by simpa using lt), List.getElem?_map, there]
  rfl

theorem encoding_instruction : (encoding op bytes low)[bytes.length]? = some (.ofOpcode op low) := by
  rw [encoding, getElem?_append_right (by simp), length_map, Nat.sub_self]
  rfl

theorem encoding_cache (after : bytes.length < k) : ((encoding op bytes low)[k]?).getD {} = {} := by
  obtain ⟨d, rfl⟩ := Nat.exists_eq_add_of_lt after
  rw [encoding, getElem?_append_right (by simp; omega), length_map,
    show bytes.length + d + 1 - bytes.length = d + 1 by omega, getElem?_cons_succ, getElem?_replicate]
  split <;> rfl

end Encoding

/-- The second assembler has come out of the first: what was emitted before is there still, operands aside. -/
structure Grows (a b : Assembler) : Prop where
  size : a.units.size ≤ b.units.size
  code : ∀ j < a.units.size, (b.build.unitAt j).code = (a.build.unitAt j).code
  line : ∀ j < a.units.size, b.build.line j = a.build.line j

theorem Grows.refl (a : Assembler) : a.Grows a := ⟨Nat.le_refl _, fun _ _ => rfl, fun _ _ => rfl⟩

theorem Grows.trans (h : a.Grows b) (h' : b.Grows c) : a.Grows c := by
  refine ⟨Nat.le_trans h.size h'.size, fun j lt => ?_, fun j lt => ?_⟩
  · exact (h'.code j (Nat.lt_of_lt_of_le lt h.size)).trans (h.code j lt)
  · exact (h'.line j (Nat.lt_of_lt_of_le lt h.size)).trans (h.line j lt)

theorem Grows.opcodeAt (h : a.Grows b) (lt : j < a.units.size) : b.build.opcodeAt j = a.build.opcodeAt j := by
  rw [Code.opcodeAt, h.code j lt]
  rfl

theorem Grows.next (h : a.Grows b) (lt : j < a.units.size) : b.build.next j = a.build.next j := by
  rw [Code.next, Code.instructionSize, h.opcodeAt lt]
  rfl

theorem Writes.grows (h : a.Writes b written) (lined : a.lines.size = a.units.size) : a.Grows b where
  size := by
    rw [h.size]
    exact Nat.le_add_right ..
  code _ lt := congrArg CodeUnit.code (h.unitAt_of_lt lt)
  line _ lt := h.line_of_lt lined lt

theorem grows_patch (units : b.units = a.units.setIfInBounds k { a.build.unitAt k with arg })
    (lines : b.lines = a.lines) : a.Grows b := by
  refine ⟨by simp [units], fun j lt => ?_, fun j _ => ?_⟩
  · change ((b.units[j]?).getD {}).code = ((a.units[j]?).getD {}).code
    rw [units, Array.getElem?_setIfInBounds]
    split
    next here =>
      subst here
      simp [lt, Code.unitAt, build]
    next => rfl
  · change (b.lines[j]?).join = (a.lines[j]?).join
    rw [lines]

end Assembler

/-! ## Steps of an assembly -/

/-- The opcode of the instruction that a step emits, if it emits one. -/
def AsmStep.opcode? : AsmStep → Option Opcode
  | .emit op _ | .jump op _ | .jumpBack op _ => some op
  | .endAsyncFor _ => some .endAsyncFor
  | _ => none

/-- The instruction a step has emitted, with the offset it reported. -/
def AsmStep.instruction? (step : AsmStep) (outcome : Assembly.Outcome) : Option (Opcode × Nat) :=
  step.opcode?.bind fun op => outcome.toOption.join.map fun i => (op, i)

namespace Assembly
open Assembler (encoding highBytes)

/-- The step points the jump at `i` to the offset reached so far. -/
def patches (s : Assembly) (i : Nat) : AsmStep → Bool
  | .patch label => decide (s.labels.get? label = some i) && (s.step (.patch label)).2.isOk
  | _ => false

/-- The offset at which the jump at `i` was last patched. -/
def landing (s : Assembly) (i : Nat) : List AsmStep → Option Nat
  | [] => none
  | step :: rest => (s.step step).1.landing i rest <|> if s.patches i step then some s.assembler.offset else none

/-- The step emits an instruction: it is written, and its offset reported. -/
structure Emits (s : Assembly) (step : AsmStep) (op : Opcode) (bytes : List UInt8) (low : UInt8) : Prop where
  opcode : step.opcode? = some op
  writes : s.assembler.Writes (s.step step).1.assembler (encoding op bytes low)
  reported : (s.step step).2 = .ok (some (s.assembler.offset + bytes.length))
  labels : ∀ l k, (s.step step).1.labels.get? l = some k → s.labels.get? l = some k ∨ k = s.assembler.offset + bytes.length

/-- The step points the jump at `k`, which was emitted before, to the offset reached so far. -/
structure Repoints (s : Assembly) (step : AsmStep) (k : Nat) : Prop where
  known : ∃ l, s.labels.get? l = some k
  near : s.assembler.offset - s.assembler.build.next k < 256
  units : (s.step step).1.assembler.units = s.assembler.units.setIfInBounds k
    { s.assembler.build.unitAt k with arg := UInt8.ofNat (s.assembler.offset - s.assembler.build.next k) }
  lines : (s.step step).1.assembler.lines = s.assembler.lines
  labels : (s.step step).1.labels = s.labels
  silent : step.instruction? (s.step step).2 = none
  patches : ∀ i, s.patches i step = decide (k = i)

/-- The step leaves what was emitted as it is. -/
structure Rests (s : Assembly) (step : AsmStep) : Prop where
  units : (s.step step).1.assembler.units = s.assembler.units
  lines : (s.step step).1.assembler.lines = s.assembler.lines
  labels : (s.step step).1.labels = s.labels
  silent : step.instruction? (s.step step).2 = none
  patches : ∀ i, s.patches i step = false

section Attempt
variable {s : Assembly} {r : Except BuildError Assembler} {reported : Option Nat}

theorem attempt_ok (ok : (s.attempt r reported).2 = .ok x) :
    ∃ a, r = .ok a ∧ x = reported ∧ (s.attempt r reported).1 = { s with assembler := a } := by
  cases r with
  | ok a => exact ⟨a, rfl, (Except.ok.inj ok).symm, rfl⟩
  | error e => cases ok

theorem attempt_error (refused : (s.attempt r reported).2 = .error e) : (s.attempt r reported).1 = s := by
  cases r with
  | ok a => cases refused
  | error e => rfl

end Attempt

theorem step_of_error {s : Assembly} {step e} (refused : (s.step step).2 = .error e) : (s.step step).1 = s := by
  cases step with
  | patch label => exact attempt_error refused
  | jumpBack op target => exact attempt_error refused
  | endAsyncFor target => exact attempt_error refused
  | emit | jump | line | noLine | traceable | handler | mark => cases refused

theorem rests_of_error {s : Assembly} {step e} (refused : (s.step step).2 = .error e) : s.Rests step := by
  have same := step_of_error refused
  refine ⟨by rw [same], by rw [same], by rw [same], ?_, fun i => ?_⟩
  · rw [refused, AsmStep.instruction?]
    cases step.opcode? <;> rfl
  · cases step with
    | patch label =>
      rw [patches, refused]
      exact Bool.and_false _
    | _ => rfl

section Emits
variable {s : Assembly}

theorem emits_emit (s : Assembly) (op arg) :
    s.Emits (.emit op arg) op (highBytes (UInt32.ofNat (s.number arg)))
      (UInt8.ofNat (UInt32.ofNat (s.number arg)).toNat) :=
  ⟨rfl, Assembler.writes_emit .., rfl, fun _ _ there => .inl there⟩

theorem emits_jump (s : Assembly) (op label) : s.Emits (.jump op label) op [] 0 := by
  refine ⟨rfl, Assembler.writes_push .., rfl, fun l k there => ?_⟩
  change (s.labels.insert label s.assembler.offset).get? l = some k at there
  rw [Bindings.get?_insert_any] at there
  split at there
  · exact .inr (Option.some.inj there).symm
  · exact .inl there

theorem distance_ok {offset d arg} (ok : Assembler.distance offset d = .ok arg) : d < 256 ∧ arg = UInt8.ofNat d := by
  unfold Assembler.distance at ok
  split at ok
  next lt => exact ⟨lt, (Except.ok.inj ok).symm⟩
  next => cases ok

theorem emits_jumpBack (accepted : (s.step (.jumpBack op target)).2 = .ok x) :
    (op = .jumpBackward ∨ op = .jumpBackwardNoInterrupt) ∧
      ∃ d, d < 256 ∧ d + s.number target = s.assembler.offset + 1 + op.caches ∧
        s.Emits (.jumpBack op target) op [] (UInt8.ofNat d) := by
  obtain ⟨a, ok, rfl, moved⟩ := attempt_ok accepted
  simp only [Assembler.jumpBackward, bind, Except.bind] at ok
  split at ok
  · cases ok
  next jumps =>
    split at ok
    · cases ok
    next behind =>
      split at ok
      · cases ok
      next arg fits =>
        obtain ⟨lt, rfl⟩ := distance_ok fits
        cases ok
        have writes := Assembler.writes_push s.assembler op
          (UInt8.ofNat (s.assembler.offset + 1 + op.caches - s.number target))
        have step : (s.step (.jumpBack op target)).1.labels = s.labels := (congrArg Assembly.labels moved :)
        refine ⟨by grind, _, lt, by omega, rfl, ?_, accepted, fun l k there => .inl (step ▸ there)⟩
        have assembler := congrArg Assembly.assembler moved
        exact assembler ▸ writes

theorem emits_endAsyncFor (accepted : (s.step (.endAsyncFor target)).2 = .ok x) :
    ∃ low, s.Emits (.endAsyncFor target) .endAsyncFor [] low ∧
      low.toNat = s.assembler.offset + 1 - min (s.number target) (s.assembler.offset + 1) := by
  obtain ⟨a, ok, rfl, moved⟩ := attempt_ok accepted
  simp only [Assembler.endAsyncFor, bind, Except.bind] at ok
  split at ok
  · cases ok
  next arg fits =>
    obtain ⟨lt, distance⟩ := distance_ok fits
    cases ok
    have step : (s.step (.endAsyncFor target)).1.labels = s.labels := (congrArg Assembly.labels moved :)
    refine ⟨arg, ⟨rfl, ?_, accepted, fun l k there => .inl (step ▸ there)⟩, ?_⟩
    · exact congrArg Assembly.assembler moved ▸ Assembler.writes_push s.assembler .endAsyncFor arg
    · rw [distance, UInt8.toNat_ofNat', Nat.mod_eq_of_lt lt]

theorem repoints_patch (known : s.labels.get? label = some k) (accepted : (s.step (.patch label)).2 = .ok x) :
    s.Repoints (.patch label) k := by
  obtain ⟨a, ok, rfl, moved⟩ := attempt_ok accepted
  rw [known, Option.getD_some] at ok
  simp only [Assembler.patchJump, bind, Except.bind] at ok
  split at ok
  · cases ok
  next arg fits =>
    obtain ⟨lt, rfl⟩ := distance_ok fits
    cases ok
    have next : s.assembler.build.next k =
        k + 1 + (Opcode.ofByte ((s.assembler.units[k]?).getD {}).code).caches := (Nat.add_assoc ..).symm
    have assembler := congrArg Assembly.assembler moved
    refine ⟨⟨label, known⟩, next ▸ lt, ?_, ?_, (congrArg Assembly.labels moved :), rfl, fun i => ?_⟩
    · rw [next]
      exact (congrArg Assembler.units assembler :)
    · exact (congrArg Assembler.lines assembler :)
    · rw [patches, known, accepted]
      simp [Except.isOk, Except.toBool]

end Emits

/-- What a step does: it emits an instruction, patches a jump or leaves what was emitted as it is. -/
theorem step_cases (s : Assembly) {step} (labelled : ∀ label, step = .patch label → (s.labels.get? label).isSome = true) :
    (∃ op bytes low, s.Emits step op bytes low) ∨ (∃ k, s.Repoints step k) ∨ s.Rests step := by
  cases outcome : (s.step step).2 with
  | error e => exact .inr (.inr (rests_of_error outcome))
  | ok x =>
    cases step with
    | emit op arg => exact .inl ⟨_, _, _, s.emits_emit op arg⟩
    | jump op label => exact .inl ⟨_, _, _, s.emits_jump op label⟩
    | jumpBack op target =>
      obtain ⟨-, d, -, -, emits⟩ := emits_jumpBack outcome
      exact .inl ⟨_, _, _, emits⟩
    | endAsyncFor target =>
      obtain ⟨low, emits, -⟩ := emits_endAsyncFor outcome
      exact .inl ⟨_, _, _, emits⟩
    | patch label =>
      obtain ⟨k, known⟩ := Option.isSome_iff_exists.1 (labelled label rfl)
      exact .inr (.inl ⟨k, repoints_patch known outcome⟩)
    | line | noLine | traceable | handler | mark => exact .inr (.inr ⟨rfl, rfl, rfl, rfl, fun _ => rfl⟩)

/-- An assembly between two steps: there is a line for each unit, no prefix waits for its instruction, and every jump that can
be patched is complete. -/
structure Sane (s : Assembly) : Prop where
  lined : s.assembler.lines.size = s.assembler.units.size
  closed : ∀ m, s.assembler.units.size = m + 1 → s.assembler.build.opcodeAt m ≠ .extendedArg
  labels : ∀ l k, s.labels.get? l = some k → s.assembler.build.next k ≤ s.assembler.units.size

section Steps
variable {s : Assembly} {step : AsmStep} {op : Opcode} {bytes : List UInt8} {low : UInt8} {k : Nat}

theorem Emits.opcodeAt (h : s.Emits step op bytes low) :
    (s.step step).1.assembler.build.opcodeAt (s.assembler.offset + bytes.length) = op := by
  have unit := h.writes.unitAt_add bytes.length
  rw [Assembler.encoding_instruction, Option.getD_some] at unit
  exact (congrArg (fun u => Opcode.ofByte u.code) unit).trans (Opcode.ofByte_byte op)

theorem Emits.next (h : s.Emits step op bytes low) :
    (s.step step).1.assembler.build.next (s.assembler.offset + bytes.length) = (s.step step).1.assembler.units.size := by
  rw [Code.next, Code.instructionSize, h.opcodeAt, h.writes.size, Assembler.length_encoding]
  change s.assembler.units.size + bytes.length + (1 + op.caches) = _
  omega

theorem Emits.prefix_opcodeAt (h : s.Emits step op bytes low) (lt : k < bytes.length) :
    (s.step step).1.assembler.build.opcodeAt (s.assembler.offset + k) = .extendedArg := by
  have unit := h.writes.unitAt_add k
  rw [Assembler.encoding_prefix (getElem?_eq_getElem lt), Option.getD_some] at unit
  exact (congrArg (fun u => Opcode.ofByte u.code) unit).trans (Opcode.ofByte_byte _)

theorem Emits.sane (h : s.Emits step op bytes low) (sane : s.Sane) (plain : op ≠ .extendedArg) : (s.step step).1.Sane := by
  have size := h.writes.size
  rw [Assembler.length_encoding] at size
  have grows := h.writes.grows sane.lined
  refine ⟨?_, fun m last => ?_, fun l k there => ?_⟩
  · rw [h.writes.lines, h.writes.units]
    simp [sane.lined]
  · obtain ⟨d, rfl⟩ : ∃ d, m = s.assembler.units.size + (bytes.length + d) := ⟨op.caches, by omega⟩
    rw [Code.opcodeAt, h.writes.unitAt_add]
    cases d with
    | zero =>
      rw [Nat.add_zero, Assembler.encoding_instruction]
      exact (Opcode.ofByte_byte op).symm ▸ plain
    | succ d =>
      rw [Assembler.encoding_cache (by omega)]
      decide
  · obtain old | rfl := h.labels l k there
    · have inside := sane.labels l k old
      have lt : k < s.assembler.units.size := Nat.lt_of_lt_of_le (Code.lt_next _ k) inside
      rw [grows.next lt]
      exact Nat.le_trans inside grows.size
    · exact Nat.le_of_eq h.next

theorem Repoints.grows (h : s.Repoints step k) : s.assembler.Grows (s.step step).1.assembler :=
  Assembler.grows_patch h.units h.lines

theorem Repoints.sane (h : s.Repoints step k) (sane : s.Sane) : (s.step step).1.Sane := by
  have size : (s.step step).1.assembler.units.size = s.assembler.units.size := by simp [h.units]
  refine ⟨?_, fun m last => ?_, fun l j there => ?_⟩
  · rw [h.lines, size, sane.lined]
  · rw [size] at last
    rw [h.grows.opcodeAt (by omega)]
    exact sane.closed m last
  · have inside := sane.labels l j (h.labels ▸ there)
    rw [size, h.grows.next (Nat.lt_of_lt_of_le (Code.lt_next _ j) inside)]
    exact inside

theorem Rests.unitAt (h : s.Rests step) (j) :
    (s.step step).1.assembler.build.unitAt j = s.assembler.build.unitAt j := by
  change ((s.step step).1.assembler.units[j]?).getD {} = (s.assembler.units[j]?).getD {}
  rw [h.units]

theorem Rests.grows (h : s.Rests step) : s.assembler.Grows (s.step step).1.assembler := by
  refine ⟨Nat.le_of_eq (by rw [h.units]), fun j _ => congrArg CodeUnit.code (h.unitAt j), fun j _ => ?_⟩
  change ((s.step step).1.assembler.lines[j]?).join = (s.assembler.lines[j]?).join
  rw [h.lines]

theorem Rests.sane (h : s.Rests step) (sane : s.Sane) : (s.step step).1.Sane := by
  refine ⟨?_, fun m last => ?_, fun l j there => ?_⟩
  · rw [h.lines, h.units, sane.lined]
  · rw [h.units] at last
    rw [h.grows.opcodeAt (by omega)]
    exact sane.closed m last
  · have inside := sane.labels l j (h.labels ▸ there)
    rw [h.units, h.grows.next (Nat.lt_of_lt_of_le (Code.lt_next _ j) inside)]
    exact inside

theorem Emits.patches (h : s.Emits step op bytes low) (i) : s.patches i step = false := by
  cases step with
  | patch label => cases h.opcode
  | _ => rfl

end Steps

/-- The steps put no prefixes of their own and patch only jumps emitted before. -/
structure Legal (s : Assembly) (steps : List AsmStep) : Prop where
  plain : ∀ step ∈ steps, step.opcode? ≠ some .extendedArg
  labelled : ∀ before label rest, steps = before ++ .patch label :: rest →
    ((s.run before).1.labels.get? label).isSome = true

section Legal
variable {s : Assembly} {step : AsmStep} {rest : List AsmStep}

section
variable (h : s.Legal (step :: rest))
include h

theorem Legal.head (label) (patch : step = .patch label) :
    (s.labels.get? label).isSome = true := h.labelled [] label rest (patch ▸ rfl)

theorem Legal.tail : (s.step step).1.Legal rest where
  plain next inside := h.plain next (mem_cons_of_mem _ inside)
  labelled before label after split := h.labelled (step :: before) label after (by rw [split]; rfl)

theorem Legal.op_ne (emitted : step.opcode? = some op) : op ≠ .extendedArg := by
  rintro rfl
  exact h.plain step mem_cons_self emitted

theorem Legal.cases :
    (∃ op bytes low, op ≠ .extendedArg ∧ s.Emits step op bytes low) ∨ (∃ k, s.Repoints step k) ∨ s.Rests step := by
  obtain ⟨op, bytes, low, emits⟩ | others := s.step_cases h.head
  · exact .inl ⟨op, bytes, low, h.op_ne emits.opcode, emits⟩
  · exact .inr others

theorem Legal.sane (sane : s.Sane) : (s.step step).1.Sane := by
  obtain ⟨op, bytes, low, plain, emits⟩ | ⟨k, repoints⟩ | rests := h.cases
  · exact emits.sane sane plain
  · exact repoints.sane sane
  · exact rests.sane sane

theorem Legal.grows (sane : s.Sane) : s.assembler.Grows (s.step step).1.assembler := by
  obtain ⟨op, bytes, low, -, emits⟩ | ⟨k, repoints⟩ | rests := h.cases
  · exact emits.writes.grows sane.lined
  · exact repoints.grows
  · exact rests.grows

end

theorem grows_run (h : s.Legal steps) (sane : s.Sane) : s.assembler.Grows (s.run steps).1.assembler := by
  induction steps generalizing s with
  | nil => exact .refl _
  | cons step rest ih => exact (h.grows sane).trans (ih h.tail (h.sane sane))

theorem sane_run (h : s.Legal steps) (sane : s.Sane) : (s.run steps).1.Sane := by
  induction steps generalizing s with
  | nil => exact sane
  | cons step rest ih => exact ih h.tail (h.sane sane)

theorem unit_step (h : s.Legal (step :: rest)) (lt : j < s.assembler.units.size) :
    (s.step step).1.assembler.build.unitAt j =
      if s.patches j step then
        { s.assembler.build.unitAt j with arg := UInt8.ofNat (s.assembler.offset - s.assembler.build.next j) }
      else s.assembler.build.unitAt j := by
  obtain ⟨op, bytes, low, -, emits⟩ | ⟨k, repoints⟩ | rests := h.cases
  · rw [emits.patches, if_neg Bool.false_ne_true]
    exact emits.writes.unitAt_of_lt lt
  · rw [repoints.patches]
    change ((s.step step).1.assembler.units[j]?).getD {} = _
    rw [repoints.units, Array.getElem?_setIfInBounds]
    by_cases here : k = j
    · subst here
      simp [lt]
    · simp [here]
      rfl
  · rw [rests.patches, if_neg Bool.false_ne_true]
    exact rests.unitAt j

theorem unit_run (h : s.Legal steps) (sane : s.Sane) (lt : j < s.assembler.units.size) :
    (s.run steps).1.assembler.build.unitAt j =
      ((s.landing j steps).map fun p => { s.assembler.build.unitAt j with
        arg := UInt8.ofNat (p - s.assembler.build.next j) }).getD (s.assembler.build.unitAt j) := by
  induction steps generalizing s with
  | nil => rfl
  | cons step rest ih =>
    have grows := h.grows sane
    have later := ih h.tail (h.sane sane) (Nat.lt_of_lt_of_le lt grows.size)
    rw [grows.next lt, unit_step h lt] at later
    change ((s.step step).1.run rest).1.assembler.build.unitAt j = _
    rw [later, landing]
    cases (s.step step).1.landing j rest with
    | some p => by_cases patched : s.patches j step <;> simp [patched]
    | none => by_cases patched : s.patches j step <;> simp [patched]

theorem landing_eq_none (h : s.Legal steps) (sane : s.Sane) (lt : j < s.assembler.units.size)
    (unlabelled : ∀ l, s.labels.get? l ≠ some j) : s.landing j steps = none := by
  induction steps generalizing s with
  | nil => rfl
  | cons step rest ih =>
    have grows := h.grows sane
    rw [landing]
    obtain ⟨op, bytes, low, -, emits⟩ | ⟨k, repoints⟩ | rests := h.cases
    · rw [ih h.tail (h.sane sane) (Nat.lt_of_lt_of_le lt grows.size), emits.patches]
      · rfl
      · intro l there
        obtain old | new := emits.labels l j there
        · exact unlabelled l old
        · exact Nat.not_lt.2 (Nat.le_add_right ..) (new ▸ lt)
    · obtain ⟨l, known⟩ := repoints.known
      have other : k ≠ j := fun same => unlabelled l (same ▸ known)
      rw [ih h.tail (h.sane sane) (Nat.lt_of_lt_of_le lt grows.size) (repoints.labels ▸ unlabelled), repoints.patches,
        decide_eq_false other]
      rfl
    · rw [ih h.tail (h.sane sane) (Nat.lt_of_lt_of_le lt grows.size) (rests.labels ▸ unlabelled), rests.patches]
      rfl

theorem landing_near (h : s.Legal steps) (sane : s.Sane) (lt : j < s.assembler.units.size)
    (landed : s.landing j steps = some p) : s.assembler.units.size ≤ p ∧ p - s.assembler.build.next j < 256 := by
  induction steps generalizing s with
  | nil => cases landed
  | cons step rest ih =>
    have grows := h.grows sane
    rw [landing] at landed
    cases later : (s.step step).1.landing j rest with
    | some q =>
      rw [later] at landed
      obtain rfl : q = p := by simpa using landed
      obtain ⟨beyond, near⟩ := ih h.tail (h.sane sane) (Nat.lt_of_lt_of_le lt grows.size) later
      exact ⟨Nat.le_trans grows.size beyond, grows.next lt ▸ near⟩
    | none =>
      rw [later] at landed
      obtain ⟨op, bytes, low, -, emits⟩ | ⟨k, repoints⟩ | rests := h.cases
      · simp [emits.patches] at landed
      · rw [repoints.patches] at landed
        obtain ⟨rfl, rfl⟩ : k = j ∧ s.assembler.offset = p := by simpa using landed
        exact ⟨Nat.le_refl _, repoints.near⟩
      · simp [rests.patches] at landed

end Legal

end Assembly
end MonitoredVm
