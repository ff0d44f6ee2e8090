import MonitoredVm.Proofs.Assembly

/-!
# Reading an assembly back

The reader of a code object starts at an offset, looks back for the prefixes of an operand and steps over caches. What it
finds is what was assembled, for every assembly that puts no prefixes of its own and patches only jumps it has emitted.

Main statements: the reader meets the instructions in the order in which they were put (`Assembly.path_run`,
`Assembly.read_run`) and reads back operands, lines and the targets of jumps (`Assembly.decoded`).
-/

namespace MonitoredVm

open List

namespace Code
variable {c : Code} {i j k : Nat} {l l' : List Nat}

/-! ## Stepping over instructions -/

/-- Stepping over the instructions at the offsets `l` leads from `i` to `j`. -/
inductive Path (c : Code) : Nat → List Nat → Nat → Prop where
  | nil (i : Nat) : Path c i [] i
  | cons {i j : Nat} {l : List Nat} : i < c.size → Path c (c.next i) l j → Path c i (i :: l) j

theorem Path.append (h : c.Path i l j) (h' : c.Path j l' k) : c.Path i (l ++ l') k := by
  induction h with
  | nil => exact h'
  | cons lt _ ih => exact .cons lt (ih h')

theorem Path.walk_eq (h : c.Path i l j) (ends : c.size ≤ j) {count} (room : c.size - i ≤ count) :
    c.walk count i = l := by
  induction h generalizing count with
  | nil i =>
    cases count with
    | zero => rfl
    | succ count => rw [walk, if_neg (by omega)]
  | @cons i j l lt _ ih =>
    have step := c.lt_next i
    cases count with
    | zero => omega
    | succ count => rw [walk, if_pos lt, ih ends (by omega)]

theorem Path.offsetsFrom_eq (h : c.Path i l c.size) : c.offsetsFrom i = l := h.walk_eq (Nat.le_refl _) (Nat.le_refl _)

theorem Path.next_last (h : c.Path i l j) (last : l.getLast? = some k) : c.next k = j := by
  induction h with
  | nil => cases last
  | @cons i j l _ rest ih =>
    cases l with
    | nil =>
      obtain rfl : i = k := by simpa using last
      cases rest
      rfl
    | cons i' l => exact ih (by simpa using last)

theorem Path.extend {c' : Code} (longer : c.size ≤ c'.size)
    (same : ∀ i, i < c.size → (c'.unitAt i).code = (c.unitAt i).code) (h : c.Path i l j) : c'.Path i l j := by
  induction h with
  | nil => exact .nil _
  | @cons i j l lt _ ih =>
    have next : c'.next i = c.next i := by simp only [next, instructionSize, opcodeAt, same i lt]
    exact .cons (Nat.lt_of_lt_of_le lt longer) (next ▸ ih)

/-! ## Reading operands -/

/-- The number that bytes stand for, the most significant first. -/
def bytesValue (bytes : List UInt8) : Nat := bytes.foldl (fun v b => v * 256 + b.toNat) 0

theorem bytesValue_append (bytes) (b : UInt8) : bytesValue (bytes ++ [b]) = bytesValue bytes * 256 + b.toNat := by
  rw [bytesValue, foldl_append]
  rfl

theorem prefixed_eq {bytes n count} (weight) (room : bytes.length ≤ count)
    (prefixes : ∀ k b, bytes[k]? = some b → c.unitAt (n + k) = .ofOpcode .extendedArg b)
    (before : ∀ m, n = m + 1 → c.opcodeAt m ≠ .extendedArg) :
    c.prefixed count (n + bytes.length) weight = weight * bytesValue bytes := by
  induction count generalizing bytes weight with
  | zero =>
    obtain rfl : bytes = [] := length_eq_zero_iff.1 (Nat.le_zero.1 room)
    rfl
  | succ count ih =>
    obtain rfl | ⟨rest, b, rfl⟩ := eq_nil_or_concat bytes
    · cases n with
      | zero => rfl
      | succ m => exact if_neg (before m rfl)
    · rw [concat_eq_append] at room prefixes ⊢
      have here : c.unitAt (n + rest.length) = .ofOpcode .extendedArg b := prefixes _ _ (by simp)
      have others : ∀ k b, rest[k]? = some b → c.unitAt (n + k) = .ofOpcode .extendedArg b := fun k b there =>
        prefixes k b (by rw [List.getElem?_append_left (List.getElem?_eq_some_iff.1 there).1, there])
      have isPrefix : c.opcodeAt (n + rest.length) = .extendedArg := by
        rw [opcodeAt, here]
        exact Opcode.ofByte_byte _
      rw [length_append, length_singleton, ← Nat.add_assoc, prefixed, if_pos isPrefix, here,
        ih (weight * 256) (by simpa using room) others, bytesValue_append]
      change b.toNat * weight + weight * 256 * bytesValue rest = _
      rw [Nat.mul_add, Nat.mul_comm b.toNat, Nat.mul_assoc, Nat.mul_comm 256, Nat.add_comm]

end Code

namespace Assembler

theorem bytesValue_dropWhile (bytes : List UInt8) :
    Code.bytesValue (bytes.dropWhile (· == 0)) = Code.bytesValue bytes := by
  induction bytes with
  | nil => rfl
  | cons byte rest ih =>
    rw [dropWhile_cons]
    split
    next zero =>
      obtain rfl : byte = 0 := by simpa using zero
      exact ih
    next => rfl

theorem bytesValue_highBytes (arg : UInt32) : Code.bytesValue (highBytes arg) = arg.toNat / 256 := by
  have lt := arg.toNat_lt
  rw [highBytes, bytesValue_dropWhile]
  simp only [Code.bytesValue, foldl_cons, foldl_nil, UInt8.toNat_ofNat', Nat.shiftRight_eq_div_pow]
  omega

theorem length_highBytes (arg) : (highBytes arg).length ≤ 3 := (dropWhile_sublist _).length_le

end Assembler

namespace Assembly
open Assembler (highBytes)

/-- The offsets at which a step puts instructions: from where it starts, over the prefixes, to what it reports. -/
def placed (s : Assembly) (step : AsmStep) : List Nat :=
  ((step.instruction? (s.step step).2).map fun x => List.range' s.assembler.offset (x.2 + 1 - s.assembler.offset)).getD []

/-- The offsets at which steps taken in turn put instructions. -/
def placedAll (s : Assembly) : List AsmStep → List Nat
  | [] => []
  | step :: rest => s.placed step ++ (s.step step).1.placedAll rest

/-- The instructions that steps have emitted, by their outcomes. -/
def listing : List AsmStep → List Outcome → List (Opcode × Nat)
  | step :: steps, outcome :: outcomes => (step.instruction? outcome).toList ++ listing steps outcomes
  | _, _ => []

section Reading
variable {s : Assembly} {step : AsmStep} {op : Opcode} {bytes : List UInt8} {low : UInt8}

theorem Emits.instruction (h : s.Emits step op bytes low) :
    step.instruction? (s.step step).2 = some (op, s.assembler.offset + bytes.length) := by
  rw [AsmStep.instruction?, h.opcode, h.reported]
  rfl

theorem Emits.placed (h : s.Emits step op bytes low) :
    s.placed step = List.range' s.assembler.offset bytes.length ++ [s.assembler.offset + bytes.length] := by
  rw [Assembly.placed, h.instruction, ← range'_1_concat]
  simp only [Option.map_some, Option.getD_some]
  congr 1
  omega

theorem Emits.path (h : s.Emits step op bytes low) :
    (s.step step).1.assembler.build.Path s.assembler.offset (s.placed step) (s.step step).1.assembler.units.size := by
  have size : (s.step step).1.assembler.build.size = s.assembler.offset + bytes.length + 1 + op.caches := by
    have size := h.writes.size
    rw [Assembler.length_encoding] at size
    change (s.step step).1.assembler.units.size = s.assembler.units.size + bytes.length + 1 + op.caches
    omega
  have prefixes : ∀ n k, n + k = bytes.length →
      (s.step step).1.assembler.build.Path (s.assembler.offset + k) (List.range' (s.assembler.offset + k) n)
        (s.assembler.offset + bytes.length) := by
    intro n
    induction n with
    | zero =>
      intro k all
      obtain rfl : k = bytes.length := by omega
      exact .nil _
    | succ n ih =>
      intro k all
      have next : (s.step step).1.assembler.build.next (s.assembler.offset + k) = s.assembler.offset + (k + 1) := by
        rw [Code.next, Code.instructionSize, h.prefix_opcodeAt (by omega)]
        rfl
      exact .cons (by omega) (next ▸ ih (k + 1) (by omega))
  rw [h.placed]
  refine (prefixes bytes.length 0 (by omega)).append (.cons (by omega) ?_)
  rw [h.next]
  exact .nil _

theorem path_step (h : s.Legal (step :: rest)) :
    (s.step step).1.assembler.build.Path s.assembler.units.size (s.placed step) (s.step step).1.assembler.units.size := by
  obtain ⟨op, bytes, low, -, emits⟩ | ⟨k, repoints⟩ | rests := h.cases
  · exact emits.path
  · rw [placed, repoints.silent, repoints.units, Array.size_setIfInBounds]
    exact .nil _
  · rw [placed, rests.silent, rests.units]
    exact .nil _

theorem path_run (h : s.Legal steps) (sane : s.Sane) :
    (s.run steps).1.assembler.build.Path s.assembler.units.size (s.placedAll steps)
      (s.run steps).1.assembler.units.size := by
  induction steps generalizing s with
  | nil => exact .nil _
  | cons step rest ih =>
    have later := grows_run h.tail (h.sane sane)
    have longer : (s.step step).1.assembler.build.size ≤ ((s.step step).1.run rest).1.assembler.build.size := later.size
    exact ((path_step h).extend longer later.code).append (ih h.tail (h.sane sane))

theorem read_step (h : s.Legal (step :: rest)) {code : Code} (kept : ∀ j < (s.step step).1.assembler.units.size,
      code.opcodeAt j = (s.step step).1.assembler.build.opcodeAt j) :
    ((s.placed step).filter (code.opcodeAt · ≠ .extendedArg)).map (fun i => (code.opcodeAt i, i)) =
      (step.instruction? (s.step step).2).toList := by
  obtain ⟨op, bytes, low, plain, emits⟩ | ⟨k, repoints⟩ | rests := h.cases
  · have size := emits.writes.size
    rw [Assembler.length_encoding] at size
    have size : (s.step step).1.assembler.units.size = s.assembler.offset + (bytes.length + 1 + op.caches) := size
    have here : code.opcodeAt (s.assembler.offset + bytes.length) = op := by
      rw [kept _ (by omega), emits.opcodeAt]
    have prefixes : (List.range' s.assembler.offset bytes.length).filter (code.opcodeAt · ≠ .extendedArg) = [] := by
      rw [filter_eq_nil_iff]
      intro j inside
      obtain ⟨k, lt, rfl⟩ := mem_range'.1 inside
      rw [Nat.one_mul, kept _ (by omega), emits.prefix_opcodeAt lt]
      simp
    rw [emits.placed, emits.instruction, filter_append, prefixes]
    simp [here, plain]
  · rw [placed, repoints.silent]
    rfl
  · rw [placed, rests.silent]
    rfl

theorem read_run (h : s.Legal steps) (sane : s.Sane) :
    ((s.placedAll steps).filter ((s.run steps).1.assembler.build.opcodeAt · ≠ .extendedArg)).map
        (fun i => ((s.run steps).1.assembler.build.opcodeAt i, i)) = listing steps (s.run steps).2 := by
  induction steps generalizing s with
  | nil => rfl
  | cons step rest ih =>
    have later := grows_run h.tail (h.sane sane)
    have first := read_step h fun j lt => later.opcodeAt lt
    rw [placedAll, filter_append, map_append]
    exact congr (congrArg _ first) (ih h.tail (h.sane sane))

variable {rest : List AsmStep}

theorem Sane.unlabelled (sane : s.Sane) (ge : s.assembler.units.size ≤ j) (l) : s.labels.get? l ≠ some j := by
  intro there
  have inside := sane.labels l j there
  have := s.assembler.build.lt_next j
  omega

section
variable (h : s.Emits step op bytes low) (legal : s.Legal (step :: rest)) (sane : s.Sane)
include h legal sane

theorem Emits.prefix_kept (there : bytes[k]? = some byte) :
    (s.run (step :: rest)).1.assembler.build.unitAt (s.assembler.offset + k) = .ofOpcode .extendedArg byte := by
  have lt := (List.getElem?_eq_some_iff.1 there).1
  have size := h.writes.size
  rw [Assembler.length_encoding] at size
  have inside : s.assembler.offset + k < (s.step step).1.assembler.units.size := by
    rw [size]
    change s.assembler.units.size + k < _
    omega
  have unpatched : (s.step step).1.landing (s.assembler.offset + k) rest = none := by
    refine landing_eq_none legal.tail (legal.sane sane) inside fun l there => ?_
    obtain old | new := h.labels l _ there
    · exact sane.unlabelled (Nat.le_add_right ..) l old
    · omega
  have unit := h.writes.unitAt_add k
  rw [Assembler.encoding_prefix there, Option.getD_some] at unit
  have final := unit_run legal.tail (legal.sane sane) inside
  rw [unpatched] at final
  exact final.trans unit

/-- The operand of an emitted instruction in the end: what it was emitted with, or what the last patch gave it. -/
theorem Emits.oparg (few : bytes.length ≤ 3) :
    (s.run (step :: rest)).1.assembler.build.oparg (s.assembler.offset + bytes.length) =
      (((s.step step).1.landing (s.assembler.offset + bytes.length) rest).elim low fun p =>
        UInt8.ofNat (p - (s.step step).1.assembler.units.size)).toNat + 256 * Code.bytesValue bytes := by
  have grows := grows_run legal sane
  have inside : s.assembler.offset + bytes.length < (s.step step).1.assembler.units.size := by
    rw [h.writes.size, Assembler.length_encoding]
    change s.assembler.units.size + bytes.length < _
    omega
  have unit := h.writes.unitAt_add bytes.length
  rw [Assembler.encoding_instruction, Option.getD_some] at unit
  have final := unit_run legal.tail (legal.sane sane) inside
  rw [h.next] at final
  rw [Code.oparg, Code.prefixed_eq 256 few]
  · change ((((s.step step).1.run rest).1.assembler.build.unitAt _).arg).toNat + _ = _
    rw [final]
    cases (s.step step).1.landing (s.assembler.offset + bytes.length) rest with
    | none => exact congrArg (fun u : CodeUnit => u.arg.toNat + _) unit
    | some p => rfl
  · exact fun k byte there => h.prefix_kept legal sane there
  · intro m before
    have lt : m < s.assembler.units.size := Nat.lt_of_lt_of_eq (Nat.lt_succ_self m) before.symm
    rw [grows.opcodeAt lt]
    exact sane.closed m before

theorem Emits.final :
    (s.run (step :: rest)).1.assembler.build.opcodeAt (s.assembler.offset + bytes.length) = op ∧
      (s.run (step :: rest)).1.assembler.build.next (s.assembler.offset + bytes.length) =
        (s.step step).1.assembler.units.size := by
  have later := grows_run legal.tail (legal.sane sane)
  have inside : s.assembler.offset + bytes.length < (s.step step).1.assembler.units.size := by
    rw [h.writes.size, Assembler.length_encoding]
    change s.assembler.units.size + bytes.length < _
    omega
  exact ⟨(later.opcodeAt inside).trans h.opcodeAt, (later.next inside).trans h.next⟩

end

end Reading

/-- Where a forward jump leads that is patched at `p`: one past that for the jumps that skip the end of their loop. -/
def landsOn (op : Opcode) (p : Nat) : Option Nat :=
  match op with
  | .popJumpIfFalse | .popJumpIfTrue | .popJumpIfNone | .popJumpIfNotNone | .jumpForward => some p
  | .forIter | .send => some (p + 1)
  | _ => none

/-- A step of an assembly, read back from the finished code. -/
structure Decoded (code : Code) (s : Assembly) (step : AsmStep) (rest : List AsmStep) : Prop where
  /-- Every unit is on the line that was current when it was emitted. -/
  line : ∀ j, s.assembler.offset ≤ j → j < (s.step step).1.assembler.offset → code.line j = s.assembler.currentLine
  operand : ∀ op arg i, step = .emit op arg → (s.step step).2 = .ok (some i) →
    code.oparg i = (UInt32.ofNat (s.number arg)).toNat
  /-- A forward jump leads to where it was last patched. -/
  forward : ∀ op label i p q, step = .jump op label → (s.step step).2 = .ok (some i) →
    (s.step step).1.landing i rest = some p → landsOn op p = some q → code.jumpTarget i = some q
  backward : ∀ op target i, step = .jumpBack op target → (s.step step).2 = .ok (some i) →
    code.jumpTarget i = some (s.number target)
  /-- What is refused changes nothing. -/
  refused : ∀ e, (s.step step).2 = .error e → (s.step step).1 = s

section Decoded
variable {s : Assembly} {rest : List AsmStep}

theorem oparg_emit (legal : s.Legal (.emit op arg :: rest)) (sane : s.Sane)
    (reported : (s.step (.emit op arg)).2 = .ok (some i)) :
    (s.run (.emit op arg :: rest)).1.assembler.build.oparg i = (UInt32.ofNat (s.number arg)).toNat := by
  have emits := s.emits_emit op arg
  obtain rfl := Option.some.inj (Except.ok.inj (emits.reported.symm.trans reported))
  have inside : s.assembler.offset + (highBytes (UInt32.ofNat (s.number arg))).length <
      (s.step (.emit op arg)).1.assembler.units.size := by
    rw [emits.writes.size, Assembler.length_encoding]
    change s.assembler.units.size + _ < _
    omega
  have unpatched := landing_eq_none legal.tail (legal.sane sane) inside fun l => sane.unlabelled (Nat.le_add_right ..) l
  rw [emits.oparg legal sane (Assembler.length_highBytes _), unpatched, Assembler.bytesValue_highBytes]
  simp only [Option.elim_none, UInt8.toNat_ofNat']
  omega

theorem jumpTarget_jump (legal : s.Legal (.jump op label :: rest)) (sane : s.Sane)
    (reported : (s.step (.jump op label)).2 = .ok (some i))
    (landed : (s.step (.jump op label)).1.landing i rest = some p) (leads : landsOn op p = some q) :
    (s.run (.jump op label :: rest)).1.assembler.build.jumpTarget i = some q := by
  have emits := s.emits_jump op label
  obtain rfl := Option.some.inj (Except.ok.inj (emits.reported.symm.trans reported))
  have inside : s.assembler.offset + ([] : List UInt8).length < (s.step (.jump op label)).1.assembler.units.size := by
    rw [emits.writes.size, Assembler.length_encoding]
    change s.assembler.units.size + 0 < _
    omega
  obtain ⟨beyond, near⟩ := landing_near legal.tail (legal.sane sane) inside landed
  rw [emits.next] at near
  obtain ⟨opcode, next⟩ := emits.final legal sane
  have oparg := emits.oparg legal sane (Nat.zero_le 3)
  rw [landed, Option.elim_some, UInt8.toNat_ofNat', Nat.mod_eq_of_lt near] at oparg
  have span : (s.step (.jump op label)).1.assembler.units.size +
      (p - (s.step (.jump op label)).1.assembler.units.size + 256 * Code.bytesValue []) = p := by
    change _ + (_ + 256 * 0) = p
    omega
  rw [Code.jumpTarget, opcode, next, oparg, span]
  unfold landsOn at leads
  split at leads
  all_goals first | exact leads | cases leads

theorem jumpTarget_jumpBack (legal : s.Legal (.jumpBack op target :: rest)) (sane : s.Sane)
    (accepted : (s.step (.jumpBack op target)).2 = .ok (some i)) :
    (s.run (.jumpBack op target :: rest)).1.assembler.build.jumpTarget i = some (s.number target) := by
  obtain ⟨backward, d, near, span, emits⟩ := emits_jumpBack accepted
  obtain rfl := Option.some.inj (Except.ok.inj (emits.reported.symm.trans accepted))
  have size := emits.writes.size
  rw [Assembler.length_encoding] at size
  have size : (s.step (.jumpBack op target)).1.assembler.units.size = s.assembler.offset + (0 + 1 + op.caches) := size
  have inside : s.assembler.offset + ([] : List UInt8).length < (s.step (.jumpBack op target)).1.assembler.units.size := by
    rw [size]
    exact Nat.add_lt_add_left (by rw [length_nil]; omega) _
  have labels : (s.step (.jumpBack op target)).1.labels = s.labels := by
    obtain ⟨a, -, -, moved⟩ := attempt_ok accepted
    exact (congrArg Assembly.labels moved :)
  have unpatched := landing_eq_none legal.tail (legal.sane sane) inside fun l =>
    labels ▸ sane.unlabelled (Nat.le_add_right ..) l
  obtain ⟨opcode, next⟩ := emits.final legal sane
  have oparg := emits.oparg legal sane (Nat.zero_le 3)
  rw [unpatched, Option.elim_none, UInt8.toNat_ofNat', Nat.mod_eq_of_lt near] at oparg
  have back : Code.subtract? (s.assembler.offset + (0 + 1 + op.caches)) (d + 256 * Code.bytesValue []) =
      some (s.number target) := by
    change Code.subtract? _ (d + 256 * 0) = _
    rw [Code.subtract?, if_pos (by omega)]
    congr 1
    omega
  rw [Code.jumpTarget, opcode, next, oparg, size]
  obtain rfl | rfl := backward
  · exact back
  · exact back

theorem line_step {step} (legal : s.Legal (step :: rest)) (sane : s.Sane) (ge : s.assembler.offset ≤ j)
    (lt : j < (s.step step).1.assembler.offset) :
    (s.run (step :: rest)).1.assembler.build.line j = s.assembler.currentLine := by
  refine ((grows_run legal.tail (legal.sane sane)).line j lt).trans ?_
  have ge : s.assembler.units.size ≤ j := ge
  have lt : j < (s.step step).1.assembler.units.size := lt
  obtain ⟨op, bytes, low, -, emits⟩ | ⟨k, repoints⟩ | rests := legal.cases
  · exact emits.writes.line_of_ge sane.lined ge lt
  · rw [repoints.units, Array.size_setIfInBounds] at lt
    omega
  · rw [rests.units] at lt
    omega

theorem decoded {step} (legal : s.Legal (step :: rest)) (sane : s.Sane) :
    Decoded (s.run (step :: rest)).1.assembler.build s step rest where
  line j ge lt := line_step legal sane ge lt
  operand op arg i isEmit reported := by
    subst isEmit
    exact oparg_emit legal sane reported
  forward op label i p q isJump reported landed leads := by
    subst isJump
    exact jumpTarget_jump legal sane reported landed leads
  backward op target i isJump accepted := by
    subst isJump
    exact jumpTarget_jumpBack legal sane accepted
  refused e refused := step_of_error refused

end Decoded
end Assembly

/-! ## Whole code objects -/

namespace Assembly
variable {s : Assembly}

theorem run_append (s : Assembly) (first second) : (s.run (first ++ second)).1 = ((s.run first).1.run second).1 := by
  induction first generalizing s with
  | nil => rfl
  | cons step rest ih => exact ih (s.step step).1

theorem Legal.append (h : s.Legal (first ++ second)) : s.Legal first ∧ (s.run first).1.Legal second := by
  refine ⟨⟨fun step inside => h.plain step (mem_append_left _ inside), fun before label rest split => ?_⟩,
    ⟨fun step inside => h.plain step (mem_append_right _ inside), fun before label rest split => ?_⟩⟩
  · exact h.labelled before label (rest ++ second) (by simp [split])
  · rw [← run_append]
    exact h.labelled (first ++ before) label rest (by simp [split])

theorem labels_step (s : Assembly) (step) (there : (s.labels.get? label).isSome = true) :
    ((s.step step).1.labels.get? label).isSome = true := by
  have kept : ∀ (r : Except BuildError Assembler) (reported : Option Nat),
      ((s.attempt r reported).1.labels.get? label).isSome = true := by
    intro r reported
    cases r with
    | ok a => exact there
    | error e => exact there
  cases step with
  | jump op other =>
    change ((s.labels.insert other s.assembler.offset).get? label).isSome = true
    rw [Bindings.get?_insert_any]
    split
    · rfl
    · exact there
  | patch other => exact kept ..
  | jumpBack op target => exact kept ..
  | endAsyncFor target => exact kept ..
  | emit | line | noLine | traceable | handler | mark => exact there

theorem labels_run (s : Assembly) (steps) (there : (s.labels.get? label).isSome = true) :
    ((s.run steps).1.labels.get? label).isSome = true := by
  induction steps generalizing s with
  | nil => exact there
  | cons step rest ih => exact ih _ (s.labels_step step there)

theorem labels_of_jump (s : Assembly) (emitted : .jump op label ∈ steps) :
    ((s.run steps).1.labels.get? label).isSome = true := by
  induction steps generalizing s with
  | nil => cases emitted
  | cons step rest ih =>
    obtain rfl | later := mem_cons.1 emitted
    · refine labels_run _ rest ?_
      change ((s.labels.insert label s.assembler.offset).get? label).isSome = true
      rw [Bindings.get?_insert_any, if_pos rfl]
      rfl
    · exact ih _ later

end Assembly

/-- The assembly of a code object before its first step. -/
def CodeSpec.blank (spec : CodeSpec) : Assembly where
  assembler :=
    { name := spec.name, qualname := spec.qualname, noMonitoring := spec.noMonitoring
      filename := spec.filename.getD "<string>", firstLine := spec.firstLine.getD 1, currentLine := spec.firstLine }

theorem CodeSpec.assemble_eq (spec : CodeSpec) :
    spec.assemble = ((spec.blank.run spec.steps).1.assembler.build, (spec.blank.run spec.steps).2) := by
  obtain ⟨name, qualname, filename, firstLine, noMonitoring, steps⟩ := spec
  cases filename <;> cases firstLine <;> rfl

theorem CodeSpec.sane_blank (spec : CodeSpec) : spec.blank.Sane :=
  ⟨rfl, fun _ nonempty => (by cases nonempty), fun _ _ there => (by cases there)⟩

/-- Assembling and reading back. If no step emits a prefix by itself and only jumps emitted before are patched, a walk from
the start meets exactly the offsets at which instructions were put and ends at the end of the code. Prefixes aside it finds
the opcodes emitted at the offsets reported, and each step reads back as it was taken: operand and lines, a forward jump
leads to where it was last patched, a backward jump to its target, and what was refused changed nothing. -/
theorem assembly_reads_back (spec : CodeSpec) (plain : ∀ step ∈ spec.steps, step.opcode? ≠ some .extendedArg)
    (labelled : ∀ before label rest, spec.steps = before ++ .patch label :: rest → ∃ op, .jump op label ∈ before) :
    spec.assemble.1.offsetsFrom 0 = spec.blank.placedAll spec.steps ∧
      (∀ i, (spec.assemble.1.offsetsFrom 0).getLast? = some i → spec.assemble.1.next i = spec.assemble.1.size) ∧
      ((spec.assemble.1.offsetsFrom 0).filter (spec.assemble.1.opcodeAt · ≠ .extendedArg)).map
          (fun i => (spec.assemble.1.opcodeAt i, i)) = Assembly.listing spec.steps spec.assemble.2 ∧
      ∀ before step rest, spec.steps = before ++ step :: rest →
        Assembly.Decoded spec.assemble.1 (spec.blank.run before).1 step rest := by
  have legal : spec.blank.Legal spec.steps := by
    refine ⟨plain, fun before label rest split => ?_⟩
    obtain ⟨op, emitted⟩ := labelled before label rest split
    exact spec.blank.labels_of_jump emitted
  have path := Assembly.path_run legal spec.sane_blank
  have walk : spec.assemble.1.offsetsFrom 0 = spec.blank.placedAll spec.steps := by
    rw [spec.assemble_eq]
    exact path.offsetsFrom_eq
  refine ⟨walk, fun i last => ?_, ?_, fun before step rest split => ?_⟩
  · rw [walk] at last
    rw [spec.assemble_eq]
    exact path.next_last last
  · rw [walk, spec.assemble_eq]
    exact Assembly.read_run legal spec.sane_blank
  · rw [split] at legal
    obtain ⟨first, second⟩ := legal.append
    rw [spec.assemble_eq, split, Assembly.run_append]
    exact Assembly.decoded second (Assembly.sane_run first spec.sane_blank)

/-- A loop whose constant takes two prefixes, with a jump out of it that is patched after the jump back. -/
def loopSpec : CodeSpec where
  firstLine := some 3
  steps := [.emit .resume (.literal 0), .mark "top", .emit .loadConst (.literal 0x10203), .jump .popJumpIfFalse "out",
    .emit .notTaken (.literal 0), .jumpBack .jumpBackward (.mark "top"), .patch "out", .emit .returnValue (.literal 0)]

/-- The constant is read back over its prefixes, and both jumps lead where they should. -/
theorem assembly_reads_back_loop :
    loopSpec.assemble.1.offsetsFrom 0 = [0, 1, 2, 3, 4, 6, 7, 9] ∧ loopSpec.assemble.1.oparg 3 = 0x10203 ∧
      loopSpec.assemble.1.jumpTarget 4 = some 9 ∧ loopSpec.assemble.1.jumpTarget 7 = some 1 := by
  have plain : ∀ step ∈ loopSpec.steps, step.opcode? ≠ some .extendedArg := by decide
  have labelled : ∀ before label rest, loopSpec.steps = before ++ .patch label :: rest →
      ∃ op, .jump op label ∈ before := by
    intro before label rest split
    simp only [loopSpec, List.cons_eq_append_iff, List.cons.injEq, reduceCtorEq, false_and, and_false,
      AsmStep.patch.injEq, List.nil_eq, List.append_eq_nil_iff, exists_const, or_self, or_false, false_or] at split
    obtain ⟨_, rfl, _, rfl, _, rfl, _, rfl, _, rfl, _, rfl, rfl, rfl, -⟩ := split
    exact ⟨.popJumpIfFalse, by simp⟩
  obtain ⟨walk, -, -, steps⟩ := assembly_reads_back loopSpec plain labelled
  have constant := steps (loopSpec.steps.take 2) _ _ rfl
  have out := steps (loopSpec.steps.take 3) _ _ rfl
  have top := steps (loopSpec.steps.take 5) _ _ rfl
  refine ⟨walk.trans (by decide +kernel), ?_, ?_, ?_⟩
  · exact constant.operand _ _ 3 rfl rfl
  · exact out.forward _ _ 4 9 9 rfl rfl (by decide +kernel) rfl
  · exact top.backward _ _ 7 rfl rfl

end MonitoredVm
