import MonitoredVm.Proofs.Disabling

/-!
# What coverage holds

A coverage tool keeps sets of lines and branch directions, a recorder every event as it comes. Both learn the same
from an event: the line it starts or the direction it takes. A place that has told coverage all it can tell need not be
reported again.
-/

namespace MonitoredVm

theorem mem_insertSorted (total : ∀ x y, lt x y = false → lt y x = false → x = y) :
    y ∈ insertSorted lt x l ↔ y = x ∨ y ∈ l := by
  induction l with
  | nil => simp [insertSorted]
  | cons z rest ih =>
    unfold insertSorted
    split
    next => rw [List.mem_cons]
    next above =>
      split
      next => rw [List.mem_cons, ih, List.mem_cons, or_left_comm]
      next below =>
        have same : x = z := total x z (Bool.not_eq_true _ ▸ above) (Bool.not_eq_true _ ▸ below)
        rw [same, List.mem_cons]
        exact ⟨.inr, fun h => h.elim .inl id⟩

theorem eq_of_pairLt (above : Coverage.pairLt x y = false) (below : Coverage.pairLt y x = false) : x = y := by
  simp only [Coverage.pairLt, Bool.or_eq_false_iff, decide_eq_false_iff_not, Bool.and_eq_false_iff, beq_eq_false_iff_ne,
    Nat.not_lt] at above below
  apply Prod.ext <;> omega

namespace EventArgs

def recorded (a : EventArgs) : RecordedEvent :=
  ⟨a.tool, a.event, a.qualname, a.offset, a.line, a.payload.destination?⟩

end EventArgs

theorem Payload.eq_of_destination {p : Payload} (h : p.destination? = some dest) : p = .destination dest := by
  cases p with
  | destination offset => rw [Option.some.inj h]
  | none | value _ | call _ _ | exception _ => cases h

namespace RecordedEvent

/-- The line that an event starts. -/
def line? (r : RecordedEvent) : Option Nat :=
  match r.event with
  | .line => r.line.map UInt32.toNat
  | _ => none

/-- The source and the destination of the direction that a branch takes. -/
def branch? (r : RecordedEvent) : Option (Nat × Nat) :=
  match r.event with
  | .branchLeft | .branchRight | .branch => r.destination.map (r.offset, ·)
  | _ => none

end RecordedEvent

namespace Coverage

/-- Coverage has what an event tells. -/
structure Has (c : Coverage) (r : RecordedEvent) : Prop where
  line : ∀ n, r.line? = some n → n ∈ c.linesOf r.qualname
  branch : ∀ p, r.branch? = some p → p ∈ c.branchesOf r.qualname

/-- Coverage holds exactly the lines and directions recorded. -/
structure Holds (c : Coverage) (recorded : List RecordedEvent) : Prop where
  lines : ∀ q n, n ∈ c.linesOf q ↔ ∃ r ∈ recorded, r.qualname = q ∧ r.line? = some n
  branches : ∀ q p, p ∈ c.branchesOf q ↔ ∃ r ∈ recorded, r.qualname = q ∧ r.branch? = some p

/-- What an event adds: what it tells, under the name of its code object. -/
structure Adds (c : Coverage) (r : RecordedEvent) (c' : Coverage) : Prop where
  lines : ∀ q n, n ∈ c'.linesOf q ↔ n ∈ c.linesOf q ∨ r.qualname = q ∧ r.line? = some n
  branches : ∀ q p, p ∈ c'.branchesOf q ↔ p ∈ c.branchesOf q ∨ r.qualname = q ∧ r.branch? = some p

theorem linesOf_insert (c : Coverage) (q q' lines) :
    ({ c with lines := c.lines.insert q lines } : Coverage).linesOf q' = if q = q' then lines else c.linesOf q' := by
  rw [linesOf, Bindings.get?_insert_any]
  split <;> rfl

theorem branchesOf_insert (c : Coverage) (q q' branches) :
    ({ c with branches := c.branches.insert q branches } : Coverage).branchesOf q' =
      if q = q' then branches else c.branchesOf q' := by
  rw [branchesOf, Bindings.get?_insert_any]
  split <;> rfl

theorem adds_line {c : Coverage} {r : RecordedEvent} {line : UInt32} (event : r.event = .line)
    (there : r.line = some line) :
    c.Adds r
      { c with
        lines := c.lines.insert r.qualname
          (insertSorted (fun x y => decide (x < y)) line.toNat (c.linesOf r.qualname)) } := by
  have told : r.line? = some line.toNat := by simp [RecordedEvent.line?, event, there]
  have untold : r.branch? = none := by simp [RecordedEvent.branch?, event]
  refine ⟨fun q n => ?_, fun q p => ?_⟩
  · rw [linesOf_insert, told]
    split
    next same =>
      subst same
      rw [mem_insertSorted fun x y above below => by simp at above below; omega]
      simp [or_comm, eq_comm]
    next differs => simp [differs]
  · rw [untold]
    simp [branchesOf]

theorem adds_branch {c : Coverage} {r : RecordedEvent} (told : r.branch? = some p) :
    c.Adds r { c with branches := c.branches.insert r.qualname (insertSorted pairLt p (c.branchesOf r.qualname)) } := by
  have untold : r.line? = none := by
    unfold RecordedEvent.branch? at told
    unfold RecordedEvent.line?
    split at told <;> simp_all
  refine ⟨fun q n => ?_, fun q p => ?_⟩
  · rw [untold]
    simp [linesOf]
  · rw [branchesOf_insert, told]
    split
    next same =>
      subst same
      rw [mem_insertSorted fun x y => eq_of_pairLt]
      simp [or_comm, eq_comm]
    next differs => simp [differs]

theorem adds_nothing {c : Coverage} {r : RecordedEvent} (line : r.line? = none) (branch : r.branch? = none) :
    c.Adds r c := by
  refine ⟨fun q n => ?_, fun q p => ?_⟩
  · simp [line]
  · simp [branch]

theorem adds_take (c : Coverage) (a : EventArgs) : c.Adds a.recorded (c.take a).1 := by
  have direction : ∀ {dest : Nat}, a.event = .branchLeft ∨ a.event = .branchRight ∨ a.event = .branch →
      a.payload = .destination dest → a.recorded.branch? = some (a.offset, dest) := by
    rintro dest (event | event | event) payload
    all_goals simp [RecordedEvent.branch?, EventArgs.recorded, event, payload, Payload.destination?]
  unfold take
  dsimp only
  split
  next line event there => exact adds_line (r := a.recorded) event there
  next dest event payload => exact adds_branch (direction (.inl event) payload)
  next dest event payload => exact adds_branch (direction (.inr (.inl event)) payload)
  next dest event payload => exact adds_branch (direction (.inr (.inr event)) payload)
  next no_line no_left no_right no_branch =>
    apply adds_nothing
    · unfold RecordedEvent.line?
      split
      next event => exact Option.map_eq_none_iff.2 (Option.eq_none_iff_forall_ne_some.2 fun line => no_line line event)
      next => rfl
    · refine Option.eq_none_iff_forall_ne_some.2 fun p told => ?_
      unfold RecordedEvent.branch? at told
      split at told
      next event =>
        obtain ⟨dest, there, -⟩ := Option.map_eq_some_iff.1 told
        exact no_left dest event (Payload.eq_of_destination there)
      next event =>
        obtain ⟨dest, there, -⟩ := Option.map_eq_some_iff.1 told
        exact no_right dest event (Payload.eq_of_destination there)
      next event =>
        obtain ⟨dest, there, -⟩ := Option.map_eq_some_iff.1 told
        exact no_branch dest event (Payload.eq_of_destination there)
      next => cases told

theorem verdict_take (c : Coverage) (a) : (c.take a).2 = .proceed ∨ (c.take a).2 = .disable := by
  unfold take
  dsimp only
  split <;> simp

section Adds
variable {c c' : Coverage} {r x : RecordedEvent} {recorded : List RecordedEvent}

theorem Adds.has (h : c.Adds r c') : c'.Has r :=
  ⟨fun n told => (h.lines _ n).2 (.inr ⟨rfl, told⟩), fun p told => (h.branches _ p).2 (.inr ⟨rfl, told⟩)⟩

theorem Has.adds (h : c.Has x) (added : c.Adds r c') : c'.Has x :=
  ⟨fun n told => (added.lines _ n).2 (.inl (h.line n told)),
    fun p told => (added.branches _ p).2 (.inl (h.branch p told))⟩

theorem Has.adds_nothing (h : c.Has r) : c.Adds r c where
  lines _ n := ⟨.inl, fun there => there.elim id fun new => new.1 ▸ h.line n new.2⟩
  branches _ p := ⟨.inl, fun there => there.elim id fun new => new.1 ▸ h.branch p new.2⟩

theorem Holds.adds (h : c.Holds recorded) (added : c.Adds r c') : c'.Holds (recorded ++ [r]) where
  lines q n := by
    rw [added.lines, h.lines]
    simp [or_and_right, exists_or]
  branches q p := by
    rw [added.branches, h.branches]
    simp [or_and_right, exists_or]

theorem holds_nil : Holds {} [] where
  lines q n := by simp [linesOf, Bindings.get?, Bindings.lookup]
  branches q p := by simp [branchesOf, Bindings.get?, Bindings.lookup]

end Adds
end Coverage

/-! Places -/

namespace Code

/-- The events that a step can report from a layer of the slot at `i`, coming from certain predecessors. -/
structure Tells (code : Code) (prior : Option Nat → Prop) (l : Layer) (i : Nat) (a : EventArgs) : Prop where
  qualname : a.qualname = code.qualname
  told : match l with
    | .opcode => a.line = none ∧ ∃ prev taken, prior prev ∧
        Act.opcodeEvent? code i prev taken = some (a.event, a.offset, a.payload)
    | .line => a.event = .line ∧ ∃ table, LineTable.build code = some table ∧ a.line = table.line code i
    | .instruction => a.event = .instruction

theorem Tells.isLocal {code : Code} {prior : Option Nat → Prop} {a : EventArgs} (h : code.Tells prior l i a) :
    a.event.isLocal = true := by
  have told := h.told
  cases l with
  | opcode =>
    obtain ⟨-, prev, taken, -, event⟩ := told
    exact Opcode.isLocal_event (Act.event_of_opcodeEvent event)
  | line => rw [told.1]; rfl
  | instruction => rw [told]; rfl

/-- Instructions that close a branch are reached from one predecessor each. -/
def Closes (code : Code) (prior : Option Nat → Prop) (i : Nat) : Prop :=
  code.opcodeAt i = .notTaken ∨ code.opcodeAt i = .popIter → ∀ p p', prior p → prior p' → p = p'

/-- What an instruction reports goes by the instruction and, where it closes a branch, by the one before it. -/
theorem opcodeEvent_unique (told : Act.opcodeEvent? code i prev taken = some x)
    (told' : Act.opcodeEvent? code i prev' taken' = some x')
    (same : code.opcodeAt i = .notTaken ∨ code.opcodeAt i = .popIter → prev = prev') : x = x' := by
  unfold Act.opcodeEvent? at told told'
  dsimp only at told told'
  split at told
  all_goals rename_i op
  all_goals first
    | (rw [op] at told'; exact Option.some.inj (told.symm.trans told'))
    -- a conditional reports one of its directions, and what closes a branch has one predecessor
    | (rw [op] at told'; cases taken <;> cases taken' <;> simp_all)
    | cases told

theorem Tells.same {code : Code} {prior : Option Nat → Prop} {a b : EventArgs} (closes : code.Closes prior i)
    (h : code.Tells prior l i a) (h' : code.Tells prior l i b) {c : Coverage} (has : c.Has a.recorded) :
    c.Has b.recorded := by
  have qualname : b.recorded.qualname = a.recorded.qualname := h'.qualname.trans h.qualname.symm
  have told := h.told
  have told' := h'.told
  have same : b.recorded.line? = a.recorded.line? ∧ b.recorded.branch? = a.recorded.branch? := by
    cases l with
    | opcode =>
      obtain ⟨line, prev, taken, reached, event⟩ := told
      obtain ⟨line', prev', taken', reached', event'⟩ := told'
      have same := opcodeEvent_unique event event' fun closer => closes closer prev prev' reached reached'
      simp only [Prod.mk.injEq] at same
      obtain ⟨event, offset, payload⟩ := same
      constructor
      · simp only [RecordedEvent.line?, EventArgs.recorded, event, line, line']
      · simp only [RecordedEvent.branch?, EventArgs.recorded, event, offset, payload]
    | line =>
      obtain ⟨event, table, built, line⟩ := told
      obtain ⟨event', table', built', line'⟩ := told'
      obtain rfl := Option.some.inj (built.symm.trans built')
      constructor
      · simp only [RecordedEvent.line?, EventArgs.recorded, event, event', line, line']
      · simp only [RecordedEvent.branch?, EventArgs.recorded, event, event']
    | instruction =>
      dsimp only at told told'
      constructor
      · simp only [RecordedEvent.line?, EventArgs.recorded, told, told']
      · simp only [RecordedEvent.branch?, EventArgs.recorded, told, told']
  refine ⟨fun n told => ?_, fun p told => ?_⟩
  · rw [qualname]
    exact has.line n (same.1 ▸ told)
  · rw [qualname]
    exact has.branch p (same.2 ▸ told)

end Code

/-- Coverage has all that a place can tell. -/
def Coverage.Saw (c : Coverage) (code : Code) (prior : Option Nat → Prop) (l : Layer) (i : Nat) : Prop :=
  ∀ a, code.Tells prior l i a → c.Has a.recorded

end MonitoredVm
