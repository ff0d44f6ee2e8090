import MonitoredVm.Monitoring.Engine
import MonitoredVm.Proofs.Grid
import MonitoredVm.Proofs.Slots

/-!
# Bringing a code object in line

The passes over a code object act on cells, each offset once and independently of the others. Bringing it in line
amounts to one change of every cell that reports an event: tables that are called for are made, then the tools that
leave are taken out and those that enter are put in.
-/

namespace MonitoredVm

/-- Every slot and every table entry of a code object of `n` units exists. -/
structure Outline.Sized (o : Outline) (n : Nat) : Prop where
  slots : o.size = n
  table : ∀ l m, o.tableSize l = some m → m = n

namespace CodeState

/-- `s'` comes from `s` by changing the cells of one layer at some offsets. -/
structure Sweeps (s s' : CodeState) (l : Layer) (offsets : List Nat) (g : Nat → Cell → Cell) : Prop where
  outline : s'.outline = s.outline
  cell : ∀ k j, s'.cell k j = if k = l ∧ j ∈ offsets then g j (s.cell k j) else s.cell k j

theorem Sweeps.none (s l) (g : Nat → Cell → Cell) : Sweeps s s l [] g :=
  ⟨rfl, by simp⟩

theorem sweeps_foldl (nodup : offsets.Nodup) (step : ∀ s i, s.outline = o → i ∈ offsets → Sweeps s (f s i) l [i] g)
    (s : CodeState) (start : s.outline = o) : Sweeps s (offsets.foldl f s) l offsets g := by
  induction offsets generalizing s with
  | nil => exact .none s l g
  | cons i rest ih =>
    obtain ⟨fresh, nodup⟩ := List.nodup_cons.1 nodup
    have first := step s i start (List.mem_cons_self ..)
    have others := ih nodup (fun s j at_o mem => step s j at_o (List.mem_cons_of_mem _ mem)) (f s i)
      (first.outline.trans start)
    refine ⟨others.outline.trans first.outline, fun k j => ?_⟩
    rw [List.foldl_cons, others.cell, first.cell]
    by_cases layer : k = l
    · subst layer
      by_cases here : j = i
      · subst here
        simp [fresh]
      · simp [here]
    · simp [layer]

theorem Sweeps.of_eq (h : Sweeps s s' l offsets g) (same : ∀ j ∈ offsets, ∀ c, g j c = g' j c) :
    Sweeps s s' l offsets g' := by
  refine ⟨h.outline, fun k j => ?_⟩
  rw [h.cell]
  split
  next at_j => exact same j at_j.2 _
  next => rfl

theorem Sweeps.idle (s l offsets) (same : ∀ j ∈ offsets, ∀ c, g j c = c) : Sweeps s s l offsets g := by
  refine ⟨rfl, fun k j => ?_⟩
  split
  next at_j => exact (same j at_j.2 _).symm
  next => rfl

theorem Sweeps.comp (h : Sweeps s s' l offsets g) (h' : Sweeps s' s'' l offsets g') :
    Sweeps s s'' l offsets fun j c => g' j (g j c) := by
  refine ⟨h'.outline.trans h.outline, fun k j => ?_⟩
  rw [h'.cell, h.cell]
  split <;> rfl

theorem sized_table {s : CodeState} (sized : s.outline.Sized n) {l : Layer} {table : Array ToolMask}
    (data : s.data = some d) (t : l.table d = some table) : table.size = n :=
  sized.table l table.size (by simp [outline, data, t])

theorem sweeps_remove (data : s.data.isSome = true) (l i e tools) :
    Sweeps s (s.remove l i e tools) l [i] fun _ c => c.remove (s.active e) tools :=
  ⟨outline_remove .., fun k j => by simp [cell_remove data]⟩

theorem sweeps_add (sized : s.outline.Sized n) (l) (lt : i < n) (tools) :
    Sweeps s (s.add l i tools) l [i] fun _ c => c.add tools := by
  have slots : s.slots.size = n := sized.slots
  have added := cell_add (l := l) (slots ▸ lt) fun d table data t => (sized_table sized data t) ▸ lt
  exact ⟨outline_add .., fun k j => by simp [added]⟩

theorem isSome_of_outline {s s' : CodeState} (h : s'.outline = s.outline) : s'.data.isSome = s.data.isSome := by
  have data := congrArg (fun o : Outline => o.data.isSome) h
  simpa [outline] using data

theorem sweeps_removeAll {s : CodeState} (data : s.data.isSome = true) (l e tools) {offsets : List Nat}
    (nodup : offsets.Nodup) :
    Sweeps s (s.removeAll l e tools offsets) l offsets fun _ c =>
      if tools = 0 then c else c.remove (s.active e) tools := by
  unfold removeAll
  split
  next => exact .idle s l offsets fun _ _ _ => rfl
  next =>
    refine sweeps_foldl nodup (fun s' i same _ => ?_) s rfl
    have active := active_of_outline same e
    have step := sweeps_remove ((isSome_of_outline same).trans data) l i e tools
    rwa [active] at step

theorem sweeps_addAll (sized : s.outline.Sized n) (l tools) (nodup : offsets.Nodup) (inside : ∀ i ∈ offsets, i < n) :
    Sweeps s (s.addAll l tools offsets) l offsets fun _ c => if tools = 0 then c else c.add tools := by
  unfold addAll
  split
  next => exact .idle s l offsets fun _ _ _ => rfl
  next => exact sweeps_foldl nodup (fun s' i same mem => sweeps_add (same ▸ sized) l (inside i mem) tools) s rfl

/-- The event the slot at `i` reports on a layer, if any. -/
def reports (s : CodeState) (code : Code) : Layer → Nat → Option Event
  | .opcode, i => (code.opcodeAt i).event? (code.oparg i)
  | .line, i => if s.startsLine i then some .line else none
  | .instruction, i => if (code.opcodeAt i).skipsInstructionOverlay then none else some .instruction

/-- What a change of active events does to one cell that reports `e`. -/
def changed (s : CodeState) (change : Alignment) (e : Event) (c : Cell) : Cell :=
  c.change (s.active e) (LocalMonitors.get change.removed e) (LocalMonitors.get change.added e)

theorem sweeps_updateOpcodes {s : CodeState} (data : s.data.isSome = true) (sized : s.outline.Sized n) (code : Code)
    (change) {offsets : List Nat} (nodup : offsets.Nodup) (inside : ∀ i ∈ offsets, i < n) :
    Sweeps s (s.updateOpcodes code change offsets) .opcode offsets fun j c =>
      match (code.opcodeAt j).event? (code.oparg j) with
      | none => c
      | some e => s.changed change e c := by
  refine sweeps_foldl nodup (fun s' i same mem => ?_) s rfl
  cases event : (code.opcodeAt i).event? (code.oparg i) with
  | none => exact .idle s' _ _ fun j at_i c => by simp [List.mem_singleton.1 at_i, event]
  | some e =>
    have removed : ∀ gone, Sweeps s' (if gone != 0 then s'.remove .opcode i e gone else s') .opcode [i]
        fun _ c => if gone = 0 then c else c.remove (s'.active e) gone := by
      intro gone
      by_cases zero : gone = 0#8
      · simpa [zero] using Sweeps.idle s' .opcode [i] fun _ _ _ => rfl
      · simpa [zero] using sweeps_remove ((isSome_of_outline same).trans data) .opcode i e gone
    have added : ∀ (s'' : CodeState) new, s''.outline = s.outline →
        Sweeps s'' (if new != 0 then s''.add .opcode i new else s'') .opcode [i]
          fun _ c => if new = 0 then c else c.add new := by
      intro s'' new same
      by_cases zero : new = 0#8
      · simpa [zero] using Sweeps.idle s'' .opcode [i] fun _ _ _ => rfl
      · simpa [zero] using sweeps_add (same ▸ sized) .opcode (inside i mem) new
    have first := removed (LocalMonitors.get change.removed e)
    have both := first.comp (added _ (LocalMonitors.get change.added e) (first.outline.trans same))
    refine both.of_eq fun j at_i c => ?_
    rw [List.mem_singleton.1 at_i]
    simp only [event, changed, Cell.change, active_of_outline same]

theorem cell_update {s : CodeState} {code : Code} (data : s.data.isSome = true) (sized : s.outline.Sized code.size)
    (change) :
    (s.update code change).outline = s.outline ∧ ∀ k j, (s.update code change).cell k j =
      if j ∈ code.offsetsFrom code.firstTraceable then
        match s.reports code k j with
        | none => s.cell k j
        | some e => s.changed change e (s.cell k j)
      else s.cell k j := by
  have nodup := code.offsetsFrom_nodup code.firstTraceable
  have inside := fun i (mem : i ∈ code.offsetsFrom code.firstTraceable) => Code.lt_of_mem_offsetsFrom mem
  unfold update
  generalize code.offsetsFrom code.firstTraceable = offsets at nodup inside
  have within : ∀ p : Nat → Bool, (∀ i ∈ offsets.filter p, i < code.size) :=
    fun p i mem => inside i (List.mem_filter.1 mem).1
  have opcodes := sweeps_updateOpcodes data sized code change nodup inside
  have starts := nodup.filter s.startsLine
  have carriers := nodup.filter fun i => !(code.opcodeAt i).skipsInstructionOverlay
  -- the passes over the overlays, each from where the one before it ended
  have gone := sweeps_removeAll ((isSome_of_outline opcodes.outline).trans data) .line .line
    (LocalMonitors.get change.removed .line) starts
  have same₂ := gone.outline.trans opcodes.outline
  have gone' := sweeps_removeAll ((isSome_of_outline same₂).trans data) .instruction .instruction
    (LocalMonitors.get change.removed .instruction) carriers
  have same₃ := gone'.outline.trans same₂
  have new := sweeps_addAll (same₃ ▸ sized) .line (LocalMonitors.get change.added .line) starts (within _)
  have same₄ := new.outline.trans same₃
  have new' := sweeps_addAll (same₄ ▸ sized) .instruction (LocalMonitors.get change.added .instruction) carriers
    (within _)
  refine ⟨new'.outline.trans same₄, fun k j => ?_⟩
  rw [new'.cell, new.cell, gone'.cell, gone.cell, opcodes.cell, active_of_outline same₂,
    active_of_outline opcodes.outline]
  by_cases mem : j ∈ offsets
  · cases k with
    | opcode => simp [mem, reports]
    | line => by_cases on : s.startsLine j = true <;> simp [mem, reports, on, changed, Cell.change]
    | instruction =>
      by_cases on : (code.opcodeAt j).skipsInstructionOverlay = true <;>
        simp [mem, reports, on, changed, Cell.change]
  · simp [mem]

/-! Tables made on the way -/

theorem maskIn_foldl_set (v : Nat → Option ToolMask) (offsets : List Nat) (table : Array ToolMask)
    (inside : ∀ i ∈ offsets, i < table.size) (j) :
    maskIn (offsets.foldl (fun table i => (v i).elim table (table.setIfInBounds i)) table) j =
      if j ∈ offsets then (v j).getD (maskIn table j) else maskIn table j := by
  induction offsets generalizing table with
  | nil => simp
  | cons i rest ih =>
    have size : ((v i).elim table (table.setIfInBounds i)).size = table.size := by cases v i <;> simp
    have first : maskIn ((v i).elim table (table.setIfInBounds i)) j =
        if j = i then (v i).getD (maskIn table j) else maskIn table j := by
      have lt := inside i (List.mem_cons_self ..)
      cases v i with
      | none => simp
      | some m => simp only [Option.elim_some, maskIn, Array.getElem?_setIfInBounds]; grind
    rw [List.foldl_cons, ih _ fun k mem => size ▸ inside k (List.mem_cons_of_mem _ mem), first]
    by_cases here : j = i
    · subst here
      cases v j <;> simp
    · simp [here]

theorem toolTable_eq (s : CodeState) (code : Code) (active) :
    s.toolTable code active = (code.offsetsFrom 0).foldl (fun table i =>
      (((code.opcodeAt i).event? (code.oparg i)).bind fun e =>
        if (s.slot i).instrumented then some (LocalMonitors.get active e) else none).elim table (table.setIfInBounds i))
      (Array.replicate code.size 0) := by
  unfold toolTable
  congr 1
  funext table i
  cases (code.opcodeAt i).event? (code.oparg i) with
  | none => rfl
  | some e => cases on : (s.slot i).instrumented <;> simp

@[simp] theorem size_toolTable (s : CodeState) (code : Code) (active) : (s.toolTable code active).size = code.size := by
  unfold toolTable
  refine List.foldlRecOn (motive := fun table : Array ToolMask => table.size = code.size) _ _ Array.size_replicate ?_
  intro table size i _
  split
  · split <;> simp [size]
  · exact size

theorem maskIn_toolTable (s : CodeState) (active) (mem : j ∈ code.offsetsFrom 0)
    (event : (code.opcodeAt j).event? (code.oparg j) = some e) :
    maskIn (s.toolTable code active) j = if (s.slot j).instrumented then LocalMonitors.get active e else 0 := by
  rw [toolTable_eq, maskIn_foldl_set _ _ _ fun i mem => by simpa using Code.lt_of_mem_offsetsFrom mem]
  have zero : maskIn (Array.replicate code.size 0#8) j = 0#8 := by
    simp [maskIn, Code.lt_of_mem_offsetsFrom mem]
  cases on : (s.slot j).instrumented <;> simp [mem, event, zero]

end CodeState
end MonitoredVm
