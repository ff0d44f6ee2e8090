import MonitoredVm.Proofs.Histories

/-!
# Withdrawing tools at a slot

A tool that disables an event is taken out at the slot that fired. The table entry of the slot loses the tool, and with the
last one the slot gets its plain form back. Nothing else of the code object changes. Its counters do not, since that of an
instrumented instruction has started over already (`Warm`); and where there is no table, the one tool there is is the last
(`Unshared`). Both hold after any history (`invariant_settled`).

Main statement: `Relieved.heed`, one answer after the other.
-/

namespace MonitoredVm

open ToolMask Array

namespace CodeState
variable {s s' : CodeState} {code : Code}

/-! ## What passes over slots keep -/

theorem keeps_update {P : CodeState → Prop} (remove : ∀ s l i e tools, P s → P (s.remove l i e tools))
    (add : ∀ s l i tools, P s → P (s.add l i tools)) (holds : P s) (change) : P (s.update code change) := by
  have opcodes : ∀ s, P s → ∀ offsets, P (s.updateOpcodes code change offsets) := by
    intro s holds offsets
    refine List.foldlRecOn (motive := P) offsets _ holds fun s here i _ => ?_
    split
    · exact here
    · next event _ =>
      have removed : P (if LocalMonitors.get change.removed event != 0 then
          s.remove .opcode i event (LocalMonitors.get change.removed event) else s) := by
        split
        · exact remove _ _ _ _ _ here
        · exact here
      dsimp only
      split
      · exact add _ _ _ _ removed
      · exact removed
  have gone : ∀ s l e tools offsets, P s → P (s.removeAll l e tools offsets) := by
    intro s l e tools offsets holds
    unfold removeAll
    split
    · exact holds
    · exact List.foldlRecOn (motive := P) offsets _ holds fun s here i _ => remove _ _ _ _ _ here
  have new : ∀ s l tools offsets, P s → P (s.addAll l tools offsets) := by
    intro s l tools offsets holds
    unfold addAll
    split
    · exact holds
    · exact List.foldlRecOn (motive := P) offsets _ holds fun s here i _ => add _ _ _ _ here
  exact new _ _ _ _ (new _ _ _ _ (gone _ _ _ _ _ (gone _ _ _ _ _ (opcodes s holds _))))

/-! ## Counters -/

/-- The counter of the instruction at `i` has started over, if it is instrumented and has one. -/
def WarmAt (s : CodeState) (i : Nat) : Prop :=
  (s.slot i).instrumented = true → (s.slot i).base.caches ≠ 0 → i + 1 < s.units.size →
    s.units[i + 1]? = some (CodeUnit.ofCounter warmupCounter)

/-- The counters of all instrumented instructions have started over. -/
def Warm (s : CodeState) : Prop := ∀ i, s.WarmAt i

theorem warm_ofCode (code) : (ofCode code).Warm := by
  intro i on
  have off : (ofCode code).slot i = ⟨((ofCode code).slot i).base, false, false, false⟩ := by
    simp only [slot, ofCode, getElem?_map]
    cases code.units[i]? <;> rfl
  rw [off] at on
  cases on

theorem Warm.changed (h : s.Warm) (others : ∀ j, j ≠ i → s'.slot j = s.slot j)
    (units : s'.units = s.units ∨ s'.units = s.units.setIfInBounds (i + 1) (CodeUnit.ofCounter warmupCounter))
    (here : s'.WarmAt i) : s'.Warm := by
  intro j
  by_cases at_i : j = i
  · exact at_i ▸ here
  · intro on caches lt
    rw [others j at_i] at on caches
    rcases units with same | set
    · rw [same] at lt ⊢
      exact h j on caches lt
    · rw [set, size_setIfInBounds] at lt
      rw [set, getElem?_setIfInBounds, if_neg (by omega)]
      exact h j on caches lt

theorem units_resetCounter (s : CodeState) (i) (op : Opcode) : (s.resetCounter i op).units =
    if op.caches = 0 then s.units else s.units.setIfInBounds (i + 1) (CodeUnit.ofCounter warmupCounter) := by
  unfold resetCounter
  split <;> rfl

theorem Warm.overlaid (h : s.Warm) (i) (same : ∀ x, (f x).instrumented = x.instrumented)
    (base : ∀ x, (f x).base = x.base) : (s.modifySlot i f).Warm := by
  refine h.changed (i := i) (fun j other => ?_) (.inl rfl) ?_
  · rw [modifySlot, slot_setSlot, if_neg fun here => other here.1]
  · intro on caches
    rw [modifySlot, slot_setSlot] at on caches
    split at on
    · rw [same] at on
      rw [if_pos ‹_›, base] at caches
      exact h i on caches
    · rw [if_neg ‹_›] at caches
      exact h i on caches

theorem Warm.arm (h : s.Warm) (l i) : (s.arm l i).Warm := by
  cases l with
  | line => exact h.overlaid i (fun _ => rfl) fun _ => rfl
  | instruction => exact h.overlaid i (fun _ => rfl) fun _ => rfl
  | opcode =>
    simp only [CodeState.arm, instrument]
    split
    · exact h
    · have slots : ∀ j, (((s.setSlot i { s.slot i with instrumented := true }).resetCounter i (s.slot i).base)).slot j =
          (s.setSlot i { s.slot i with instrumented := true }).slot j := fun j => by simp [slot]
      have units := units_resetCounter (s.setSlot i { s.slot i with instrumented := true }) i (s.slot i).base
      refine h.changed (i := i) (fun j other => ?_) ?_ fun on caches lt => ?_
      · exact (slots j).trans (by rw [slot_setSlot, if_neg fun here => other here.1])
      · refine units ▸ ?_
        split
        · exact .inl rfl
        · exact .inr rfl
      · have base : (s.slot i).base.caches ≠ 0 := by
          change (((s.setSlot i { s.slot i with instrumented := true }).resetCounter i (s.slot i).base).slot i).base.caches ≠ 0 at caches
          rw [slots, slot_setSlot] at caches
          split at caches <;> exact caches
        rw [if_neg base] at units
        change i + 1 < ((s.setSlot i { s.slot i with instrumented := true }).resetCounter i (s.slot i).base).units.size at lt
        change ((s.setSlot i { s.slot i with instrumented := true }).resetCounter i (s.slot i).base).units[i + 1]? = _
        rw [units, size_setIfInBounds] at lt
        rw [units, getElem?_setIfInBounds, if_pos rfl, if_pos lt]

theorem setIfInBounds_getD (a : Array α) (i) (d : α) : a.setIfInBounds i ((a[i]?).getD d) = a := by
  refine ext_getElem? fun j => ?_
  rw [getElem?_setIfInBounds]
  split
  · next here =>
    subst here
    split
    · next lt => simp [lt]
    · next ge => simp [Nat.le_of_not_lt ge]
  · rfl

theorem slots_restore (s : CodeState) (i) :
    (s.restore i).slots = s.slots.setIfInBounds i { s.slot i with instrumented := false } := by
  unfold restore
  dsimp only
  split
  · exact slots_resetCounter ..
  · next off =>
    have off : (s.slot i).instrumented = false := Bool.not_eq_true _ ▸ off
    have plain : { s.slot i with instrumented := false } = s.slot i := by rw [← off]
    rw [plain, slot, setIfInBounds_getD]

theorem slot_restore (s : CodeState) (i j) : (s.restore i).slot j =
    if j = i ∧ i < s.slots.size then { s.slot i with instrumented := false } else s.slot j := by
  rw [← slot_setSlot]
  simp only [slot, slots_restore, setSlot]

theorem Warm.units_restore (h : s.Warm) (i) : (s.restore i).units = s.units := by
  unfold restore
  dsimp only
  split
  · next on =>
    refine (units_resetCounter _ i _).trans ?_
    split
    · rfl
    · next caches =>
      refine ext_getElem? fun j => ?_
      change (s.units.setIfInBounds (i + 1) _)[j]? = _
      rw [getElem?_setIfInBounds]
      split
      · next here =>
        subst here
        split
        · next lt => exact (h i on caches lt).symm
        · next ge => simp [Nat.le_of_not_lt ge]
      · rfl
  · rfl

theorem Warm.disarm (h : s.Warm) (l i) : (s.disarm l i).Warm := by
  cases l with
  | line => exact h.overlaid i (fun _ => rfl) fun _ => rfl
  | instruction => exact h.overlaid i (fun _ => rfl) fun _ => rfl
  | opcode =>
    refine h.changed (i := i) (fun j other => ?_) (.inl (h.units_restore i)) fun on => ?_
    · exact (slot_restore s i j).trans (if_neg fun here => other here.1)
    · have on : ((s.restore i).slot i).instrumented = true := on
      rw [slot_restore] at on
      split at on
      · cases on
      · next outside =>
        rw [slot_of_ge (Nat.le_of_not_lt fun lt => outside ⟨rfl, lt⟩)] at on
        cases on

theorem Warm.remove (h : s.Warm) (l i e tools) : (s.remove l i e tools).Warm := by
  have taken : (s.modifyData (l.mapTable (removeIn · i tools))).Warm := h
  unfold CodeState.remove
  split
  · exact h
  · dsimp only
    split
    · exact taken.disarm l i
    · exact taken

theorem Warm.add (h : s.Warm) (l i tools) : (s.add l i tools).Warm := by
  have put : (s.modifyData (l.mapTable (addIn · i tools))).Warm := h
  exact put.arm l i

/-! ## Tables -/

/-- Without a tool table every event has at most one active tool. -/
def Unshared (s : CodeState) : Prop :=
  ∀ d, s.data = some d → d.tools = none → ∀ e, (LocalMonitors.get d.active e).Solo

theorem Unshared.mapTable (h : s.Unshared) (l : Layer) (f : Array ToolMask → Array ToolMask) :
    (s.modifyData (l.mapTable f)).Unshared := by
  intro d there tableless
  obtain ⟨old, found, rfl⟩ := Option.map_eq_some_iff.1 there
  cases l with
  | opcode => exact h old found (Option.map_eq_none_iff.1 tableless)
  | line => exact h old found tableless
  | instruction => exact h old found tableless

theorem Unshared.of_data (h : s.Unshared) (same : s'.data = s.data) : s'.Unshared := fun d there => h d (same ▸ there)

theorem Unshared.remove (h : s.Unshared) (l i e tools) : (s.remove l i e tools).Unshared := by
  have taken := h.mapTable l (removeIn · i tools)
  unfold CodeState.remove
  split
  · exact h
  · dsimp only
    split
    · exact taken.of_data (puts_disarm _ l i).data
    · exact taken

theorem Unshared.add (h : s.Unshared) (l i tools) : (s.add l i tools).Unshared :=
  (h.mapTable l (addIn · i tools)).of_data (puts_arm _ l i).data

theorem Unshared.getD (h : s.Unshared) (tableless : (s.data.getD {}).tools = none) (e) :
    (LocalMonitors.get (s.data.getD {}).active e).Solo := by
  cases found : s.data with
  | none =>
    rw [Option.getD_none, show LocalMonitors.get ({} : MonitoringData).active e = 0 from LocalMonitors.get_none e]
    exact solo_zero
  | some d =>
    rw [found] at tableless
    exact h d found tableless e

theorem Unshared.preset (h : s.Unshared) (own) (stamps : Vector Nat 8) : (s.preset own stamps).Unshared := by
  intro d there tableless e
  cases there
  exact h.getD tableless e

/-! ## After any history -/

/-- Counters of instrumented instructions have started over, and without a tool table no event is shared. -/
structure Settled (s : CodeState) : Prop where
  warm : s.Warm
  unshared : s.Unshared

theorem Settled.remove (h : s.Settled) (l i e tools) :
    (s.remove l i e tools).Settled := ⟨h.warm.remove l i e tools, h.unshared.remove l i e tools⟩

theorem Settled.add (h : s.Settled) (l i tools) : (s.add l i tools).Settled :=
  ⟨h.warm.add l i tools, h.unshared.add l i tools⟩

theorem Settled.noted (h : s.Settled) (history changes) : Settled { s with history, changes } := ⟨h.warm, h.unshared⟩

theorem Settled.force (h : s.Settled) (e : Engine) (code) : (e.force code s).1.Settled := by
  cases monitored : code.noMonitoring with
  | true =>
    rw [Engine.force, if_pos monitored]
    exact h
  | false =>
    have made : s.madeTable? e code .opcode = none →
        (s.data.getD {}).tools = none ∧ (s.alignment e).after.isShared = false := by
      intro none_made
      unfold madeTable? at none_made
      obtain ⟨old, new⟩ : s.data.bind Layer.opcode.table = none ∧
          s.newTable? code (s.alignment e).before (s.alignment e).after .opcode = none := by
        cases old : s.data.bind Layer.opcode.table with
        | none => exact ⟨rfl, by simpa [old] using none_made⟩
        | some table => simp [old] at none_made
      refine ⟨?_, Bool.eq_false_iff.2 fun shared => ?_⟩
      · cases found : s.data with
        | none => rfl
        | some d => simpa [found, Layer.table] using old
      · rw [newTable?, if_pos shared] at new
        cases new
    have prepared : (s.prepared e code).Settled := by
      refine ⟨h.warm, fun d there tableless ev => ?_⟩
      cases there
      exact Monitors.solo_of_not_shared (made tableless).2 ev.id
    rw [force_eq e monitored]
    split
    · refine ⟨h.warm, fun d there tableless ev => ?_⟩
      cases there
      exact h.unshared.getD (made tableless).1 ev
    · split
      · exact ⟨prepared.warm, prepared.unshared⟩
      · have updated : ((s.prepared e code).update code (s.alignment e)).Settled :=
          keeps_update (P := Settled) (fun _ l i e tools h => h.remove l i e tools) (fun _ l i tools h => h.add l i tools)
            prepared _
        exact ⟨updated.warm, updated.unshared⟩

theorem Settled.heed (h : s.Settled) (code c) : (s.heed code c).Settled := by
  have noted := h.noted (.answered c :: s.history) s.changes
  unfold CodeState.heed
  dsimp only
  split
  · split
    · exact (noted.remove ..).remove ..
    · exact noted.remove ..
  · split
    · exact noted.remove ..
    · exact noted

end CodeState

theorem invariant_settled (rule) : Invariant rule fun _ _ s => s.Settled where
  fresh spec _ := ⟨CodeState.warm_ofCode _, fun d there => by cases there⟩
  alike := by
    rintro _ _ _ s _ - ⟨changes, rfl⟩ settled
    exact settled.noted s.history changes
  govern _ settled := settled
  move := by
    intro e code s s' m settled
    cases m with
    | forced => exact settled.force e code
    | stamped stamps => exact ⟨settled.warm, settled.unshared.preset _ stamps⟩
    | localSet own stamps =>
      have preset : (s.preset own stamps).Settled := ⟨settled.warm, settled.unshared.preset own stamps⟩
      exact preset.force e code
    | answered => exact settled.heed code _

/-! ## One slot -/

/-- The tools that an answer takes out of a local event where it was fired. -/
def Call.withdraws (c : Call) : ToolMask :=
  if c.disables && c.args.event.isLocal then ToolMask.single c.args.tool else 0

theorem Call.has_withdraws (c : Call) (t) : c.withdraws.has t = true ↔
    (c.disables = true ∧ c.args.event.isLocal = true) ∧ c.args.tool < 8 ∧ c.args.tool = t := by
  unfold withdraws
  cases c.disables <;> cases c.args.event.isLocal <;> simp

namespace CodeState
variable {s s' : CodeState} {code : Code} {i : Nat} {mask gone : ToolMask}

/-- At slot `i`, which called the tools of `mask`, those in `gone` have been taken out, and nothing else has changed: the table
entry has lost them, and the slot has its plain form if none of the mask is left. -/
structure Relieved (s s' : CodeState) (i : Nat) (mask gone : ToolMask) : Prop where
  units : s'.units = s.units
  version : s'.version = s.version
  data : s'.data = s.data.map fun d => { d with tools := d.tools.map (removeIn · i gone) }
  slots : s'.slots =
    if mask ≠ 0 ∧ gone = mask then s.slots.setIfInBounds i { s.slot i with instrumented := false } else s.slots

theorem removeIn_removeIn (table i first second) :
    removeIn (removeIn table i first) i second = removeIn table i (first ||| second) := by
  have entry : maskIn (removeIn table i first) i = (maskIn table i).without first := by rw [maskIn_removeIn, if_pos rfl]
  have both : ((maskIn table i).without first).without second = (maskIn table i).without (first ||| second) := by
    apply ext_has
    intro t
    simp [Bool.and_assoc]
  rw [removeIn, entry, both, removeIn, removeIn, setIfInBounds_setIfInBounds]

theorem removeIn_zero (table i) : removeIn table i 0 = table := by
  have same : (maskIn table i).without 0 = maskIn table i := without_zero _
  rw [removeIn, same, maskIn, setIfInBounds_getD]

theorem Relieved.refl (s : CodeState) (i mask) : s.Relieved s i mask 0 := by
  refine ⟨rfl, rfl, ?_, ?_⟩
  · have same : (removeIn · i 0) = (id : Array ToolMask → Array ToolMask) := funext fun table => removeIn_zero table i
    rw [same]
    simp
  · rw [if_neg fun here => here.1 here.2.symm]

/-- With one more tool of the mask the last one is gone exactly if what is left of the mask is empty, in the table or, without
one, among the active tools. -/
theorem leavesNone_iff {d : MonitoringData} (within : ∀ t, gone.has t = true → mask.has t = true)
    (called : mask.has tool = true) (table : ∀ t, d.tools = some t → mask = maskIn t i)
    (tableless : d.tools = none → mask = LocalMonitors.get d.active event ∧ mask.Solo) :
    leavesNone (d.tools.map (removeIn · i gone)) (LocalMonitors.get d.active event) i (ToolMask.single tool) = true ↔
      gone ||| ToolMask.single tool = mask := by
  have lt := lt_of_has called
  cases there : d.tools with
  | some t =>
    simp only [Option.map_some, leavesNone, maskIn_removeIn, if_true, ← table t there, beq_iff_eq, eq_iff_has,
      has_without, has_or, has_single]
    grind
  | none =>
    obtain ⟨rfl, solo⟩ := tableless there
    simp only [Option.map_none, leavesNone, beq_iff_eq, eq_iff_has, has_and, has_or,
      has_single]
    grind [ToolMask.Solo]

theorem Relieved.plain (h : s.Relieved s' i mask gone) :
    s'.slots.setIfInBounds i { s'.slot i with instrumented := false } =
      s.slots.setIfInBounds i { s.slot i with instrumented := false } := by
  have slots := h.slots
  split at slots
  · have same : s'.slot i = (s.setSlot i { s.slot i with instrumented := false }).slot i := by
      simp only [slot, setSlot, slots]
    rw [slots, setIfInBounds_setIfInBounds, same, slot_setSlot]
    split <;> rfl
  · have same : s'.slot i = s.slot i := by simp only [slot, slots]
    rw [slots, same]

theorem Relieved.remove (settled : s.Settled) (settled' : s'.Settled) (h : s.Relieved s' i mask gone)
    (within : ∀ t, gone.has t = true → mask.has t = true) {event : Event} (isLocal : event.isLocal = true)
    (reads : mask = s.toolsAt globals i event) (called : mask.has tool = true) :
    s.Relieved (s'.remove .opcode i event (ToolMask.single tool)) i mask (gone ||| ToolMask.single tool) := by
  have itself : event.maskEvent = event := by cases event <;> first | rfl | cases isLocal
  rw [toolsAt, itself] at reads
  simp only [isLocal, if_true] at reads
  cases data : s.data with
  | none =>
    rw [data] at reads
    obtain rfl : mask = 0#8 := reads
    rw [has_zero] at called
    cases called
  | some d =>
    rw [data] at reads
    have table : ∀ t, d.tools = some t → mask = maskIn t i := fun t there => by rw [reads]; dsimp only; rw [there]
    have tableless : d.tools = none → mask = LocalMonitors.get d.active event ∧ mask.Solo := by
      intro none_there
      have same : mask = LocalMonitors.get d.active event := by rw [reads]; dsimp only; rw [none_there]
      exact ⟨same, same ▸ settled.unshared d data none_there event⟩
    have last : leavesNone (d.tools.map (removeIn · i gone)) (LocalMonitors.get d.active event) i (ToolMask.single tool) =
        true ↔ gone ||| ToolMask.single tool = mask := leavesNone_iff within called table tableless
    have some_called : mask ≠ 0 := (ne_zero_iff mask).2 ⟨tool, called⟩
    have data' : s'.data = some { d with tools := d.tools.map (removeIn · i gone) } := by rw [h.data, data]; rfl
    have taken : (s'.modifyData (Layer.opcode.mapTable (removeIn · i (ToolMask.single tool)))).data =
        s.data.map fun d => { d with tools := d.tools.map (removeIn · i (gone ||| ToolMask.single tool)) } := by
      simp only [modifyData, data', data, Option.map_some, Layer.mapTable, Option.map_map]
      congr 2
      congr 1
      funext t
      exact removeIn_removeIn t i gone (ToolMask.single tool)
    have step : s'.remove .opcode i event (ToolMask.single tool) =
        let less := s'.modifyData (Layer.opcode.mapTable (removeIn · i (ToolMask.single tool)))
        if leavesNone (d.tools.map (removeIn · i gone)) (LocalMonitors.get d.active event) i (ToolMask.single tool)
          then less.disarm .opcode i else less := by
      unfold CodeState.remove
      rw [data']
      rfl
    rw [step]
    by_cases all : gone ||| ToolMask.single tool = mask
    · have emptied := puts_disarm (s'.modifyData (Layer.opcode.mapTable (removeIn · i (ToolMask.single tool)))) .opcode i
      have warm : (s'.modifyData (Layer.opcode.mapTable (removeIn · i (ToolMask.single tool)))).Warm := settled'.warm
      rw [if_pos (last.2 all)]
      refine ⟨(warm.units_restore i).trans h.units, emptied.version.trans h.version, emptied.data.trans taken, ?_⟩
      rw [if_pos ⟨some_called, all⟩]
      exact (slots_restore _ i).trans h.plain
    · have before : gone ≠ mask := by
        rintro rfl
        refine all (ext_has fun t => ?_)
        have lt := lt_of_has called
        simp only [has_or, has_single]
        grind
      rw [if_neg fun none_left => all (last.1 none_left)]
      refine ⟨h.units, h.version, taken, h.slots.trans ?_⟩
      rw [if_neg fun here => before here.2, if_neg fun here => all here.2]

theorem Relieved.heed (settled : s.Settled) (settled' : s'.Settled) (h : s.Relieved s' i mask gone)
    (within : ∀ t, gone.has t = true → mask.has t = true)
    (reads : c.args.event.isLocal = true → mask = s.toolsAt globals i c.args.event) (layer : c.layer = .opcode)
    (place : c.slot = i) (alone : c.sibling? code = none) (called : mask.has c.args.tool = true) :
    s.Relieved (s'.heed code c) i mask (gone ||| c.withdraws) := by
  have noted : s.Relieved { s' with history := .answered c :: s'.history } i mask gone :=
    ⟨h.units, h.version, h.data, h.slots⟩
  unfold CodeState.heed Call.withdraws
  rw [alone, layer, place]
  dsimp only
  split
  · next disables =>
    have isLocal := (Bool.and_eq_true_iff.1 disables).2
    exact noted.remove settled (settled'.noted _ s'.changes) within isLocal (reads isLocal) called
  · have none_gone : gone ||| (0 : ToolMask) = gone := BitVec.or_zero
    rw [none_gone]
    exact noted

/-- A code object takes note of answers in turn; its changes are reported. -/
def heedAll (s : CodeState) (code : Code) (calls : List Call) : CodeState :=
  calls.foldl (fun s c => { s.heed code c with changes := [] }) s

theorem outline_heedAll (s : CodeState) (code) (calls : List Call) :
    (s.heedAll code calls).outline = { s.outline with history := calls.reverse.map .answered ++ s.history } := by
  induction calls generalizing s with
  | nil => rfl
  | cons c rest ih =>
    have noted : ({ s.heed code c with changes := [] } : CodeState).outline =
        { s.outline with history := .answered c :: s.history } := outline_heed s code c
    have history : ({ s.heed code c with changes := [] } : CodeState).history = .answered c :: s.history := history_heed s code c
    refine (ih _).trans ?_
    rw [noted, history, List.reverse_cons, List.map_append, List.append_assoc]
    rfl

/-- All answers to an event fired from the slot: each of them may take out the tool that gives it. -/
theorem Relieved.heedAll (settled : s.Settled) (reads : event.isLocal = true → mask = s.toolsAt globals i event)
    (fits : ∀ c ∈ calls, c.layer = .opcode ∧ c.slot = i ∧ c.args.event = event ∧ c.sibling? code = none ∧
      mask.has c.args.tool = true) (settled' : s'.Settled) (h : s.Relieved s' i mask gone)
    (within : ∀ t, gone.has t = true → mask.has t = true) :
    ∃ gone', (∀ t, gone'.has t = true ↔ gone.has t = true ∨ ∃ c ∈ calls, c.withdraws.has t = true) ∧
      s.Relieved (s'.heedAll code calls) i mask gone' := by
  induction calls generalizing s' gone with
  | nil => exact ⟨gone, fun t => by simp, h⟩
  | cons c rest ih =>
    obtain ⟨layer, place, rfl, alone, called⟩ := fits c (List.mem_cons_self ..)
    have next := h.heed settled settled' within reads layer place alone called
    have within' : ∀ t, (gone ||| c.withdraws : ToolMask).has t = true → mask.has t = true := by
      intro t there
      rw [has_or, Bool.or_eq_true] at there
      rcases there with old | new
      · exact within t old
      · exact ((c.has_withdraws t).1 new).2.2 ▸ called
    obtain ⟨gone', all, relieved⟩ := ih (fun c mem => fits c (List.mem_cons_of_mem _ mem))
      ((settled'.heed code c).noted (s'.heed code c).history []) ⟨next.units, next.version, next.data, next.slots⟩ within'
    refine ⟨gone', fun t => (all t).trans ?_, relieved⟩
    simp [or_assoc]

end CodeState
end MonitoredVm
