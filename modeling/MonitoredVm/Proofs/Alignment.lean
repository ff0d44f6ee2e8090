import MonitoredVm.Proofs.Rewriting

/-!
# Alignments

What bringing a code object in line does to it, cell by cell. A layer whose table is called for gets it first; then
the tools that leave are taken out and those that enter are put in. Where the line table is needed and cannot be
built the code object stays as it was, except that the table of opcode events may have been made.
-/

namespace MonitoredVm

open Option

/-- The event a slot reports on a layer when it does, as the compiled code has it. -/
def Code.eventAt (c : Code) (l : Layer) (i : Nat) : Option Event :=
  if i ∈ c.offsetsFrom c.firstTraceable then
    match l with
    | .opcode => (c.opcodeAt i).event? (c.oparg i)
    | .line => if (LineTable.build c).any (·.startsLine i) then some .line else none
    | .instruction => if (c.opcodeAt i).skipsInstructionOverlay then none else some .instruction
  else none

namespace Code

theorem mem_of_eventAt {c : Code} (h : c.eventAt l i = some e) : i ∈ c.offsetsFrom c.firstTraceable := by
  unfold eventAt at h
  split at h
  next mem => exact mem
  next => cases h

theorem eventAt_opcode {c : Code} (h : c.eventAt .opcode i = some e) : (c.opcodeAt i).event? (c.oparg i) = some e := by
  simpa [eventAt, mem_of_eventAt h] using h

theorem eventAt_line {c : Code} (h : c.eventAt .line i = some e) : e = .line := by
  simp [eventAt, mem_of_eventAt h] at h
  exact h.2.symm

theorem eventAt_instruction {c : Code} (h : c.eventAt .instruction i = some e) : e = .instruction := by
  simp [eventAt, mem_of_eventAt h] at h
  exact h.2.symm

end Code

theorem Opcode.isLocal_event {op : Opcode} {e : Event} (h : op.event? oparg = some e) : e.isLocal = true := by
  cases op <;> simp [Opcode.event?] at h <;> first | (subst h; rfl) | (subst h; split <;> rfl)

theorem Code.isLocal_eventAt {c : Code} {e : Event} (h : c.eventAt l i = some e) : e.isLocal = true := by
  cases l with
  | opcode => exact Opcode.isLocal_event (eventAt_opcode h)
  | line => rw [eventAt_line h]; rfl
  | instruction => rw [eventAt_instruction h]; rfl

namespace Alignment

/-- The change calls for a tool table on the layer that reports `e`: some event is shared, and an overlay has tools. -/
def callsForTable (a : Alignment) (l : Layer) (e : Event) : Bool :=
  a.after.isShared && (l == .opcode || LocalMonitors.get a.after e != 0)

/-- What a table made on the way has for an event at a slot, which reports or not. -/
def born (a : Alignment) (l : Layer) (e : Event) (armed : Bool) : ToolMask :=
  match l with
  | .opcode => if armed then LocalMonitors.get a.before e else 0
  | .line => LocalMonitors.get a.after e
  | .instruction => 0

theorem solo_of_not_callsForTable {a : Alignment} (h : a.callsForTable l e = false) :
    (LocalMonitors.get a.after e).Solo := by
  by_cases shared : a.after.isShared = true
  · simp only [callsForTable, shared, Bool.true_and, Bool.or_eq_false_iff, bne_eq_false_iff_eq] at h
    rw [h.2]
    exact ToolMask.solo_zero
  · exact Monitors.solo_of_not_shared (Bool.not_eq_true _ ▸ shared) e.id

end Alignment

namespace Cell

/-- The cell once the tables called for are made. -/
def prepare (c : Cell) (a : Alignment) (l : Layer) (e : Event) : Cell :=
  if a.callsForTable l e then c.fill (a.born l e c.armed) else c

/-- What a change of active events does to a cell that reports `e`. -/
def align (c : Cell) (a : Alignment) (l : Layer) (e : Event) : Cell :=
  (c.prepare a l e).change (LocalMonitors.get a.after e) (LocalMonitors.get a.removed e) (LocalMonitors.get a.added e)

@[simp] theorem armed_prepare (c : Cell) (a l e) : (c.prepare a l e).armed = c.armed := by
  unfold prepare
  split <;> rfl

section align
variable {c : Cell} {a : Alignment} {l : Layer} {e : Event}

theorem entry_prepare_none (h : (c.prepare a l e).entry = none) : a.callsForTable l e = false := by
  unfold prepare at h
  split at h
  next => cases h
  next off => exact Bool.not_eq_true _ ▸ off

theorem prepare_of_entry (h : c.entry = some m) : c.prepare a l e = c := by
  unfold prepare fill
  split
  next => rw [h, getD_some, ← h]
  next => rfl

theorem isSome_align : (c.align a l e).entry.isSome = (c.entry.isSome || a.callsForTable l e) := by
  rw [align, change_entry, isSome_map]
  unfold prepare
  split
  next called => simp [fill, called]
  next off => simp [off]

theorem Tame.known_prepare (h : c.Tame (LocalMonitors.get a.before e)) (m : ToolMask)
    (entry : (c.prepare a l e).entry = some m) (t) (has : m.has t = true) :
    (LocalMonitors.get a.before e).has t = true ∨ (LocalMonitors.get a.after e).has t = true := by
  unfold prepare at entry
  split at entry
  next =>
    cases entry
    cases old : c.entry with
    | some k => exact .inl (h.entry k old t (by simpa [old] using has))
    | none =>
      rw [old, getD_none] at has
      cases l with
      | opcode =>
        simp only [Alignment.born] at has
        split at has
        next => exact .inl has
        next => simp at has
      | line => exact .inr has
      | instruction => simp [Alignment.born] at has
  next => exact .inl (h.entry m entry t has)

theorem Tame.align (h : c.Tame (LocalMonitors.get a.before e)) : (c.align a l e).Tame (LocalMonitors.get a.after e) :=
  tame_change a.restarted (a.get_removed e) (a.get_added e) h.known_prepare (fun on => h.armed (by simpa using on))

theorem Tame.align_restarted (h : c.Tame (LocalMonitors.get a.before e)) (again : a.restarted = true) :
    (c.align a l e).Exact (LocalMonitors.get a.after e) 0 :=
  exact_change a.restarted (a.get_removed e) (a.get_added e) h.known_prepare (fun on => h.armed (by simpa using on))
    again fun none_there => Alignment.solo_of_not_callsForTable (entry_prepare_none none_there)

/-- Opcode events: the table is made with what was called so far, and whoever enters is no longer out. -/
theorem Exact.align {out : ToolMask} (h : c.Exact (LocalMonitors.get a.before e) out) :
    (c.align a .opcode e).Exact (LocalMonitors.get a.after e) (out.without (LocalMonitors.get a.added e)) := by
  have prepared : (c.prepare a .opcode e).Exact (LocalMonitors.get a.before e) out := by
    unfold prepare
    split
    next => exact h.fill
    next => exact h
  exact prepared.change a.restarted (a.get_removed e) (a.get_added e) fun none_there =>
    Alignment.solo_of_not_callsForTable (entry_prepare_none none_there)

end align
end Cell

namespace CodeState

def lines (s : CodeState) : Option LineTable := s.data.bind (·.lines)

/-- The own events that are still in force. -/
def keptOwn (s : CodeState) (e : Engine) : LocalMonitors :=
  dropStale (s.data.getD {}).own (s.data.getD {}).stamps e.stamps

/-- The change that brings the code object in line. -/
def alignment (s : CodeState) (e : Engine) : Alignment :=
  ⟨(s.data.getD {}).active, GlobalMonitors.union e.globals (s.keptOwn e), decide (s.version < e.lastRestart)⟩

theorem before_alignment (s : CodeState) (e ev) : LocalMonitors.get (s.alignment e).before ev = s.active ev := by
  cases data : s.data with
  | none => simp only [alignment, active, data, getD_none, map_none]; exact LocalMonitors.get_none ev
  | some d => simp [alignment, active, data]

theorem own_eq (s : CodeState) (ev) : s.own ev = LocalMonitors.get (s.data.getD {}).own ev := by
  cases data : s.data with
  | none => simp [own, data]
  | some d => simp [own, data]

theorem has_dropStale (own : LocalMonitors) (stamps versions : Vector Nat 8) (id t) :
    ((dropStale own stamps versions).mask id).has t = ((own.mask id).has t && stamps[t]? == versions[t]?) := by
  have dropped : ∀ (l : List Nat) (own : LocalMonitors),
      ((l.foldl Monitors.clearTool own).mask id).has t = ((own.mask id).has t && !decide (t ∈ l)) := by
    intro l
    induction l with
    | nil => simp
    | cons u rest ih =>
      intro own
      rw [List.foldl_cons, ih, Monitors.mask_clearTool, ToolMask.has_without, ToolMask.has_single]
      cases has : (own.mask id).has t with
      | false => rfl
      | true =>
        have lt := ToolMask.lt_of_has has
        by_cases same : u = t
        · simp [same, lt]
        · simp [same, Ne.symm same]
  rw [dropStale, dropped]
  cases has : (own.mask id).has t with
  | false => rfl
  | true =>
    have stale : t ∈ (List.range 8).filter (fun t => stamps[t]? != versions[t]?) ↔ stamps[t]? ≠ versions[t]? := by
      rw [List.mem_filter, bne_iff_ne]
      exact and_iff_right (List.mem_range.2 (ToolMask.lt_of_has has))
    by_cases same : stamps[t]? = versions[t]?
    · rw [decide_eq_false (mt stale.1 (Decidable.not_not.2 same)), beq_iff_eq.2 same]
      rfl
    · rw [decide_eq_true (stale.2 same), beq_eq_false_iff_ne.2 same]
      rfl

/-- The line table is that of the code, and it is there whenever `LINE` is active. -/
structure Lined (s : CodeState) (code : Code) : Prop where
  built : ∀ t, s.lines = some t → LineTable.build code = some t
  there : s.active .line ≠ 0 → s.lines.isSome = true

/-- `s'` is `s` brought in line with `e`. -/
structure Realigned (e : Engine) (code : Code) (s s' : CodeState) : Prop where
  version : s'.version = e.version
  history : s'.history = .aligned (s.alignment e) :: s.history
  sized : s'.outline.Sized code.size
  base : ∀ i, (s'.slot i).base = (s.slot i).base
  active : ∀ ev, s'.active ev = LocalMonitors.get (s.alignment e).after ev
  own : ∀ ev, s'.own ev = LocalMonitors.get (s.keptOwn e) ev
  lines : s'.lines =
    if LocalMonitors.get (s.alignment e).after .line = 0 then s.lines else s.lines <|> LineTable.build code
  lined : LocalMonitors.get (s.alignment e).after .line ≠ 0 → s'.lines.isSome = true
  cell : ∀ l i ev, code.eventAt l i = some ev → s'.cell l i = (s.cell l i).align (s.alignment e) l ev
  idle : ∀ l i, code.eventAt l i = none → (s'.cell l i).armed = (s.cell l i).armed

/-- `s'` is `s` when it could not be brought in line with `e`: `LINE` is enabled and there is no line table. -/
structure Faulted (e : Engine) (code : Code) (s s' : CodeState) : Prop where
  version : s'.version = s.version
  history : s'.history = s.history
  sized : s'.outline.Sized code.size
  base : ∀ i, (s'.slot i).base = (s.slot i).base
  active : ∀ ev, s'.active ev = s.active ev
  own : ∀ ev, s'.own ev = LocalMonitors.get (s.keptOwn e) ev
  lines : s'.lines = s.lines
  enabled : LocalMonitors.get (s.alignment e).after .line ≠ 0
  unbuilt : LineTable.build code = none
  cell : ∀ l i ev, code.eventAt l i = some ev →
    s'.cell l i = s.cell l i ∨
      l = .opcode ∧ s'.cell l i = (s.cell l i).fill (if (s.cell l i).armed then s.active ev else 0)
  armed : ∀ l i, (s'.cell l i).armed = (s.cell l i).armed

/-! Tables -/

theorem cell_orElse {s s' : CodeState} {l : Layer} {t : Option (Array ToolMask)} (slot : s'.slot i = s.slot i)
    (table : s'.data.bind l.table = (s.data.bind l.table <|> t)) :
    s'.cell l i = { s.cell l i with entry := (s.cell l i).entry <|> t.map (maskIn · i) } := by
  simp only [cell, slot, table]
  cases s.data.bind l.table <;> simp

theorem size_newTable {s : CodeState} {code : Code} {active all l} {t : Array ToolMask}
    (h : s.newTable? code active all l = some t) : t.size = code.size := by
  unfold newTable? at h
  split at h
  · cases l with
    | opcode => rw [← Option.some.inj h, size_toolTable]
    | line =>
      simp only at h
      split at h
      · cases h
      · rw [← Option.some.inj h, Array.size_replicate]
    | instruction =>
      simp only at h
      split at h
      · cases h
      · rw [← Option.some.inj h, Array.size_replicate]
  · cases h

theorem maskIn_newTable (s : CodeState) {code : Code} (grid : code.OnGrid) (a : Alignment)
    (event : code.eventAt l i = some ev) : (s.newTable? code a.before a.after l).map (maskIn · i) =
      if a.callsForTable l ev then some (a.born l ev (s.cell l i).armed) else none := by
  have mem := Code.mem_of_eventAt event
  have lt := Code.lt_of_mem_offsetsFrom mem
  cases shared : a.after.isShared with
  | false => cases l <;> simp [newTable?, Alignment.callsForTable, shared]
  | true =>
    cases l with
    | opcode =>
      have entry := maskIn_toolTable s a.before (grid.mem mem) (Code.eventAt_opcode event)
      simp [newTable?, Alignment.callsForTable, Alignment.born, shared, entry, cell, Layer.armed]
    | line =>
      cases Code.eventAt_line event
      by_cases none_there : LocalMonitors.get a.after .line = 0#8 <;>
        simp [newTable?, Alignment.callsForTable, Alignment.born, shared, none_there, maskIn, lt]
    | instruction =>
      cases Code.eventAt_instruction event
      by_cases none_there : LocalMonitors.get a.after .instruction = 0#8 <;>
        simp [newTable?, Alignment.callsForTable, Alignment.born, shared, none_there, maskIn, lt]

theorem prepare_eq (c : Cell) (a : Alignment) (l ev) :
    c.prepare a l ev =
      { c with entry := c.entry <|> if a.callsForTable l ev then some (a.born l ev c.armed) else none } := by
  unfold Cell.prepare
  split
  · cases e : c.entry <;> simp [Cell.fill, e]
  · simp

def madeTable? (s : CodeState) (e : Engine) (code : Code) (l : Layer) : Option (Array ToolMask) :=
  s.data.bind l.table <|> s.newTable? code (s.alignment e).before (s.alignment e).after l

def madeLines? (s : CodeState) (e : Engine) (code : Code) : Option LineTable :=
  if LocalMonitors.get (s.alignment e).after .line = 0 then s.lines else s.lines <|> LineTable.build code

/-- The code object on the way in line: every table is there and no slot has changed yet. -/
def prepared (s : CodeState) (e : Engine) (code : Code) : CodeState :=
  { s with
    data := some
      { s.data.getD {} with
        own := s.keptOwn e
        active := (s.alignment e).after
        tools := s.madeTable? e code .opcode
        lines := s.madeLines? e code
        lineTools := s.madeTable? e code .line
        instructionTools := s.madeTable? e code .instruction }
    history := .aligned (s.alignment e) :: s.history }

/-- The code object when the line table could not be built. -/
def abandoned (s : CodeState) (e : Engine) (code : Code) : CodeState :=
  { s with data := some { s.data.getD {} with own := s.keptOwn e, tools := s.madeTable? e code .opcode } }

theorem updated_eq (s : CodeState) (e : Engine) (code) :
    s.updated? code e.globals e.stamps =
      if LocalMonitors.get (s.alignment e).after .line ≠ 0 ∧ (s.madeLines? e code).isNone then
        ((s.abandoned e code).data.getD {}, none)
      else
        ({ (s.prepared e code).data.getD {} with active := (s.alignment e).before }, some (s.alignment e).after) := by
  obtain ⟨units, slots, data, version, changes, history⟩ := s
  cases data <;> rfl

theorem force_eq (e : Engine) (monitored : code.noMonitoring = false) (s : CodeState) : e.force code s =
      if LocalMonitors.get (s.alignment e).after .line ≠ 0 ∧ (s.madeLines? e code).isNone then
        (s.abandoned e code, .error .lineTooFar)
      else if (s.alignment e).removed.isEmpty && (s.alignment e).added.isEmpty then
        ({ s.prepared e code with version := e.version }, .ok none)
      else
        ({ (s.prepared e code).update code (s.alignment e) with version := e.version },
          .ok (some (s.alignment e).restarted)) := by
  rw [Engine.force, if_neg (by simp [monitored]), updated_eq]
  by_cases stuck : LocalMonitors.get (s.alignment e).after .line ≠ 0 ∧ (s.madeLines? e code).isNone
  · rw [if_pos stuck, if_pos stuck]
    rfl
  · rw [if_neg stuck, if_neg stuck]
    rfl

theorem table_prepared (s : CodeState) (e code) (l : Layer) :
    (s.prepared e code).data.bind l.table = s.madeTable? e code l := by
  cases l <;> rfl

theorem size_madeTable {s : CodeState} {code : Code} (sized : s.outline.Sized code.size) {t : Array ToolMask}
    (h : s.madeTable? e code l = some t) : t.size = code.size := by
  unfold madeTable? at h
  cases old : s.data.bind l.table with
  | some t' =>
    have same : t' = t := by simpa [old] using h
    refine sized.table l t.size ?_
    simp only [outline, old, same, map_some]
  | none => exact size_newTable (by simpa [old] using h)

theorem sized_prepared {s : CodeState} (e) {code : Code} (sized : s.outline.Sized code.size) :
    (s.prepared e code).outline.Sized code.size := by
  refine ⟨sized.slots, fun l m h => ?_⟩
  simp only [outline, table_prepared, map_eq_some_iff] at h
  obtain ⟨t, made, rfl⟩ := h
  exact size_madeTable sized made

theorem cell_prepared {s : CodeState} (e) {code : Code} (grid : code.OnGrid) (event : code.eventAt l i = some ev) :
    (s.prepared e code).cell l i = (s.cell l i).prepare (s.alignment e) l ev := by
  have slot : (s.prepared e code).slot i = s.slot i := rfl
  rw [cell_orElse slot (table_prepared s e code l), prepare_eq, maskIn_newTable s grid _ event]

/-- Where the line table is there, or for other layers, a slot reports what the compiled code says. -/
theorem reports_eq {s : CodeState} {code : Code} (mem : i ∈ code.offsetsFrom code.firstTraceable)
    (lines : l = .line → s.lines = LineTable.build code) : s.reports code l i = code.eventAt l i := by
  cases l with
  | opcode => simp [reports, Code.eventAt, mem]
  | line =>
    have starts : s.startsLine i = (LineTable.build code).any (·.startsLine i) := by
      rw [← lines rfl]
      simp only [startsLine, CodeState.lines]
      cases s.data.bind (·.lines) <;> rfl
    simp [reports, Code.eventAt, mem, starts]
  | instruction => simp [reports, Code.eventAt, mem]

theorem active_prepared (s : CodeState) (e code ev) :
    (s.prepared e code).active ev = LocalMonitors.get (s.alignment e).after ev := rfl

theorem lines_prepared (s : CodeState) (e code) : (s.prepared e code).lines = s.madeLines? e code := by
  simp only [lines, prepared, bind_some]

theorem get_line_of_unlined {s : CodeState} (lined : s.Lined code)
    (afloat : ¬ (LocalMonitors.get (s.alignment e).after .line ≠ 0 ∧ (s.madeLines? e code).isNone))
    (unlined : s.madeLines? e code = none) :
    LocalMonitors.get (s.alignment e).after .line = 0 ∧ LocalMonitors.get (s.alignment e).before .line = 0 := by
  have after : LocalMonitors.get (s.alignment e).after .line = 0 := by
    refine Decidable.not_not.1 fun some_line => afloat ⟨some_line, ?_⟩
    rw [unlined]
    rfl
  refine ⟨after, Decidable.not_not.1 fun some_line => ?_⟩
  have there := lined.there (before_alignment s e .line ▸ some_line)
  rw [madeLines?, if_pos after] at unlined
  simp [unlined] at there

theorem cell_update_prepared {s : CodeState} {code : Code} (sized : s.outline.Sized code.size) (lined : s.Lined code)
    (afloat : ¬ (LocalMonitors.get (s.alignment e).after .line ≠ 0 ∧ (s.madeLines? e code).isNone)) (l i) :
    ((s.prepared e code).update code (s.alignment e)).cell l i =
      match code.eventAt l i with
      | none => (s.prepared e code).cell l i
      | some ev => (s.prepared e code).changed (s.alignment e) ev ((s.prepared e code).cell l i) := by
  rw [(cell_update rfl (sized_prepared e sized) _).2]
  by_cases mem : i ∈ code.offsetsFrom code.firstTraceable
  · rw [if_pos mem]
    by_cases unlined : l = .line ∧ s.madeLines? e code = none
    · obtain ⟨rfl, unlined⟩ := unlined
      obtain ⟨after, before⟩ := get_line_of_unlined lined afloat unlined
      have quiet : (s.prepared e code).reports code .line i = none := by
        have bare : (s.prepared e code).startsLine i = false := by
          have none_there := (lines_prepared s e code).trans unlined
          simp only [CodeState.lines] at none_there
          simp [startsLine, none_there]
        simp [reports, bare]
      rw [quiet]
      cases event : code.eventAt .line i with
      | none => rfl
      | some ev =>
        cases Code.eventAt_line event
        simp [changed, Cell.change, Alignment.get_removed, Alignment.get_added, after, before]
    · have lines : l = .line → (s.prepared e code).lines = LineTable.build code := by
        intro line
        have some_lines : s.madeLines? e code ≠ none := fun none_there => unlined ⟨line, none_there⟩
        rw [lines_prepared]
        unfold madeLines? at some_lines ⊢
        cases old : s.lines with
        | some t => simp [lined.built t old]
        | none =>
          rw [old] at some_lines
          split
          next zero => simp [zero] at some_lines
          next => rfl
      have reported := reports_eq mem lines
      cases event : code.eventAt l i with
      | none => simp only [reported.trans event]
      | some ev => simp only [reported.trans event]
  · have none_there : code.eventAt l i = none := by simp [Code.eventAt, mem]
    rw [if_neg mem, none_there]

theorem lines_of_outline {s s' : CodeState} (h : s'.outline = s.outline) : s'.lines = s.lines := by
  have data := congrArg (fun o : Outline => o.data.bind (·.lines)) h
  simp only [outline] at data
  unfold lines
  cases e : s.data <;> cases e' : s'.data <;> simp_all [MonitoringData.bare]

/-- A state that the passes have gone over, or that needs none, is in line once it has the engine's version. -/
theorem realigned_of_swept {s : CodeState} {e : Engine} {code : Code} (grid : code.OnGrid)
    (sized : s.outline.Sized code.size)
    (afloat : ¬ (LocalMonitors.get (s.alignment e).after .line ≠ 0 ∧ (s.madeLines? e code).isNone))
    {s' : CodeState} (outline : s'.outline = (s.prepared e code).outline)
    (cell : ∀ l i, s'.cell l i =
      match code.eventAt l i with
      | none => (s.prepared e code).cell l i
      | some ev => (s.prepared e code).changed (s.alignment e) ev ((s.prepared e code).cell l i)) :
    Realigned e code s { s' with version := e.version } where
  version := rfl
  history := congrArg Outline.history outline
  sized := by
    have kept : s'.outline.Sized code.size := outline ▸ sized_prepared e sized
    exact ⟨kept.slots, kept.table⟩
  base i := congrFun (congrArg Outline.base outline) i
  active ev := active_of_outline outline ev
  own ev := own_of_outline outline ev
  lines := (lines_of_outline outline).trans (lines_prepared s e code)
  lined := by
    intro enabled
    have made : s'.lines = s.madeLines? e code := (lines_of_outline outline).trans (lines_prepared s e code)
    refine made ▸ isSome_iff_ne_none.2 fun none_there => afloat ⟨enabled, ?_⟩
    rw [none_there]
    rfl
  cell l i ev event := by
    refine (cell l i).trans ?_
    rw [event]
    simp only [changed, active_prepared, cell_prepared e grid event]
    rfl
  idle l i none_there := by
    refine (congrArg Cell.armed (cell l i)).trans ?_
    rw [none_there]
    rfl

theorem table_abandoned (s : CodeState) (e code) (l : Layer) :
    (s.abandoned e code).data.bind l.table =
      if l = .opcode then s.madeTable? e code .opcode else s.data.bind l.table := by
  cases data : s.data <;> cases l <;> simp [abandoned, Layer.table, data]

theorem faulted_abandoned {s : CodeState} {code : Code} (grid : code.OnGrid) (sized : s.outline.Sized code.size)
    (enabled : LocalMonitors.get (s.alignment e).after .line ≠ 0) (unlined : (s.madeLines? e code).isNone = true) :
    Faulted e code s (s.abandoned e code) where
  version := rfl
  history := rfl
  sized := by
    refine ⟨sized.slots, fun l m h => ?_⟩
    simp only [outline, table_abandoned] at h
    split at h
    next =>
      obtain ⟨t, made, rfl⟩ := map_eq_some_iff.1 h
      exact size_madeTable sized made
    next => exact sized.table l m h
  base _ := rfl
  active ev := by
    cases data : s.data with
    | none => simp [abandoned, CodeState.active, data]
    | some d => simp [abandoned, CodeState.active, data]
  own _ := rfl
  lines := by
    cases data : s.data <;> simp [abandoned, CodeState.lines, data]
  enabled := enabled
  unbuilt := by
    rw [madeLines?, if_neg enabled] at unlined
    cases old : s.lines <;> simp_all
  cell l i ev event := by
    have slot : (s.abandoned e code).slot i = s.slot i := rfl
    have table := table_abandoned s e code l
    by_cases opcode : l = .opcode
    · subst opcode
      rw [cell_orElse slot table, maskIn_newTable s grid _ event, ← prepare_eq]
      unfold Cell.prepare
      split
      next => exact .inr ⟨rfl, by simp [Alignment.born, before_alignment]⟩
      next => exact .inl rfl
    · rw [if_neg opcode] at table
      exact .inl (by simp only [CodeState.cell, slot, table])
  armed _ _ := rfl

/-- Bringing a code object in line either does so or leaves it without the line table it needs. -/
theorem force_cases {s : CodeState} (e : Engine) {code : Code} (monitored : code.noMonitoring = false)
    (grid : code.OnGrid) (sized : s.outline.Sized code.size) (lined : s.Lined code) :
    (∃ r, (e.force code s).2 = .ok r) ∧ Realigned e code s (e.force code s).1 ∨
      (e.force code s).2 = .error .lineTooFar ∧ Faulted e code s (e.force code s).1 := by
  rw [force_eq e monitored]
  by_cases stuck : LocalMonitors.get (s.alignment e).after .line ≠ 0 ∧ (s.madeLines? e code).isNone
  · rw [if_pos stuck]
    exact .inr ⟨rfl, faulted_abandoned grid sized stuck.1 stuck.2⟩
  · rw [if_neg stuck]
    refine .inl ?_
    split
    next still =>
      obtain ⟨gone, new⟩ := Bool.and_eq_true_iff.1 still
      refine ⟨⟨_, rfl⟩, realigned_of_swept grid sized stuck rfl fun l i => ?_⟩
      split
      next => rfl
      next ev _ => simp [changed, Cell.change, LocalMonitors.get, Monitors.mask_of_isEmpty gone, Monitors.mask_of_isEmpty new]
    next =>
      exact ⟨⟨_, rfl⟩, realigned_of_swept grid sized stuck (cell_update rfl (sized_prepared e sized) _).1
        (cell_update_prepared sized lined stuck)⟩

end CodeState
end MonitoredVm
