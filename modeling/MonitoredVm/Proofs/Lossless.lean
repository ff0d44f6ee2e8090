import MonitoredVm.Proofs.Abreast

/-!
# Coverage loses nothing

A step of both worlds reports the same, but for places that coverage has given up; these it has seen. So whatever steps
are taken, coverage that disables each place after the first hit ends with the lines and directions that a recorder
receives, if what closes a branch is always reached from the same instruction.
-/

namespace MonitoredVm

namespace Act

/-- The worlds are abreast after both, and the answers the same. -/
def Joint (t : Nat) (prior : Nat → Nat → Option Nat → Prop) (w v : World) {α β : Type} (x : Act α) (y : Act β) : Prop :=
  Along (World.Together t prior) w v x y

variable {t : Nat} {prior : Nat → Nat → Option Nat → Prop} {c : Coverage} {recorded : List RecordedEvent} {w v : World}

theorem lineToReport_some (h : lineToReport entry offset prev = some line) :
    ∃ d table, entry.state.data = some d ∧ d.lines = some table ∧ table.line entry.code offset = some line := by
  unfold lineToReport at h
  obtain ⟨d, data, h⟩ := Option.bind_eq_some_iff.1 h
  obtain ⟨table, lines, h⟩ := Option.bind_eq_some_iff.1 h
  obtain ⟨line', there, h⟩ := Option.bind_eq_some_iff.1 h
  dsimp only at h
  split at h
  · cases h
  · exact ⟨d, table, data, lines, Option.some.inj h ▸ there⟩

section
variable (h : World.Abreast t prior c recorded w v)
include h

section deliver
variable {th : Nat} {l : Layer} {slot : Nat} {a : EventArgs} {tools : ToolMask}

theorem deliver_cases (th l slot) (a : EventArgs) (only : tools.Only t) :
    ((exec (deliver th l slot a tools.tools) w = (.ok (), w) ∧ exec (deliver th l slot a tools.tools) v = (.ok (), v)) ∨
      tools.tools = [t] ∧ w.engine.callable t a.event = some (.direct 0)) := by
  rw [only.tools_eq]
  split
  next =>
    cases registered : w.engine.callable t a.event with
    | none =>
      have registered' : v.engine.callable t a.event = none := h.engine ▸ registered
      simp only [deliver, exec_bind, exec_get, registered, registered', exec_pure]
      exact .inl ⟨trivial, trivial⟩
    | some k => exact .inr ⟨rfl, congrArg some (h.direct a.event k registered)⟩
  next => exact .inl ⟨rfl, rfl⟩

theorem recorder_hears (th l slot)
    (registered : w.engine.callable t a.event = some (.direct 0)) :
    ∃ v' s', exec (deliver th l slot a [t]) v = (.ok (), v') ∧
      v.Hears v' a.code s' (.recorder { events := recorded ++ [({ a with tool := t } : EventArgs).recorded] }) ∧
      ∀ {saw s}, CodeState.Thinned t (w.entry a.code).code saw s (v.entry a.code).state →
        CodeState.Thinned t (w.entry a.code).code saw s s' := by
  obtain ⟨v', call, ran, -, -, direct, verdict, hears⟩ := exec_deliver_direct th l slot
    (h.engine ▸ registered) h.recording (Callback.answers_recorder recorded _) (.inl rfl)
  rw [h.code] at direct hears
  refine ⟨v', _, ran, hears, fun thinned => ?_⟩
  have proceeds : call.disables = false := by rw [Call.disables, verdict]
  exact (thinned.heard direct proceeds).noted _ _ _ []

theorem coverage_hears (th l) (lt : a.code < w.codes.size)
    (inside : slot < (w.entry a.code).code.size) (isLocal : a.event.isLocal = true)
    (registered : w.engine.callable t a.event = some (.direct 0)) :
    ∃ w' s, exec (deliver th l slot a [t]) w = (.ok (), w') ∧
      w.Hears w' a.code s (.coverage (c.take { a with tool := t }).1) ∧
      ∀ {saw s'}, saw l slot → CodeState.Thinned t (w.entry a.code).code saw (w.entry a.code).state s' →
        CodeState.Thinned t (w.entry a.code).code saw s s' := by
  have sized : slot < (w.entry a.code).state.slots.size :=
    Nat.lt_of_lt_of_eq inside (h.state a.code lt).formed.sized.slots.symm
  obtain ⟨w', call, ran, layer, place, direct, verdict, hears⟩ := exec_deliver_direct th l slot
    registered h.covering (Callback.answers_coverage c _)
    ((c.verdict_take { a with tool := t }).imp_right fun disable => ⟨disable, isLocal, sized⟩)
  refine ⟨w', _, ran, hears, fun told thinned => ?_⟩
  exact (thinned.answered direct fun _ => layer ▸ place ▸ told).noted _ _ [] _

theorem along_deliver (lt : a.code < w.codes.size)
    (inside : slot < (w.entry a.code).code.size)
    (tells : ∀ tool, (w.entry a.code).code.Tells (prior a.code slot) l slot { a with tool }) (only : tools.Only t) :
    Joint t prior w v (deliver th l slot a tools.tools) (deliver th l slot a tools.tools) := by
  rcases deliver_cases h th l slot a only with ⟨ran, ran'⟩ | ⟨alone, registered⟩
  · unfold Joint Along
    rw [ran, ran']
    exact ⟨rfl, c, recorded, h⟩
  · obtain ⟨w', s, ran, first, thinner⟩ := coverage_hears h th l lt inside (tells 0).isLocal registered
    obtain ⟨v', s', ran', second, fuller⟩ := recorder_hears h th l slot registered
    unfold Joint Along
    rw [alone, ran, ran']
    have added := c.adds_take { a with tool := t }
    have more : ∀ r, c.Has r → (c.take { a with tool := t }).1.Has r := fun r has => has.adds added
    refine ⟨rfl, _, _, h.hears first second (h.holds.adds added) more fun _ => ?_⟩
    -- what was just told is all the place can tell
    refine thinner (fun b told => (tells t).same (h.closes _ lt slot) told added.has) (fuller ?_)
    exact (h.state a.code lt).mono fun l o saw b told => more _ (saw b told)

theorem along_deliver_again (lt : a.code < w.codes.size)
    (tells : ∀ tool, (w.entry a.code).code.Tells (prior a.code slot) l slot { a with tool }) (only : tools.Only t)
    (saw : c.Saw (w.entry a.code).code (prior a.code slot) l slot) :
    Joint t prior w v (pure ()) (deliver th l slot a tools.tools) := by
  rcases deliver_cases h th l slot a only with ⟨-, ran'⟩ | ⟨alone, registered⟩
  · unfold Joint Along
    rw [ran']
    exact ⟨rfl, c, recorded, h⟩
  · obtain ⟨v', s', ran', second, fuller⟩ := recorder_hears h th l slot registered
    unfold Joint Along
    rw [alone, ran']
    have nothing := (saw _ (tells t)).adds_nothing
    refine ⟨rfl, _, _, h.hears (.refl h.covering) second (h.holds.adds nothing) (fun _ => id) fun _ => ?_⟩
    exact fuller (h.state a.code lt)

end deliver

section step
variable {th i offset : Nat} {prev : Option Nat}

theorem Along.slotAt
    (rest : i < w.codes.size → offset < (w.entry i).code.size →
      Joint t prior w v (f ((w.entry i).state.slot offset)) (g ((v.entry i).state.slot offset))) :
    Joint t prior w v (slotAt i offset >>= f) (slotAt i offset >>= g) := by
  have missing : ∀ {ε : Type} (k : Slot → Act ε) (u : World), ¬ offset < (u.entry i).state.slots.size →
      exec (Act.slotAt i offset >>= k) u = (.error .outOfRange, u) := by
    intro ε k u outside
    simp only [Act.slotAt, exec_bind, exec_get, if_neg outside, exec_throw]
  by_cases lt : i < w.codes.size
  · have size : (w.entry i).state.slots.size = (w.entry i).code.size := (h.state i lt).formed.sized.slots
    have size' : (v.entry i).state.slots.size = (w.entry i).code.size := (h.state i lt).formed'.sized.slots
    by_cases inside : offset < (w.entry i).code.size
    · exact .of_exec (exec_slotAt_bind (size ▸ inside) f) (exec_slotAt_bind (size' ▸ inside) g) (rest lt inside)
    · unfold Joint Along
      rw [missing f w (size ▸ inside), missing g v (size' ▸ inside)]
      exact ⟨rfl, c, recorded, h⟩
  · have nothing : w.entry i = default := by simp [World.entry, Nat.le_of_not_lt lt]
    have outside : ¬ offset < (w.entry i).state.slots.size := by
      rw [nothing]
      exact Nat.not_lt_zero offset
    have outside' := outside
    rw [← h.entry_of_ge (Nat.le_of_not_lt lt)] at outside'
    unfold Joint Along
    rw [missing f w outside, missing g v outside']
    exact ⟨rfl, c, recorded, h⟩

theorem Along.slotAtRight (lt : i < w.codes.size)
    (inside : offset < (w.entry i).code.size)
    (rest : Joint t prior w v x (g ((v.entry i).state.slot offset))) :
    Joint t prior w v x (Act.slotAt i offset >>= g) := by
  have size : (v.entry i).state.slots.size = (w.entry i).code.size := (h.state i lt).formed'.sized.slots
  unfold Joint Along
  rw [exec_slotAt_bind (size ▸ inside) g]
  exact rest

theorem tells_line (lt : i < w.codes.size) (reported : lineToReport (w.entry i) offset prev = some line) :
    ∃ d, (w.entry i).state.data = some d ∧
      (CodeState.overlayTools d d.lineTools w.engine.globals offset .line).Only t ∧
      ∀ tool, (w.entry i).code.Tells (prior i offset) .line offset
        { event := .line, tool, code := i, qualname := (w.entry i).code.qualname, offset, line := some line,
          payload := .none } := by
  obtain ⟨d, table, data, lines, there⟩ := lineToReport_some reported
  have formed := (h.state i lt).formed
  have lone := (h.state i lt).lone
  refine ⟨d, data, ?_, fun tool => ⟨rfl, rfl, table, formed.lined.built table ?_, there.symm⟩⟩
  · have bare : d.lineTools = none := by simpa [data, Layer.table] using lone.table .line
    have own : d.own.Only t := by simpa [data] using lone.own
    rw [bare]
    exact (h.only Event.line.id).union (own Event.line.id)
  · simp [CodeState.lines, data, lines]

theorem along_fireLine (lt : i < w.codes.size)
    (inside : offset < (w.entry i).code.size) :
    Joint t prior w v (fireLine th i offset prev) (fireLine th i offset prev) := by
  have last : ∀ w v, World.Together t prior w v → Joint t prior w v
      (do return (← slotAt i offset).runs) (do return (← slotAt i offset).runs) := by
    rintro w v ⟨c, recorded, h⟩
    exact .slotAt h fun _ _ => along_pure ⟨c, recorded, h⟩ _ _
  refine .get ?_
  dsimp only
  rw [h.thread, h.lineToReport_eq, h.data, h.engine, h.code]
  by_cases tracing : (w.thread th).tracing = 0
  · rw [if_pos tracing]
    cases reported : lineToReport (w.entry i) offset prev with
    | none => exact last w v ⟨c, recorded, h⟩
    | some line =>
      obtain ⟨d, data, only, tells⟩ := tells_line h lt reported
      rw [data]
      refine .bind ?_ fun _ _ w v h => last w v h
      exact along_deliver h lt inside tells only
  · rw [if_neg tracing]
    exact last w v ⟨c, recorded, h⟩

theorem along_fireLine_again (lt : i < w.codes.size)
    (inside : offset < (w.entry i).code.size) (saw : c.Saw (w.entry i).code (prior i offset) .line offset) :
    Joint t prior w v (pure ()) (fireLine th i offset prev) := by
  have last : ∀ v', World.Together t prior w v' → Joint t prior w v' (pure ())
      (do return (← slotAt i offset).runs) := by
    rintro v ⟨c, recorded, h⟩
    exact .slotAtRight h lt inside (along_pure ⟨c, recorded, h⟩ _ _)
  refine .getRight ?_
  dsimp only
  rw [h.thread, h.lineToReport_eq, h.data, h.engine, h.code]
  by_cases tracing : (w.thread th).tracing = 0
  · rw [if_pos tracing]
    cases reported : lineToReport (w.entry i) offset prev with
    | none => exact last v ⟨c, recorded, h⟩
    | some line =>
      obtain ⟨d, data, only, tells⟩ := tells_line h lt reported
      rw [data]
      refine .right ?_ fun _ v h => last v h
      exact along_deliver_again h lt tells only saw
  · rw [if_neg tracing]
    exact last v ⟨c, recorded, h⟩

theorem tells_instruction (lt : i < w.codes.size) (data : (w.entry i).state.data = some d) :
    (CodeState.overlayTools d d.instructionTools w.engine.globals offset .instruction).Only t ∧
      ∀ tool, (w.entry i).code.Tells (prior i offset) .instruction offset
        { event := .instruction, tool, code := i, qualname := (w.entry i).code.qualname, offset, line := none,
          payload := .none } := by
  have lone := (h.state i lt).lone
  refine ⟨?_, fun tool => ⟨rfl, rfl⟩⟩
  have bare : d.instructionTools = none := by simpa [data, Layer.table] using lone.table .instruction
  have own : d.own.Only t := by simpa [data] using lone.own
  rw [bare]
  exact (h.only Event.instruction.id).union (own Event.instruction.id)

theorem along_fireInstruction :
    Joint t prior w v (fireInstruction th i offset) (fireInstruction th i offset) := by
  refine .slotAt h fun lt inside => .get ?_
  dsimp only
  rw [h.thread, h.data, h.engine, h.code]
  by_cases tracing : (w.thread th).tracing = 0
  · rw [if_pos tracing, if_pos tracing]
    cases data : (w.entry i).state.data with
    | none => exact along_pure ⟨c, recorded, h⟩ _ _
    | some d =>
      obtain ⟨only, tells⟩ := tells_instruction h lt data
      refine .bind ?_ fun _ _ _ _ h => along_pure h _ _
      exact along_deliver h lt inside tells only
  · rw [if_neg tracing, if_neg tracing]
    exact along_pure ⟨c, recorded, h⟩ _ _

theorem along_fireInstruction_again (lt : i < w.codes.size)
    (inside : offset < (w.entry i).code.size) (saw : c.Saw (w.entry i).code (prior i offset) .instruction offset) :
    Joint t prior w v (pure ()) (fireInstruction th i offset) := by
  refine .slotAtRight h lt inside (.getRight ?_)
  dsimp only
  rw [h.thread, h.data, h.engine, h.code]
  by_cases tracing : (w.thread th).tracing = 0
  · rw [if_pos tracing]
    cases data : (w.entry i).state.data with
    | none => exact along_pure ⟨c, recorded, h⟩ _ _
    | some d =>
      obtain ⟨only, tells⟩ := tells_instruction h lt data
      refine .right ?_ fun _ _ h => along_pure h _ _
      exact along_deliver_again h lt tells only saw
  · rw [if_neg tracing]
    exact along_pure ⟨c, recorded, h⟩ _ _

theorem tells_opcode (lt : i < w.codes.size) (reached : prior i offset prev)
    (told : opcodeEvent? (w.entry i).code offset prev taken = some (event, source, payload)) :
    ((w.entry i).state.toolsAt w.engine.globals offset event).Only t ∧
      ∀ tool, (w.entry i).code.Tells (prior i offset) .opcode offset
        { event, tool, code := i, qualname := (w.entry i).code.qualname, offset := source, line := none, payload } := by
  have lone := (h.state i lt).lone
  refine ⟨?_, fun tool => ⟨rfl, rfl, prev, taken, reached, told⟩⟩
  unfold CodeState.toolsAt
  dsimp only
  split
  next =>
    cases data : (w.entry i).state.data with
    | none => exact ToolMask.only_zero
    | some d =>
      have bare : d.tools = none := by simpa [data, Layer.table] using lone.table .opcode
      have active : d.active.Only t := by simpa [data] using lone.active
      simp only [bare]
      exact active _
  next => exact h.only _

theorem along_fireFrom (lt : i < w.codes.size)
    (inside : offset < (w.entry i).code.size) (reached : prior i offset prev)
    (told : opcodeEvent? (w.entry i).code offset prev taken = some (event, source, payload)) :
    Joint t prior w v (fireFrom th event i offset source payload)
      (fireFrom th event i offset source payload) := by
  obtain ⟨only, tells⟩ := tells_opcode h lt reached told
  refine .get ?_
  dsimp only
  rw [h.thread, h.toolsAt_eq, h.engine, h.code]
  split
  next => exact along_pure ⟨c, recorded, h⟩ _ _
  next => exact along_deliver h lt inside tells only

theorem along_fireFrom_again (lt : i < w.codes.size)
    (reached : prior i offset prev)
    (told : opcodeEvent? (w.entry i).code offset prev taken = some (event, source, payload))
    (saw : c.Saw (w.entry i).code (prior i offset) .opcode offset) :
    Joint t prior w v (pure ()) (fireFrom th event i offset source payload) := by
  obtain ⟨only, tells⟩ := tells_opcode h lt reached told
  refine .getRight ?_
  dsimp only
  rw [h.thread, h.toolsAt_eq, h.engine, h.code]
  split
  next => exact along_pure ⟨c, recorded, h⟩ _ _
  next => exact along_deliver_again h lt tells only saw

/-- A layer reports in both worlds, in the second alone, where there is nothing more to tell, or in neither. -/
theorem along_armed (lt : i < w.codes.size) (l : Layer)
    (both : Joint t prior w v x y)
    (again : c.Saw (w.entry i).code (prior i offset) l offset → Joint t prior w v x' y)
    (neither : Joint t prior w v x' y') :
    Joint t prior w v (if l.armed ((w.entry i).state.slot offset) then x else x')
      (if l.armed ((v.entry i).state.slot offset) then y else y') := by
  have thinned := h.state i lt
  by_cases on : l.armed ((w.entry i).state.slot offset) = true
  · rw [if_pos on, if_pos (thinned.armed l offset on)]
    exact both
  · rw [if_neg on]
    by_cases on' : l.armed ((v.entry i).state.slot offset) = true
    · rw [if_pos on']
      exact again ((thinned.lost l offset on').resolve_left on)
    · rw [if_neg on']
      exact neither

theorem along_fireOpcode (reached : prior i offset prev) (taken) :
    Joint t prior w v (fireOpcode th i offset prev taken) (fireOpcode th i offset prev taken) := by
  refine .slotAt h fun lt inside => along_armed h lt .opcode (.get ?_) (fun saw => .getRight ?_) ?_
  · dsimp only
    rw [h.code]
    cases told : opcodeEvent? (w.entry i).code offset prev taken with
    | none => exact along_pure ⟨c, recorded, h⟩ _ _
    | some x => exact (along_fireFrom h lt inside reached told).bind fun _ _ _ _ h => along_pure h _ _
  · dsimp only
    rw [h.code]
    cases told : opcodeEvent? (w.entry i).code offset prev taken with
    | none => exact along_pure ⟨c, recorded, h⟩ _ _
    | some x => exact .right (along_fireFrom_again h lt reached told saw) fun _ _ h => along_pure h _ _
  · exact along_pure ⟨c, recorded, h⟩ _ _

theorem along_step (th) (reached : prior i offset prev) (taken) :
    Joint t prior w v (step th i offset prev taken) (step th i offset prev taken) := by
  have opcode : ∀ w v, World.Together t prior w v → Joint t prior w v
      (fireOpcode th i offset prev taken) (fireOpcode th i offset prev taken) := by
    rintro w v ⟨c, recorded, h⟩
    exact along_fireOpcode h reached taken
  have line : ∀ w v, World.Together t prior w v → Joint t prior w v
      (do
        if (← slotAt i offset).line then
          let _ ← fireLine th i offset prev
        fireOpcode th i offset prev taken)
      (do
        if (← slotAt i offset).line then
          let _ ← fireLine th i offset prev
        fireOpcode th i offset prev taken) := by
    rintro w v ⟨c, recorded, h⟩
    refine .slotAt h fun lt inside => along_armed h lt .line ?_ (fun saw => ?_) (opcode w v ⟨c, recorded, h⟩)
    · exact (along_fireLine h lt inside).bind fun _ _ w v h => opcode w v h
    · exact .right (along_fireLine_again h lt inside saw) fun _ v h => opcode w v h
  refine ((along_instrument i h).mono fun _ _ h => ⟨c, recorded, h⟩).bind ?_
  rintro _ _ w v ⟨c, recorded, h⟩
  refine .slotAt h fun lt inside => along_armed h lt .instruction ?_ (fun saw => ?_) (line w v ⟨c, recorded, h⟩)
  · exact (along_fireInstruction h).bind fun _ _ w v h => line w v h
  · exact .right (along_fireInstruction_again h lt inside saw) fun _ v h => line w v h

end step
end
end Act

/-! Runs -/

/-- What can be done with one tool that has the first callback: it is registered, for single events and not for both
directions of a branch at once, events are enabled for all code or for some, and steps are taken. -/
inductive Operation.Watches (t : Nat) : Operation → Prop where
  | useTool (name : String) : Watches t (.control (.useTool t name))
  | register {event} : event ≠ .branch → Watches t (.control (.register t (EventSet.single event) (some 0)))
  | setEvents (events : EventSet) : Watches t (.control (.setEvents t events))
  | setLocal (code : Nat) (events : EventSet) : Watches t (.control (.setLocal code t events))
  | install (name : String) {events} : events.has .branch = false →
    Watches t (.control (.install t name events 0))
  | instrument (code : Nat) : Watches t (.control (.instrument code))
  | step (thread code offset : Nat) (prev : Option Nat) (taken : Bool) :
    Watches t (.thread thread (.step code offset prev taken))

/-- The predecessors from which steps come to an instruction. -/
def Operation.Prior (ops : List Operation) (code offset : Nat) (prev : Option Nat) : Prop :=
  ∃ thread taken, Operation.thread thread (.step code offset prev taken) ∈ ops

namespace World
variable {t : Nat} {prior : Nat → Nat → Option Nat → Prop} {w v : World}

theorem together_control (watches : (Operation.control c).Watches t) (h : Together t prior w v) :
    Together t prior (w.control c).1 (v.control c).1 := by
  obtain ⟨covered, recorded, h⟩ := h
  refine ⟨covered, recorded, ?_⟩
  cases watches with
  | useTool name => exact (Act.along_useTool name h).answered _
  | register single => exact (Act.along_register single h).answered _
  | setEvents events => exact (Act.along_setEvents events h).answered _
  | setLocal code events => exact (Act.along_setLocal code events h).answered _
  | install name single => exact (Act.along_install name single h).answered _
  | instrument code => exact (Act.along_instrument code h).answered _

theorem together_step {thread code offset prev} (taken) (reached : prior code offset prev) (h : Together t prior w v) :
    Together t prior (w.threadOp thread (.step code offset prev taken)).1
      (v.threadOp thread (.step code offset prev taken)).1 := by
  have ran : ∀ u : World, (u.threadOp thread (.step code offset prev taken)).1 =
      { (Act.exec (Act.step thread code offset prev taken) { u with dispatching := some code }).2 with
        dispatching := none } := fun u => rfl
  obtain ⟨c, recorded, h⟩ := h
  obtain ⟨c, recorded, stepped⟩ := (Act.along_step (h.dispatched (some code)) thread reached taken).2
  rw [ran, ran]
  exact ⟨c, recorded, stepped.dispatched none⟩

theorem together_performAll (watches : ∀ op ∈ ops, op.Watches t)
    (reached : ∀ code offset prev, Operation.Prior ops code offset prev → prior code offset prev)
    (h : Together t prior w v) : Together t prior (w.performAll ops).1 (v.performAll ops).1 := by
  induction ops generalizing w v with
  | nil => exact h
  | cons op rest ih =>
    have once : Together t prior (w.perform op).1 (v.perform op).1 := by
      cases op with
      | control c => exact together_control (watches _ (List.mem_cons_self ..)) h
      | thread i op =>
        cases watches _ (List.mem_cons_self ..) with
        | step _ code offset prev taken => exact together_step taken (reached _ _ _ ⟨i, taken, List.mem_cons_self ..⟩) h
      | tracing i ops => cases watches _ (List.mem_cons_self ..)
    refine ih (fun op mem => watches op (List.mem_cons_of_mem _ mem)) (fun code offset prev from_rest => ?_) once
    obtain ⟨i, taken, mem⟩ := from_rest
    exact reached code offset prev ⟨i, taken, List.mem_cons_of_mem _ mem⟩

/-- A code object that nothing watches yet. -/
def freshEntry (spec : CodeSpec) : CodeEntry :=
  { code := spec.assemble.1, state := CodeState.ofCode spec.assemble.1 }

theorem start_eq (specs : List CodeSpec) (callbacks : List Callback) (threshold) :
    World.start specs callbacks threshold =
      { callbacks := callbacks.toArray, log := { threshold }, codes := (specs.map freshEntry).toArray } := by
  have added : ∀ w : World, specs.foldl (fun w spec => (w.addCode spec).1) w =
      { w with codes := w.codes ++ (specs.map freshEntry).toArray } := by
    induction specs with
    | nil => simp
    | cons spec rest ih =>
      intro w
      rw [List.foldl_cons, ih]
      simp [addCode, freshEntry]
  rw [World.start, added]
  simp

theorem entry_start (specs callbacks threshold i) :
    (World.start specs callbacks threshold).entry i = ((specs[i]?).map freshEntry).getD default := by
  rw [start_eq]
  simp [entry]

theorem abreast_start (threshold) (closes : ∀ (code offset : Nat) (spec : CodeSpec), specs[code]? = some spec →
      spec.assemble.1.Closes (prior code offset) offset) :
    Abreast t prior {} [] (World.start specs [.coverage {}] threshold)
      (World.start specs [.recorder {}] threshold) := by
  have same : ∀ i, (World.start specs [.recorder {}] threshold).entry i =
      (World.start specs [.coverage {}] threshold).entry i := fun i => by rw [entry_start, entry_start]
  have there : ∀ i, i < (World.start specs [.coverage {}] threshold).codes.size → ∃ spec, specs[i]? = some spec ∧
      (World.start specs [.coverage {}] threshold).entry i = freshEntry spec := by
    intro i lt
    rw [start_eq] at lt
    have inside : i < specs.length := by simpa using lt
    exact ⟨specs[i], List.getElem?_eq_getElem inside, by rw [entry_start, List.getElem?_eq_getElem inside]; rfl⟩
  have engine : ∀ callbacks, (World.start specs callbacks threshold).engine = {} := fun callbacks => by rw [start_eq]
  exact
    { engine := by rw [engine, engine]
      only := by
        rw [engine]
        exact Monitors.only_none
      direct := by
        rw [engine]
        exact Engine.direct_start
      thread := fun i => by rw [start_eq, start_eq]; rfl
      dispatching := by rw [start_eq, start_eq]
      size := by rw [start_eq, start_eq]
      code := fun i => by rw [same]
      held := fun i => by rw [same]
      tracked := fun i => by rw [same]
      closes := fun i lt o => by
        obtain ⟨spec, found, entry⟩ := there i lt
        rw [entry]
        exact closes i o spec found
      state := fun i lt => by
        obtain ⟨spec, -, entry⟩ := there i lt
        rw [same, entry]
        exact .fresh spec
      covering := by rw [start_eq]
      recording := by rw [start_eq]
      holds := Coverage.holds_nil }

end World

/-- Coverage that gives up each place after the first hit loses nothing: with one tool, whatever events it has enabled
and whatever steps are taken, the lines and directions it reports are those that a recorder receives. -/
theorem coverage_loses_nothing {t : Nat} (specs : List CodeSpec) (threshold : Level) {ops : List Operation}
    (watches : ∀ op ∈ ops, op.Watches t)
    (closes : ∀ (code offset : Nat) (spec : CodeSpec), specs[code]? = some spec →
      spec.assemble.1.Closes (Operation.Prior ops code offset) offset)
    (qualname : String) :
    ∃ lines branches recorded,
      ((World.after specs [.coverage {}] threshold ops).report 0 false qualname).2 = .coverage lines branches ∧
      ((World.after specs [.recorder {}] threshold ops).report 0 false qualname).2 = .recorded recorded ∧
      (∀ n, n ∈ lines ↔ ∃ r ∈ recorded, r.qualname = qualname ∧ r.line? = some n) ∧
      (∀ p, p ∈ branches ↔ ∃ r ∈ recorded, r.qualname = qualname ∧ r.branch? = some p) := by
  obtain ⟨c, recorded, h⟩ := World.together_performAll watches (fun _ _ _ => id)
    ⟨{}, [], World.abreast_start (t := t) threshold closes⟩
  refine ⟨c.linesOf qualname, c.branchesOf qualname, recorded, ?_, ?_, h.holds.lines qualname,
    h.holds.branches qualname⟩
  · have there : (World.after specs [.coverage {}] threshold ops).callbacks = #[.coverage c] := h.covering
    simp [World.report, there]
  · have there : (World.after specs [.recorder {}] threshold ops).callbacks = #[.recorder { events := recorded }] :=
      h.recording
    simp [World.report, there]

/-- A conditional that is followed by another line. -/
def branchSpec : CodeSpec where
  firstLine := some 3
  steps := [.emit .resume (.literal 0), .line (.literal 4), .emit .loadConst (.literal 0), .jump .popJumpIfFalse "out",
    .emit .notTaken (.literal 0), .line (.literal 5), .emit .loadConst (.literal 0), .patch "out", .line (.literal 6),
    .emit .returnValue (.literal 0)]

/-- Offsets with their predecessors: the branch is taken, then it is not, then again. -/
def branchPath : List (Nat × Option Nat × Bool) :=
  [(0, none, false), (1, some 0, false), (2, some 1, true), (6, some 2, false),
    (0, none, false), (1, some 0, false), (2, some 1, false), (4, some 2, false), (5, some 4, false),
    (6, some 5, false), (0, none, false), (1, some 0, false), (2, some 1, false), (4, some 2, false)]

def branchRun : List Operation :=
  .control (.install 1 "coverage" (EventSet.single .line ||| EventSet.directions) 0) ::
    branchPath.map fun x => .thread 0 (.step 0 x.1 x.2.1 x.2.2)

deriving instance DecidableEq for Bindings, Profile, Report

/-- Five of nine events suffice. -/
theorem coverage_loses_nothing_branch :
    ∃ recorded, ((World.after [branchSpec] [.recorder {}] .error branchRun).report 0 false "f").2 = .recorded recorded ∧
      (∀ n, n ∈ [4, 5, 6] ↔ ∃ r ∈ recorded, r.qualname = "f" ∧ r.line? = some n) ∧
      (∀ p, p ∈ [(2, 5), (2, 6)] ↔ ∃ r ∈ recorded, r.qualname = "f" ∧ r.branch? = some p) := by
  have watches : ∀ op ∈ branchRun, op.Watches 1 := by
    intro op mem
    rcases List.mem_cons.1 mem with rfl | mem
    · exact .install "coverage" (by decide)
    · obtain ⟨x, -, rfl⟩ := List.mem_map.1 mem
      exact .step 0 0 x.1 x.2.1 x.2.2
  have closes : ∀ (code offset : Nat) (spec : CodeSpec), [branchSpec][code]? = some spec →
      spec.assemble.1.Closes (Operation.Prior branchRun code offset) offset := by
    intro code offset spec found closer p p' prior prior'
    have path : ∀ {p}, Operation.Prior branchRun code offset p →
        code = 0 ∧ ∃ x ∈ branchPath, x.1 = offset ∧ x.2.1 = p := by
      rintro p ⟨thread, taken, mem⟩
      rcases List.mem_cons.1 mem with control | mem
      · cases control
      · obtain ⟨x, there, step⟩ := List.mem_map.1 mem
        cases step
        exact ⟨rfl, x, there, rfl, rfl⟩
    obtain ⟨rfl, x, there, rfl, rfl⟩ := path prior
    obtain ⟨-, x', there', same, rfl⟩ := path prior'
    cases found
    have each : ∀ x ∈ branchPath, ∀ x' ∈ branchPath, x'.1 = x.1 →
        branchSpec.assemble.1.opcodeAt x.1 = .notTaken ∨ branchSpec.assemble.1.opcodeAt x.1 = .popIter →
        x.2.1 = x'.2.1 := by decide +kernel
    exact each x there x' there' same closer
  obtain ⟨lines, branches, recorded, covered, received, by_line, by_branch⟩ :=
    coverage_loses_nothing [branchSpec] .error watches closes "f"
  have reported : ((World.after [branchSpec] [.coverage {}] .error branchRun).report 0 false "f").2 =
      .coverage [4, 5, 6] [(2, 5), (2, 6)] := by decide +kernel
  obtain ⟨rfl, rfl⟩ := Report.coverage.inj (covered.symm.trans reported)
  exact ⟨recorded, received, by_line, by_branch⟩

end MonitoredVm
