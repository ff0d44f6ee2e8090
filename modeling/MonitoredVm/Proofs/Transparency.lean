import MonitoredVm.Proofs.Histories

/-!
# Transparency

Instrumentation does not show in what is executed. Slots keep their compiled opcodes, only traceable instructions are
ever layered on, and the live units differ from the compiled ones in counters alone: those of instructions whose own
event was switched on or off start over. So a step answers the compiled opcode, and once no event is active a code
object has its compiled slots again.
-/

namespace MonitoredVm

/-- The unit at `i` is the counter of an instruction that has an event: its first cache unit. -/
def Code.CountsAt (c : Code) (i : Nat) : Prop :=
  ∃ j e, i = j + 1 ∧ j ∈ c.offsetsFrom c.firstTraceable ∧ (c.opcodeAt j).event? (c.oparg j) = some e ∧
    (c.opcodeAt j).caches ≠ 0

namespace CodeState

/-! Counters -/

/-- The live units of `s'` are those of `s`, but that counters of instructions with an event have started over. -/
structure Recounted (code : Code) (s s' : CodeState) : Prop where
  size : s'.units.size = s.units.size
  unit : ∀ i, s'.units[i]? = s.units[i]? ∨
    code.CountsAt i ∧ s'.units[i]? = some (CodeUnit.ofCounter warmupCounter)

section Recounted
variable {code : Code} {s s' : CodeState}

theorem Recounted.of_units (h : s'.units = s.units) : Recounted code s s' :=
  ⟨by rw [h], fun _ => .inl (by rw [h])⟩

theorem Recounted.trans (h : Recounted code s s') (h' : Recounted code s' s'') : Recounted code s s'' := by
  refine ⟨h'.size.trans h.size, fun i => ?_⟩
  rcases h'.unit i with same | counts
  · rw [same]
    exact h.unit i
  · exact .inr counts

theorem countsAt_of_eventAt (event : code.eventAt .opcode i = some e) (caches : (code.opcodeAt i).caches ≠ 0) :
    code.CountsAt (i + 1) :=
  ⟨i, e, rfl, Code.mem_of_eventAt event, Code.eventAt_opcode event, caches⟩

theorem recounted_resetCounter (base : op = code.opcodeAt i) (event : code.eventAt .opcode i = some e) :
    Recounted code s (s.resetCounter i op) := by
  subst base
  unfold resetCounter
  split
  next => exact .of_units rfl
  next caches =>
    refine ⟨by simp, fun j => ?_⟩
    by_cases here : i + 1 = j ∧ j < s.units.size
    · obtain ⟨rfl, lt⟩ := here
      exact .inr ⟨countsAt_of_eventAt event caches, by simp [lt]⟩
    · refine .inl ?_
      rw [Array.getElem?_setIfInBounds]
      grind

theorem recounted_arm (base : (s.slot i).base = code.opcodeAt i)
    (event : l = .opcode → ∃ e, code.eventAt .opcode i = some e) : Recounted code s (s.arm l i) := by
  cases l with
  | line => exact .of_units rfl
  | instruction => exact .of_units rfl
  | opcode =>
    obtain ⟨e, event⟩ := event rfl
    simp only [arm, instrument]
    split
    next => exact .of_units rfl
    next =>
      have set : Recounted code s (s.setSlot i { s.slot i with instrumented := true }) := .of_units rfl
      exact (set.trans (recounted_resetCounter base event)).trans (.of_units rfl)

theorem recounted_disarm (base : (s.slot i).base = code.opcodeAt i)
    (event : l = .opcode → (s.slot i).instrumented = true → ∃ e, code.eventAt .opcode i = some e) :
    Recounted code s (s.disarm l i) := by
  cases l with
  | line => exact .of_units rfl
  | instruction => exact .of_units rfl
  | opcode =>
    simp only [disarm, restore]
    split
    next on =>
      obtain ⟨e, event⟩ := event rfl on
      have set : Recounted code s (s.setSlot i { s.slot i with instrumented := false }) := .of_units rfl
      exact (set.trans (recounted_resetCounter base event)).trans (.of_units rfl)
    next => exact .of_units rfl

theorem recounted_remove (e tools) (base : (s.slot i).base = code.opcodeAt i)
    (event : l = .opcode → (s.slot i).instrumented = true → ∃ e, code.eventAt .opcode i = some e) :
    Recounted code s (s.remove l i e tools) := by
  have taken : Recounted code s (s.modifyData (l.mapTable (removeIn · i tools))) := .of_units rfl
  unfold remove
  split
  next => exact .of_units rfl
  next =>
    dsimp only
    split
    next => exact taken.trans (recounted_disarm base event)
    next => exact taken

theorem recounted_add (tools) (base : (s.slot i).base = code.opcodeAt i)
    (event : l = .opcode → ∃ e, code.eventAt .opcode i = some e) : Recounted code s (s.add l i tools) := by
  have put : Recounted code s (s.modifyData (l.mapTable (addIn · i tools))) := .of_units rfl
  exact put.trans (recounted_arm base event)

end Recounted

/-- A pass over slots: what a code object is apart from its cells stays, and counters may start over. -/
structure Passes (code : Code) (s s' : CodeState) : Prop where
  outline : s'.outline = s.outline
  counters : Recounted code s s'

section Passes
variable {code : Code} {s s' : CodeState}

theorem Passes.refl (code s) : Passes code s s := ⟨rfl, .of_units rfl⟩

theorem Passes.trans (h : Passes code s s') (h' : Passes code s' s'') : Passes code s s'' :=
  ⟨h'.outline.trans h.outline, h.counters.trans h'.counters⟩

theorem Passes.base (h : Passes code s s') (base : (s.slot i).base = code.opcodeAt i) :
    (s'.slot i).base = code.opcodeAt i :=
  (congrFun (congrArg Outline.base h.outline) i).trans base

theorem passes_foldl {f : CodeState → Nat → CodeState} {offsets : List Nat}
    (step : ∀ s', Passes code s s' → ∀ i ∈ offsets, Passes code s' (f s' i)) :
    Passes code s (offsets.foldl f s) := by
  refine List.foldlRecOn (motive := Passes code s) offsets f (.refl code s) ?_
  intro s' here i mem
  exact here.trans (step s' here i mem)

section
variable (base : ∀ i, (s.slot i).base = code.opcodeAt i)
include base

theorem passes_removeAll (overlay : l ≠ .opcode) (e tools offsets) : Passes code s (s.removeAll l e tools offsets) := by
  unfold removeAll
  split
  next => exact .refl code s
  next =>
    refine passes_foldl fun s' here i _ => ⟨outline_remove .., ?_⟩
    exact recounted_remove e tools (here.base (base i)) fun opcode => absurd opcode overlay

theorem passes_addAll (overlay : l ≠ .opcode) (tools offsets) : Passes code s (s.addAll l tools offsets) := by
  unfold addAll
  split
  next => exact .refl code s
  next =>
    refine passes_foldl fun s' here i _ => ⟨outline_add .., ?_⟩
    exact recounted_add tools (here.base (base i)) fun opcode => absurd opcode overlay

theorem passes_updateOpcodes (change) :
    Passes code s (s.updateOpcodes code change (code.offsetsFrom code.firstTraceable)) := by
  refine passes_foldl fun s' here i mem => ?_
  cases event : (code.opcodeAt i).event? (code.oparg i) with
  | none => exact .refl code s'
  | some e =>
    have reports : code.eventAt .opcode i = some e := by simp [Code.eventAt, mem, event]
    have removed : Passes code s' (if LocalMonitors.get change.removed e != 0 then
        s'.remove .opcode i e (LocalMonitors.get change.removed e) else s') := by
      split
      next => exact ⟨outline_remove .., recounted_remove e _ (here.base (base i)) fun _ _ => ⟨e, reports⟩⟩
      next => exact .refl code s'
    have added : ∀ s'', Passes code s s'' → Passes code s'' (if LocalMonitors.get change.added e != 0 then
        s''.add .opcode i (LocalMonitors.get change.added e) else s'') := by
      intro s'' there
      split
      next => exact ⟨outline_add .., recounted_add _ (there.base (base i)) fun _ => ⟨e, reports⟩⟩
      next => exact .refl code s''
    exact removed.trans (added _ (here.trans removed))

theorem passes_update (change) :
    Passes code s (s.update code change) := by
  have opcodes := passes_updateOpcodes base change
  have gone := opcodes.trans (passes_removeAll (fun i => opcodes.base (base i)) (l := .line) (by decide) .line
    (LocalMonitors.get change.removed .line) ((code.offsetsFrom code.firstTraceable).filter s.startsLine))
  have gone' := gone.trans (passes_removeAll (fun i => gone.base (base i)) (l := .instruction) (by decide) .instruction
    (LocalMonitors.get change.removed .instruction)
    ((code.offsetsFrom code.firstTraceable).filter fun i => !(code.opcodeAt i).skipsInstructionOverlay))
  have new := gone'.trans (passes_addAll (fun i => gone'.base (base i)) (l := .line) (by decide)
    (LocalMonitors.get change.added .line) ((code.offsetsFrom code.firstTraceable).filter s.startsLine))
  exact new.trans (passes_addAll (fun i => new.base (base i)) (l := .instruction) (by decide) _ _)

end

end Passes

theorem recounted_force (formed : s.Formed code) (e : Engine) : Recounted code s (e.force code s).1 := by
  cases monitored : code.noMonitoring with
  | true =>
    rw [Engine.force, if_pos monitored]
    exact .of_units rfl
  | false =>
    rw [force_eq e monitored]
    split
    next => exact .of_units rfl
    next =>
      split
      next => exact .of_units rfl
      next =>
        have prepared : Recounted code s (s.prepared e code) := .of_units rfl
        have passed := passes_update (s := s.prepared e code) formed.base (s.alignment e)
        exact (prepared.trans passed.counters).trans (.of_units rfl)

theorem Formed.recounted_remove (h : s.Formed code) (l i e tools) : Recounted code s (s.remove l i e tools) := by
  refine CodeState.recounted_remove e tools (h.base i) fun _ on => Option.ne_none_iff_exists'.1 fun none_there => ?_
  -- a slot without an event never reports
  have off : (s.slot i).instrumented = false := h.idle (l := .opcode) none_there
  rw [off] at on
  cases on

theorem recounted_heed (formed : s.Formed code) (c) : Recounted code s (s.heed code c) := by
  have noted : Recounted code s { s with history := .answered c :: s.history } := .of_units rfl
  have formed' := formed.noted (.answered c :: s.history) s.changes
  unfold heed
  dsimp only
  cases c.sibling? code with
  | none =>
    dsimp only
    split
    next => exact noted.trans (formed'.recounted_remove ..)
    next => exact noted
  | some other =>
    have sibling := noted.trans (formed'.recounted_remove .opcode other.1 other.2 (ToolMask.single c.args.tool))
    dsimp only
    split
    next => exact sibling.trans ((formed'.remove ..).recounted_remove ..)
    next => exact sibling

theorem recounted_move (formed : s.Formed code) (m : Move rule e code s s') : Recounted code s s' := by
  cases m with
  | forced => exact recounted_force formed e
  | stamped stamps => exact .of_units rfl
  | localSet own stamps =>
    have set : Recounted code s (s.preset own stamps) := .of_units rfl
    exact set.trans (recounted_force (formed.preset own stamps) e)
  | answered => exact recounted_heed formed _

end CodeState

theorem invariant_counters (rule) :
    Invariant rule fun e code s => Sound e code s ∧ CodeState.Recounted code (CodeState.ofCode code) s where
  fresh spec begun := ⟨(invariant_sound rule).fresh spec begun, .of_units rfl⟩
  alike := by
    rintro e e' code s s' engine alike ⟨sound, counters⟩
    refine ⟨(invariant_sound rule).alike engine alike sound, ?_⟩
    obtain ⟨changes, rfl⟩ := alike
    exact counters.trans (.of_units rfl)
  govern := fun moved ⟨sound, counters⟩ => ⟨(invariant_sound rule).govern moved sound, counters⟩
  move := fun m ⟨sound, counters⟩ =>
    ⟨(invariant_sound rule).move m sound, counters.trans (CodeState.recounted_move sound.formed m)⟩

/-! Slots and units -/

/-- The slot of a unit that nothing is layered on. -/
def Code.plainSlot (c : Code) (i : Nat) : Slot := { base := c.opcodeAt i }

/-- What a code object shows of its instrumentation. -/
structure CodeState.Transparent (e : Engine) (code : Code) (s : CodeState) : Prop where
  slots : s.slots.size = code.size
  base : ∀ i, i < code.size → (s.slot i).base = code.opcodeAt i
  /-- Cache units and the units before the first traceable one are not layered on. -/
  plain : ∀ i, i < code.size → i ∉ code.offsetsFrom 0 ∨ i < code.firstTraceable → s.slot i = code.plainSlot i
  instrumented : ∀ i, i < code.size → (s.slot i).instrumented = true →
    ∃ ev, (code.opcodeAt i).event? (code.oparg i) = some ev
  overlay : ∀ i, i < code.size → code.opcodeAt i = .resume ∨ code.opcodeAt i = .endFor →
    (s.slot i).instruction = false
  size : s.units.size = code.size
  units : ∀ i, i < code.size → s.units[i]? = some (code.unitAt i) ∨
    code.CountsAt i ∧ s.units[i]? = some (CodeUnit.ofCounter warmupCounter)
  /-- Without active events the compiled slots are back; at the engine's version, without enabled ones. -/
  restored : (∀ ev : Event, ev.isLocal = true → s.active ev = 0) ∨
      code.noMonitoring = false ∧ s.version = e.version ∧ (∀ ev : Event, ev.isLocal = true → s.enabled e ev = 0) →
    ∀ i, i < code.size → s.slot i = code.plainSlot i

namespace CodeState.Formed
variable {code : Code} {s : CodeState} (h : s.Formed code)
include h

theorem slot_eq_plain (off : ∀ l : Layer, l.armed (s.slot i) = false) : s.slot i = code.plainSlot i := by
  have opcode : (s.slot i).instrumented = false := off .opcode
  have line : (s.slot i).line = false := off .line
  have instruction : (s.slot i).instruction = false := off .instruction
  calc s.slot i
    _ = ⟨(s.slot i).base, (s.slot i).instrumented, (s.slot i).line, (s.slot i).instruction⟩ := rfl
    _ = code.plainSlot i := by rw [h.base i, opcode, line, instruction]; rfl

theorem plain_of_untraceable (untraceable : i ∉ code.offsetsFrom code.firstTraceable) :
    s.slot i = code.plainSlot i := by
  refine h.slot_eq_plain fun l => h.idle ?_
  simp [Code.eventAt, untraceable]

theorem plain_of_inactive (inactive : ∀ ev : Event, ev.isLocal = true → s.active ev = 0) (i) :
    s.slot i = code.plainSlot i := by
  refine h.slot_eq_plain fun l => ?_
  cases event : code.eventAt l i with
  | none => exact h.idle event
  | some ev =>
    refine Bool.eq_false_iff.2 fun on => (h.tame event).armed on ?_
    exact inactive ev (Code.isLocal_eventAt event)

end CodeState.Formed

theorem Sound.transparent (sound : Sound e code s) (counters : CodeState.Recounted code (CodeState.ofCode code) s) :
    s.Transparent e code where
  slots := sound.formed.sized.slots
  base i _ := sound.formed.base i
  plain i _ outside := by
    refine sound.formed.plain_of_untraceable fun mem => ?_
    rcases outside with cached | early
    · exact cached (sound.grid.mem mem)
    · have := (Code.mem_offsetsFrom.1 mem).1.le
      omega
  instrumented i _ on := by
    cases event : code.eventAt .opcode i with
    | none =>
      have off : (s.slot i).instrumented = false := sound.formed.idle (l := .opcode) event
      rw [off] at on
      cases on
    | some ev => exact ⟨ev, Code.eventAt_opcode event⟩
  overlay i _ op := by
    refine sound.formed.idle (l := .instruction) ?_
    rcases op with op | op <;> simp [Code.eventAt, op, Opcode.skipsInstructionOverlay]
  size := counters.size
  units i lt := by
    have compiled : (CodeState.ofCode code).units[i]? = some (code.unitAt i) := by
      have inside : i < code.units.size := lt
      simp [CodeState.ofCode, Code.unitAt, inside]
    rw [← compiled]
    exact counters.unit i
  restored := by
    rintro (inactive | ⟨monitored, current, disabled⟩) i _
    · exact sound.formed.plain_of_inactive inactive i
    · refine sound.formed.plain_of_inactive (fun ev isLocal => ?_) i
      have linable : s.Linable e code := fun enabled => absurd (disabled .line rfl) enabled
      rw [sound.step.active monitored current linable ev isLocal]
      exact disabled ev isLocal

/-! Steps -/

namespace Act
variable {w w' : World}

theorem fireOpcode_ok (h : exec (fireOpcode t i offset prev taken) w = (.ok op, w')) :
    i < w.codes.size ∧ op = ((w.entry i).state.slot offset).base := by
  obtain ⟨slot, w₁, found, fired⟩ := exec_bind_ok h
  obtain ⟨rfl, lt⟩ := exec_slotAt found
  refine ⟨lt, ?_⟩
  rw [← slotAt_ok found]
  have last : ∀ w₂, exec (pure slot.base : Act Opcode) w₂ = (.ok op, w') → op = slot.base := fun w₂ done =>
    (Except.ok.inj (Prod.mk.inj done).1).symm
  dsimp only at fired
  split at fired
  next =>
    obtain ⟨_, w₂, -, fired⟩ := exec_bind_ok fired
    split at fired
    next =>
      obtain ⟨_, w₃, -, done⟩ := exec_bind_ok fired
      exact last w₃ done
    next => exact last w₂ fired
  next => exact last w₁ fired

theorem step_ok (rule : Discipline) (h : exec (step t i offset prev taken) w = (.ok op, w')) :
    ∃ w₁, World.Moves rule w w₁ ∧ exec (fireOpcode t i offset prev taken) w₁ = (.ok op, w') := by
  have afterInstruction : ∀ {w₂}, exec (do
      if (← slotAt i offset).line then
        let _ ← fireLine t i offset prev
      fireOpcode t i offset prev taken) w₂ = (.ok op, w') →
      ∃ w₁, World.Moves rule w₂ w₁ ∧ exec (fireOpcode t i offset prev taken) w₁ = (.ok op, w') := by
    intro w₂ h
    obtain ⟨slot, w₃, found, h⟩ := exec_bind_ok h
    have seen : World.Moves rule w₂ w₃ := (within_slotAt i offset).moves found
    split at h
    next =>
      obtain ⟨_, w₄, fired, h⟩ := exec_bind_ok h
      exact ⟨w₄, seen.trans ((within_fireLine t i offset prev).moves fired), h⟩
    next => exact ⟨w₃, seen, h⟩
  obtain ⟨_, w₁, instrumented, h⟩ := exec_bind_ok h
  obtain ⟨slot, w₂, found, h⟩ := exec_bind_ok h
  have seen : World.Moves rule w w₂ :=
    ((within_instrument i).moves instrumented).trans ((within_slotAt i offset).moves found)
  split at h
  next =>
    obtain ⟨_, w₃, fired, h⟩ := exec_bind_ok h
    obtain ⟨w₄, moved, h⟩ := afterInstruction h
    exact ⟨w₄, (seen.trans ((within_fireInstruction t i offset).moves fired)).trans moved, h⟩
  next =>
    obtain ⟨w₄, moved, h⟩ := afterInstruction h
    exact ⟨w₄, seen.trans moved, h⟩

end Act

/-- All code objects are sound, in a world that has begun. -/
def World.Settled (w : World) : Prop := w.engine.Begun ∧ w.All Sound

theorem World.Settled.moves (h : w.Settled) (moved : World.Moves rule w w') : w'.Settled :=
  (invariant_sound rule).moves moved h.1 h.2

/-- The reply to a step at an offset of code object `c` tells the opcode compiled there, if it tells one. -/
def World.Compiled (w : World) (c offset : Nat) : ThreadReply → Prop
  | .opcode op => op = (w.entry c).code.opcodeAt offset
  | _ => True

mutual

/-- The answer to an operation gives, for every step taken, the compiled opcode as the world has it. -/
def World.Faithful (w : World) : Operation → Answer → Prop
  | .thread _ (.step c offset _ _), .thread reply => w.Compiled c offset reply
  | .thread _ (.run c path), .thread (.ran replies) =>
    ∀ place ∈ (path.getD (((w.entry c).code.offsetsFrom 0).map (·, false))).zip replies, w.Compiled c place.1.1 place.2
  | .tracing _ ops, .traced answers => w.AllFaithful ops answers
  | _, _ => True

def World.AllFaithful (w : World) : List Operation → List Answer → Prop
  | op :: ops, answer :: answers => w.Faithful op answer ∧ w.AllFaithful ops answers
  | _, _ => True

end

namespace World
variable {rule : Discipline} {w w' : World}

theorem compiled_of_step (settled : w.Settled) (h : Act.exec (Act.step t c offset prev taken) w = (.ok op, w'))
    (moved : Moves rule w' later) : op = (later.entry c).code.opcodeAt offset := by
  obtain ⟨w₁, reached, fired⟩ := Act.step_ok rule h
  obtain ⟨lt, rfl⟩ := Act.fireOpcode_ok fired
  have rest : Moves rule w₁ later := ((Act.within_fireOpcode t c offset prev taken).moves fired).trans moved
  rw [(rest.code_eq lt).2]
  exact ((settled.moves reached).2 c lt).formed.base offset

theorem dispatch_eq (w : World) (c) (act : Act α) (reply : α → ThreadReply) : w.dispatch c act reply =
      ({ (act.exec { w with dispatching := some c }).2 with dispatching := none },
        match (act.exec { w with dispatching := some c }).1 with
        | .ok a => reply a
        | .error why => .failed why) :=
  rfl

theorem compiled_dispatch (settled : w.Settled)
    (moved : Moves rule (w.dispatch c (Act.step t c offset prev taken) .opcode).1 later) :
    later.Compiled c offset (w.dispatch c (Act.step t c offset prev taken) .opcode).2 := by
  have began : ({ w with dispatching := some c } : World).Settled := settled
  rw [dispatch_eq] at moved ⊢
  rcases ran : Act.exec (Act.step t c offset prev taken) { w with dispatching := some c } with ⟨_ | op, w'⟩
  · trivial
  · rw [ran] at moved
    have ended : Moves rule w' { w' with dispatching := none } := .idle rfl rfl
    exact compiled_of_step began ran (ended.trans moved)

theorem moves_of_runPath (ran : w.runPath t c prev path = (w', told)) : Moves rule w w' := by
  have moved : Moves rule w (w.runPath t c prev path).1 := moves_runPath t c path w prev
  rwa [ran] at moved

theorem compiled_runPath (path : List (Nat × Bool)) (settled : w.Settled) (prev)
    (h : w.runPath t c prev path = (w', .ok replies)) (moved : Moves rule w' later) :
    ∀ place ∈ path.zip replies, later.Compiled c place.1.1 place.2 := by
  induction path generalizing w w' prev replies with
  | nil => simp
  | cons place rest ih =>
    obtain ⟨offset, taken⟩ := place
    unfold runPath at h
    dsimp only at h
    split at h
    next => cases (Prod.mk.inj h).2
    next =>
      have once : Moves rule w (w.dispatch c (Act.step t c offset prev taken) .opcode).1 :=
        moves_dispatch (Act.within_step t c offset prev taken) _
      obtain ⟨rfl, told⟩ := Prod.mk.inj h
      rcases ran : (w.dispatch c (Act.step t c offset prev taken) .opcode).1.runPath t c (some offset) rest with
        ⟨w'', _ | others⟩
      · rw [ran] at told
        cases told
      · rw [ran] at told moved
        cases told
        rw [List.zip_cons_cons, List.forall_mem_cons]
        exact ⟨compiled_dispatch settled ((moves_of_runPath ran).trans moved),
          ih (settled.moves once) (some offset) ran moved⟩

theorem faithful_threadOp (t) (ok : op.firesOnly rule.loose = true) (settled : w.Settled)
    (moved : Moves rule (w.threadOp t op).1 later) : later.Faithful (.thread t op) (.thread (w.threadOp t op).2) := by
  cases op with
  | step c offset prev taken => exact compiled_dispatch settled moved
  | run c path =>
    unfold threadOp at moved ⊢
    dsimp only at moved ⊢
    rcases ran : w.runPath t c none (path.getD (((w.entry c).code.offsetsFrom 0).map (·, false))) with ⟨w', _ | replies⟩
    · trivial
    · rw [ran] at moved
      have all := compiled_runPath _ settled none ran moved
      have whole : Moves rule w later := (moves_of_runPath ran).trans moved
      unfold Faithful
      cases path with
      | some path =>
        rw [Option.getD_some] at all ⊢
        exact all
      | none =>
        by_cases lt : c < w.codes.size
        · rw [(whole.code_eq lt).2]
          exact all
        · -- a code object that is not there has no instructions
          have nothing : w.entry c = default := by simp [World.entry, Nat.le_of_not_lt lt]
          have none_told : replies = [] := by
            rw [nothing] at ran
            exact (Except.ok.inj (Prod.mk.inj ran).2).symm
          simp [none_told]
  | fire | fireJump | fireProtected | fireLine | fireInstruction | setPending | takePending | inspect => trivial

mutual

theorem faithful_perform : (op : Operation) → op.firesOnly rule.loose = true → ∀ {w : World}, w.Settled →
    ∀ {later : World}, Moves rule (w.perform op).1 later → later.Faithful op (w.perform op).2
  | .control _, _, _, _, _, _ => trivial
  | .thread t _, ok, _, settled, _, moved => faithful_threadOp t ok settled moved
  | .tracing t ops, ok, w, settled, _, moved => by
    have marked : (w.setThread t { w.thread t with tracing := (w.thread t).tracing + 1 }).Settled := settled
    have unmarked : ∀ w' : World, Moves rule w'
        (w'.setThread t { w'.thread t with tracing := (w'.thread t).tracing - 1 }) := fun _ => .idle rfl rfl
    exact allFaithful_performAll ops ok marked ((unmarked _).trans moved)

theorem allFaithful_performAll : (ops : List Operation) → Operation.allFireOnly rule.loose ops = true →
    ∀ {w : World}, w.Settled → ∀ {later : World}, Moves rule (w.performAll ops).1 later →
      later.AllFaithful ops (w.performAll ops).2
  | [], _, _, _, _, _ => trivial
  | op :: rest, ok, w, settled, _, moved => by
    obtain ⟨first, others⟩ := Bool.and_eq_true_iff.1 ok
    have once : Moves rule w (w.perform op).1 := moves_perform w op first
    have after := moves_performAll (w.perform op).1 rest others
    exact ⟨faithful_perform op first settled (after.trans moved),
      allFaithful_performAll rest others (settled.moves once) moved⟩

end

end World

/-- Instrumentation never changes the program. After any history, and wherever a further operation leads on its way,
every code object is transparent; and every step of the history answered the compiled opcode. -/
theorem instrumentation_transparent (specs : List CodeSpec) (callbacks : List Callback) (threshold : Level)
    (ops : List Operation) :
    (∀ w, World.Moves .any (World.after specs callbacks threshold ops) w →
      w.All fun e code s => s.Transparent e code) ∧
      (World.after specs callbacks threshold ops).AllFaithful ops
        ((World.start specs callbacks threshold).performAll ops).2 := by
  have nothing : (World.start specs callbacks threshold).Reached Discipline.any.loose :=
    ⟨specs, callbacks, threshold, [], rfl, rfl⟩
  have fires : Operation.allFireOnly Discipline.any.loose ops = true := Operation.allFireOnly_any ops
  obtain ⟨begun, all⟩ := (invariant_counters .any).reached nothing
  refine ⟨fun w moved => ?_, ?_⟩
  · have there := World.moves_performAll (World.start specs callbacks threshold) ops fires
    have kept := ((invariant_counters .any).moves (there.trans moved) begun all).2
    exact fun c lt => (kept c lt).1.transparent (kept c lt).2
  · exact World.allFaithful_performAll ops fires ⟨begun, fun c lt => (all c lt).1⟩ .refl

/-- A call under both overlays, which is then stepped over. -/
def callOverlaid : List Operation :=
  [.control (.useTool 0 "tool"),
    .control (.setEvents 0 (EventSet.single .call ||| EventSet.single .line ||| EventSet.single .instruction)),
    .thread 0 (.step 0 1 none false)]

/-- The specification of a code object with a call on a line of its own. -/
def callCode : CodeSpec := { steps := [.emit .resume (.literal 0), .line (.literal 2), .emit .call (.literal 0)] }

/-- Every layer is on, the counter has started over, and the step still answered the call. -/
theorem instrumentation_transparent_overlaid :
    ((World.after [callCode] [] .error callOverlaid).entry 0).state.slot 1 = ⟨.call, true, true, true⟩ ∧
      ((World.after [callCode] [] .error callOverlaid).entry 0).state.units[2]? = some ⟨0x11, 0⟩ ∧
      (((World.after [callCode] [] .error callOverlaid).entry 0).state.slot 1).base =
        ((World.after [callCode] [] .error callOverlaid).entry 0).code.opcodeAt 1 ∧
      (World.after [callCode] [] .error callOverlaid).AllFaithful callOverlaid
        ((World.start [callCode] [] .error).performAll callOverlaid).2 := by
  have transparent := instrumentation_transparent [callCode] [] .error callOverlaid
  refine ⟨by decide +kernel, by decide +kernel, ?_, transparent.2⟩
  exact (transparent.1 _ .refl 0 (by decide +kernel)).base 1 (by decide +kernel)

end MonitoredVm
