import Mathlib.Data.List.Nodup
import MonitoredVm.Proofs.Delivery
import MonitoredVm.Proofs.LineEvents
import MonitoredVm.Proofs.LineStarts

/-!
# Line changes

No line change is missed. Where control arrives from another line there is a line start (`LineTable.startsLine_of_entersLine`). As
long as no tool has disabled a line, every line start calls all tools that have `LINE` active (`kept_linesFull`), and the line
that is left is not taken for the one that is entered. So a step delivers `LINE` to each of them, once, and before the event
of the opcode (`line_change_delivered`).
-/

namespace MonitoredVm

/-- No tool has disabled a line. -/
def Undisturbed (history : List Happening) : Prop :=
  ∀ c, .answered c ∈ history → c.layer = .line → c.disables = false

namespace CodeState

/-- Unless a tool has disabled a line, every line start calls the active tools. -/
def LinesFull (code : Code) (s : CodeState) : Prop :=
  Undisturbed s.history → ∀ i, code.eventAt .line i = some .line →
    ∃ roused, (s.cell .line i).Recalls (s.active .line) 0 0 roused

theorem LinesFull.heed (formed : s.Formed code) (h : LinesFull code s) : LinesFull code (s.heed code c) := by
  intro undisturbed i event
  rw [history_heed] at undisturbed
  obtain ⟨roused, recalls⟩ := h (fun c' mem => undisturbed c' (List.mem_cons_of_mem _ mem)) i event
  have first := cell_heedSibling formed c event
  rw [if_neg fun here => by cases here.1] at first
  have second := (formed.heedSibling c).cell_remove event c.layer c.slot c.args.event (ToolMask.single c.args.tool)
  have same : (s.heed code c).cell .line i = s.cell .line i := by
    rw [heed_eq]
    split
    · next disables =>
      have elsewhere : ¬ (Layer.line = c.layer ∧ i = c.slot) := by
        rintro ⟨line, -⟩
        have kept := undisturbed c List.mem_cons_self line.symm
        rw [kept] at disables
        cases disables
      rw [second, if_neg elsewhere, first]
    · exact first
  rw [same, active_heed]
  exact ⟨roused, recalls⟩

theorem kept_linesFull : Kept LinesFull where
  fresh code _ i _ := by
    rw [cell_ofCode]
    have idle : Cell.Exact {} 0 0 := ⟨by simp, nofun, fun _ => ToolMask.solo_zero⟩
    exact ⟨false, fun _ => ⟨idle, rfl, rfl⟩, nofun, nofun, nofun⟩
  preset own stamps h undisturbed i event := by
    rw [cell_preset, active_preset]
    exact h undisturbed i event
  reported _ h := h
  realigned {e code s s'} _ r h undisturbed i event := by
    rw [r.history] at undisturbed
    obtain ⟨roused, recalls⟩ := h (fun c mem => undisturbed c (List.mem_cons_of_mem _ mem)) i event
    rw [← before_alignment s e] at recalls
    rw [r.cell .line i _ event, r.active]
    have aligned := recalls.align
    rw [ite_self, ite_self] at aligned
    have none_out : (0 : ToolMask).without (LocalMonitors.get (s.alignment e).added .line) = 0 := ToolMask.zero_without _
    rw [none_out] at aligned
    exact ⟨_, aligned⟩
  faulted {e code s s'} _ f h undisturbed i event := by
    rw [f.history] at undisturbed
    rcases f.cell .line i _ event with same | ⟨other, -⟩
    · rw [same, f.active]
      exact h undisturbed i event
    · cases other
  heeded formed _ h := h.heed formed

theorem invariant_linesFull : Invariant Discipline.any fun e code s => Sound e code s ∧ LinesFull code s :=
  kept_linesFull.invariant_of fun formed _ h => h.heed formed

theorem LinesFull.stepTools_eq (h : LinesFull code s) (undisturbed : Undisturbed s.history)
    (event : code.eventAt .line i = some .line) (same : s.active .line = s.enabled e .line) :
    s.stepTools e.globals .line i .line = s.enabled e .line := by
  obtain ⟨roused, recalls⟩ := h undisturbed i event
  have all : (s.active .line).without 0 = s.active .line := ToolMask.without_zero _
  rw [CodeState.stepTools_eq same rfl, recalls.calls_eq, ← same]
  cases roused
  · exact all
  · exact all

end CodeState

/-! ## The halves of a step -/

theorem Engine.Sided.direct {e : Engine} (h : e.Sided) (apart : ∀ right, ev ≠ Event.direction right) (tool)
    (c : Callable) (there : e.callable tool ev = some c) : c.isBranch = false := by
  cases c with
  | direct k => rfl
  | branch k right => exact absurd (h tool ev k right there) (apart right)

namespace World

/-- What `LINE` tells at an offset, the same to every tool. -/
def lineReport (w : World) (i offset : Nat) (line : UInt32) : EventArgs :=
  { event := .line, tool := 0, code := i, qualname := (w.entry i).code.qualname, offset, line := some line, payload := .none }

/-- Ready to report from a code object: no callback runs on the thread, and none will perform operations. -/
structure Ready (w : World) (t i offset : Nat) : Prop where
  quiet : w.Quiet
  sided : w.engine.Sided
  there : i < w.codes.size
  inside : offset < (w.entry i).state.slots.size
  calm : (w.thread t).tracing = 0

end World

namespace Act
variable {w w' : World} {t i offset slot : Nat} {layer : Layer} {a : EventArgs} {tools : List Nat}
  {refusal : Option MonitoringError} {calls : List Call}

theorem Delivers.noted (h : Delivers w w' layer slot a tools refusal calls) (refused : refusal ≠ none) :
    ∃ c, .answered c ∈ (w'.entry a.code).state.history ∧ c.layer = layer ∧ c.refusal? ≠ none := by
  obtain ⟨why, rfl⟩ := Option.ne_none_iff_exists'.1 refused
  obtain ⟨c, mem, why_c⟩ := List.exists_of_findSome?_eq_some h.refused.symm
  refine ⟨c, ?_, (h.each c mem).layer, by simp [why_c]⟩
  rw [h.history]
  exact List.mem_append_left _ (List.mem_map_of_mem (List.mem_reverse.2 mem))

theorem Delivers.ready (h : Delivers w w' layer slot a tools refusal calls) (isLocal : a.event.isLocal = true)
    (ready : w.Ready t a.code offset) : w'.engine = w.engine ∧ w'.Ready t a.code offset ∧
      (w'.entry a.code).state.version = (w.entry a.code).state.version ∧ (w'.entry a.code).code = (w.entry a.code).code := by
  have engine : w'.engine = w.engine := h.kept fun c mem => by
    simp [Call.unregisters, (h.each c mem).event, isLocal]
  have entry := h.listens.entry
  have outline := CodeState.outline_heedAll (w.entry a.code).state (w.entry a.code).code calls
  have size : (w'.entry a.code).state.slots.size = (w.entry a.code).state.slots.size := by
    rw [entry]
    exact congrArg Outline.size outline
  refine ⟨engine, ⟨h.listens.echoes.still, engine ▸ ready.sided, h.listens.size ▸ ready.there, size ▸ ready.inside, ?_⟩, ?_, ?_⟩
  · rw [h.listens.thread]
    exact ready.calm
  · rw [entry]
    exact congrArg Outline.version outline
  · rw [entry]

theorem exec_fireInstruction (ready : w.Ready t i offset) : ∃ a tools refusal calls w',
    exec (fireInstruction t i offset) w = (outcome ((w.entry i).state.slot offset).underInstruction refusal, w') ∧
      a.event = .instruction ∧ a.code = i ∧ Delivers w w' .instruction offset a tools refusal calls := by
  unfold fireInstruction
  rw [exec_slotAt_bind ready.inside, exec_bind, exec_get]
  dsimp only
  rw [if_pos ready.calm]
  split
  · next d _ =>
    let a : EventArgs :=
      { event := .instruction, tool := 0, code := i, qualname := (w.entry i).code.qualname, offset, line := none,
        payload := .none }
    have direct : ∀ tool c, w.engine.callable tool a.event = some c → c.isBranch = false :=
      ready.sided.direct (by rintro (_ | _) <;> simp [a, Event.direction])
    obtain ⟨calls, refusal, w', ran, h⟩ := exec_deliver (a := a) t .instruction
      (CodeState.overlayTools d d.instructionTools w.engine.globals offset .instruction).tools ready.quiet direct ready.there
      ready.inside
    refine ⟨a, _, refusal, calls, w', ?_, rfl, rfl, h⟩
    rw [exec_bind, ran]
    cases refusal <;> rfl
  · exact ⟨{ event := .instruction, tool := 0, code := i, qualname := "", offset, line := none, payload := .none }, [], none, [],
      w, rfl, rfl, rfl, .nil ready.quiet⟩

end Act

theorem Sound.line_table (h : Sound e code s) (armed : (s.slot i).line = true) :
    ∃ d table, s.data = some d ∧ d.lines = some table ∧
      LineTable.build code = some table ∧ i ∈ code.offsetsFrom code.firstTraceable ∧ table.startsLine i = true := by
  cases event : code.eventAt .line i with
  | none =>
    have idle : (s.slot i).line = false := h.formed.idle event
    rw [idle] at armed
    cases armed
  | some ev =>
    obtain rfl := Code.eventAt_line event
    have some_active := (h.formed.tame event).armed armed
    obtain ⟨table, there⟩ := Option.isSome_iff_exists.1 (h.formed.lined.there some_active)
    have built := h.formed.lined.built table there
    obtain ⟨d, data, lines⟩ := Option.bind_eq_some_iff.1 there
    have mem := Code.mem_of_eventAt event
    refine ⟨d, table, data, lines, built, mem, ?_⟩
    simpa [Code.eventAt, mem, built] using event

/-- Engine and code objects are such as histories leave them. -/
structure World.Stands (w : World) : Prop where
  begun : w.engine.Begun
  sided : w.engine.Sided
  all : w.All fun e code s => Sound e code s ∧ CodeState.LinesFull code s

namespace World.Stands
variable {w w' : World}

theorem moves (h : w.Stands) (moved : Moves Discipline.any w w') : w'.Stands := by
  obtain ⟨begun, all⟩ := CodeState.invariant_linesFull.moves moved h.begun h.all
  exact ⟨begun, moved.sided h.sided, all⟩

theorem size_eq (h : w.Stands) (lt : i < w.codes.size) :
    (w.entry i).state.slots.size = (w.entry i).code.size := (h.all i lt).1.formed.sized.slots

theorem of_reached {v : World} (reached : v.Reached fun _ => true) (engine : w.engine = v.engine)
    (codes : w.codes = v.codes) : w.Stands := by
  have entry : ∀ i, w.entry i = v.entry i := fun i => by simp only [World.entry, codes]
  obtain ⟨begun, all⟩ := CodeState.invariant_linesFull.reached reached
  have sided : v.engine.Sided := by
    obtain ⟨specs, callbacks, threshold, ops, loose, rfl⟩ := reached
    have moved : Moves Discipline.any _ _ := moves_after specs callbacks threshold loose
    exact moved.sided Engine.sided_start
  refine ⟨engine ▸ begun, engine ▸ sided, fun i lt => ?_⟩
  rw [engine, entry]
  exact all i (codes ▸ lt)

end World.Stands

namespace Act
variable {w w' : World} {t i offset : Nat}

/-- The first half of a step. It brings the code object up to date and delivers nothing but `INSTRUCTION`. -/
theorem exec_arrive (stands : w.Stands) (ready : w.Ready t i offset) (monitored : (w.entry i).code.noMonitoring = false)
    (lines : (LineTable.build (w.entry i).code).isSome = true) :
    ∃ refusal w' before, exec (arrive t i offset) w = (outcome () refusal, w') ∧ w'.engine = w.engine ∧
      w'.Ready t i offset ∧ (w'.entry i).state.version = w.engine.version ∧
      (w'.entry i).state.history = before ++ (w.entry i).state.history ∧
      (∀ c, .answered c ∈ before → c.layer = .instruction ∧ c.args.event = .instruction) ∧
      (refusal ≠ none → ∃ c, .answered c ∈ (w'.entry i).state.history ∧ c.layer = .instruction ∧ c.refusal? ≠ none) := by
  obtain ⟨w₁, aligned, engine, threads, callbacks, changes, state⟩ :=
    exec_instrument ready.there (stands.all i ready.there).1 monitored lines
  have version : (w₁.entry i).state.version = w.engine.version := by
    rw [state]
    exact (stands.all i ready.there).1.version_upToDate monitored lines
  have moved : World.Moves Discipline.any w w₁ := (within_instrument i).moves aligned
  have quietly : World.Moves Rule.silent w w₁ := (within_instrument i).moves aligned
  obtain ⟨more, grown, silent⟩ := quietly.history ready.there
  obtain ⟨lt, same_code⟩ := moved.code_eq ready.there
  have inside : offset < (w₁.entry i).state.slots.size := by
    rw [(stands.moves moved).size_eq lt, same_code, ← stands.size_eq ready.there]
    exact ready.inside
  have calm : (w₁.thread t).tracing = 0 := by
    rw [World.thread, threads]
    exact ready.calm
  have quiet : w₁.Quiet := fun k mem => ready.quiet k (callbacks ▸ mem)
  have ready₁ : w₁.Ready t i offset := ⟨quiet, engine ▸ ready.sided, lt, inside, calm⟩
  have never : ∀ c, .answered c ∉ more := fun c mem => (silent c mem).elim fun _ no => no.elim
  unfold arrive
  rw [exec_bind, aligned]
  dsimp only
  rw [exec_slotAt_bind inside]
  split
  · obtain ⟨a, tools, refusal, calls, w₂, ran, event, rfl, h⟩ := exec_fireInstruction ready₁
    obtain ⟨engine₂, ready₂, version₂, -⟩ := h.ready (by rw [event]; rfl) ready₁
    refine ⟨refusal, w₂, calls.reverse.map .answered ++ more, ?_, engine₂.trans engine, ready₂, version₂.trans version, ?_, ?_,
      h.noted⟩
    · rw [exec_bind, ran]
      cases refusal <;> rfl
    · rw [h.history, grown, List.append_assoc]
    · intro c mem
      rcases List.mem_append.1 mem with called | earlier
      · obtain ⟨c', mem', same⟩ := List.mem_map.1 called
        obtain rfl := Happening.answered.inj same
        have each := h.each c' (List.mem_reverse.1 mem')
        exact ⟨each.layer, each.event.trans event⟩
      · exact absurd earlier (never c)
  · exact ⟨none, w₁, more, rfl, engine, ready₁, version, grown, fun c mem => absurd mem (never c),
      fun none_there => absurd rfl none_there⟩

/-- Where there is a line to report, all tools of the slot are told, and then the opcode's turn comes. -/
theorem exec_fireLine_eq (calm : (w.thread t).tracing = 0) (reports : lineToReport (w.entry i) offset prev = some line)
    (data : (w.entry i).state.data = some d) : exec (fireLine t i offset prev) w =
      exec (do
        deliver t .line offset (w.lineReport i offset line)
          (CodeState.overlayTools d d.lineTools w.engine.globals offset .line).tools
        return (← slotAt i offset).runs) w := by
  unfold fireLine
  rw [exec_bind, exec_get]
  dsimp only
  rw [if_pos calm, reports, data]
  rfl

theorem exec_fireLine (ready : w.Ready t i offset) {d : MonitoringData}
    (reports : lineToReport (w.entry i) offset prev = some line) (data : (w.entry i).state.data = some d) :
    ∃ refusal calls w' op, exec (fireLine t i offset prev) w = (outcome op refusal, w') ∧
      Delivers w w' .line offset (w.lineReport i offset line)
        (CodeState.overlayTools d d.lineTools w.engine.globals offset .line).tools refusal calls := by
  have direct : ∀ tool c, w.engine.callable tool (w.lineReport i offset line).event = some c → c.isBranch = false :=
    ready.sided.direct (by rintro (_ | _) <;> simp [World.lineReport, Event.direction])
  obtain ⟨calls, refusal, w', ran, h⟩ := exec_deliver t .line
    (CodeState.overlayTools d d.lineTools w.engine.globals offset .line).tools ready.quiet direct ready.there ready.inside
  obtain ⟨-, ready', -, -⟩ := h.ready rfl ready
  refine ⟨refusal, calls, w', ((w'.entry i).state.slot offset).runs, ?_, h⟩
  rw [exec_fireLine_eq ready.calm reports data, exec_bind, ran]
  cases refusal with
  | none => exact exec_slotAt_bind ready'.inside _
  | some why => rfl

/-- The second half, where control enters another line: `LINE` goes to all tools that have it enabled, and only then is it the
opcode's turn. -/
theorem exec_proceed (stands : w.Stands) (taken) (ready : w.Ready t i q)
    (monitored : (w.entry i).code.noMonitoring = false) (near : (w.entry i).code.Near)
    (enters : (w.entry i).code.EntersLine p q line) (current : (w.entry i).state.version = w.engine.version)
    (undisturbed : Undisturbed (w.entry i).state.history) :
    ∃ refusal calls w', Delivers w w' .line q (w.lineReport i q line) ((w.entry i).state.enabled w.engine .line).tools refusal
        calls ∧
      (refusal = none → exec (proceed t i q (some p) taken) w = exec (fireOpcode t i q (some p) taken) w') ∧
      (refusal ≠ none → (exec (proceed t i q (some p) taken) w).2 = w') := by
  obtain ⟨sound, full⟩ := stands.all i ready.there
  have lines := LineTable.isSome_build near
  obtain ⟨table, built⟩ := Option.isSome_iff_exists.1 lines
  have starts := LineTable.startsLine_of_entersLine near built sound.grid enters
  have event : (w.entry i).code.eventAt .line q = some .line := by
    simp [Code.eventAt, enters.arrives.mem, built, starts]
  have same := sound.step.active monitored current (fun _ => lines) .line rfl
  have tools := full.stepTools_eq undisturbed event same
  unfold proceed
  rw [exec_slotAt_bind ready.inside]
  cases armed : ((w.entry i).state.slot q).line with
  | false =>
    have none_enabled : (w.entry i).state.enabled w.engine .line = 0 := by
      rw [← tools, CodeState.stepTools, if_neg (by simp [Layer.armed, armed])]
    rw [none_enabled]
    exact ⟨none, [], w, .nil ready.quiet, fun _ => rfl, fun none_there => absurd rfl none_there⟩
  | true =>
    obtain ⟨d, kept, data, lines_d, kept_eq, -⟩ := sound.line_table armed
    obtain rfl := Option.some.inj (built.symm.trans kept_eq)
    have reports : lineToReport (w.entry i) q (some p) = some line := by
      have entered := LineTable.line_of_entersLine near built sound.grid enters
      have left := LineTable.line_ne_of_entersLine built sound.grid enters
      simp [lineToReport, data, lines_d, entered, left]
    obtain ⟨refusal, calls, w', op, ran, h⟩ := exec_fireLine ready reports data
    have overlay : CodeState.overlayTools d d.lineTools w.engine.globals q .line = (w.entry i).state.enabled w.engine .line := by
      have on : Layer.line.armed ((w.entry i).state.slot q) = true := armed
      rw [← tools, CodeState.stepTools, if_pos on]
      simp [CodeState.overlayCalls, data, Layer.table]
    rw [overlay] at h
    refine ⟨refusal, calls, w', h, ?_, ?_⟩
    · rintro rfl
      rw [if_pos rfl, exec_bind, ran]
      rfl
    · intro refused
      rw [if_pos rfl, exec_bind, ran]
      cases refusal with
      | none => exact absurd rfl refused
      | some why => rfl

end Act

/-! ## Steps -/

/-- Code objects take note of answers to anything but `LINE`. -/
def Rule.lineless : Rule := ⟨fun _ _ c => c.args.event ≠ .line⟩

theorem Opcode.event?_ne_line {op : Opcode} (event : op.event? oparg = some e) : e ≠ .line := by
  rintro rfl
  unfold event? at event
  split at event
  case h_1 => split at event <;> cases event
  all_goals cases event

theorem Act.within_fireOpcode_lineless (t i offset prev taken) :
    Within Rule.lineless w (fireOpcode t i offset prev taken) := by
  refine (within_slotAt i offset).bind fun slot w' found => ?_
  split
  · refine .get ?_
    split
    · next event reported payload is_event =>
      have fires : Within Rule.lineless w' (fireFrom t event i offset reported payload) := by
        refine .get ?_
        split
        · exact within_pure _
        · refine (does_deliver_rule fun _ _ _ c _ _ same => ?_).within
          have other : c.args.event ≠ .line := by
            rw [same]
            exact Opcode.event?_ne_line (event_of_opcodeEvent is_event)
          exact other
      exact fires.bind fun _ _ _ => within_pure _
    · exact within_pure _
  · exact within_pure _

/-- No line change is missed. After any history, on a thread that runs no callback, a step along an edge into another line
delivers `LINE` once to each tool that has it enabled on the code object, now up to date, and has a callback for it, and this
before it fires the opcode's own event; nothing else it delivers is a `LINE`. No line has been disabled so far, and no tool that
is called ahead of the opcode's event stops the step. -/
theorem Act.line_change_delivered {v w : World} (reached : v.Reached fun _ => true) (engine : w.engine = v.engine)
    (codes : w.codes = v.codes) (quiet : w.Quiet) {t i p q : Nat} {line : UInt32} {taken : Bool}
    (monitored : (w.entry i).code.noMonitoring = false) (near : (w.entry i).code.Near)
    (enters : (w.entry i).code.EntersLine p q line) (calm : (w.thread t).tracing = 0)
    (undisturbed : Undisturbed (w.entry i).state.history)
    (goesOn : ∀ c, .answered c ∈ ((exec (step t i q (some p) taken) w).2.entry i).state.history → c.layer ≠ .opcode →
      c.refusal? = none) :
    ∃ w₁ w₂ lines before after, exec (arrive t i q) w = (.ok (), w₁) ∧
      Delivers w₁ w₂ .line q (w.lineReport i q line) ((w₁.entry i).state.enabled w.engine .line).tools none lines ∧
      exec (step t i q (some p) taken) w = exec (fireOpcode t i q (some p) taken) w₂ ∧
      (∀ u, ((w₁.entry i).state.enabled w.engine .line).has u = true → (w.engine.callable u .line).isSome = true →
        (lines.map (·.args.tool)).count u = 1) ∧
      (w₁.entry i).state.history = before ++ (w.entry i).state.history ∧
      (∀ c, .answered c ∈ before → c.args.event ≠ .line) ∧
      ((exec (step t i q (some p) taken) w).2.entry i).state.history = after ++ (w₂.entry i).state.history ∧
      ∀ c, .answered c ∈ after → c.args.event ≠ .line := by
  have stands := World.Stands.of_reached reached engine codes
  have inside := Code.lt_of_mem_offsetsFrom enters.arrives.mem
  have there := World.lt_of_inside inside
  have ready : w.Ready t i q := ⟨quiet, stands.sided, there, by rwa [stands.size_eq there], calm⟩
  obtain ⟨refusal, w₁, before, arrived, engine₁, ready₁, current, history₁, instructions, refused⟩ :=
    exec_arrive stands ready monitored (LineTable.isSome_build near)
  have run := exec_bind (arrive t i q) (fun _ => proceed t i q (some p) taken) w
  rw [← step_eq, arrived] at run
  cases refusal with
  | some why =>
    obtain ⟨c, mem, layer, asks⟩ := refused (by simp)
    rw [run] at goesOn
    exact absurd (goesOn c mem (by rw [layer]; decide)) asks
  | none =>
    have run : exec (step t i q (some p) taken) w = exec (proceed t i q (some p) taken) w₁ := run
    have moved : World.Moves Discipline.any w w₁ := (Discipline.any.conduct.arrive trivial t i q).moves arrived
    have same_code := (moved.code_eq there).2
    rw [← same_code] at monitored near enters
    rw [run] at goesOn
    have undisturbed : Undisturbed (w₁.entry i).state.history := by
      intro c mem layer
      rw [history₁] at mem
      rcases List.mem_append.1 mem with now | earlier
      · rw [(instructions c now).1] at layer
        cases layer
      · exact undisturbed c earlier layer
    obtain ⟨refusal, lines, w₂, h, passes, ends⟩ :=
      exec_proceed (stands.moves moved) taken ready₁ monitored near enters (by rw [engine₁]; exact current) undisturbed
    cases refusal with
    | some why =>
      obtain ⟨c, mem, layer, asks⟩ := h.noted (by simp)
      rw [ends (by simp)] at goesOn
      exact absurd (goesOn c mem (by rw [layer]; decide)) asks
    | none =>
      have run := run.trans (passes rfl)
      have opcodes : World.Moves Rule.lineless w₂ (exec (fireOpcode t i q (some p) taken) w₂).2 :=
        within_fireOpcode_lineless ..
      obtain ⟨after, grown, others⟩ := opcodes.history (h.listens.size ▸ ready₁.there)
      have report : w₁.lineReport i q line = w.lineReport i q line := by simp only [World.lineReport, same_code]
      rw [report, engine₁] at h
      refine ⟨w₁, w₂, lines, before, after, arrived, h, run, fun u enabled registered => ?_, history₁, fun c mem => ?_,
        by rw [run, grown], fun c mem => (others c mem).elim fun _ other => other⟩
      · have called := h.complete rfl
        rw [engine₁] at called
        rw [called]
        refine List.count_eq_one_of_mem (List.Nodup.filter _ (ToolMask.nodup_tools _)) ?_
        exact List.mem_filter.2 ⟨ToolMask.mem_tools.2 enabled, registered⟩
      · rw [(instructions c mem).2]
        decide

/-- No answer of an overlay, or one to go on. -/
def Happening.goesOn : Happening → Bool
  | .aligned _ => true
  | .answered c => c.layer == .opcode || c.verdict == .proceed

/-- A loop that one tool watches with all other code, down to its instructions, and another one alone. It has run once. -/
def loopWatched : World :=
  World.after
    [{ firstLine := some 1
       steps := [.emit .resume (.literal 0), .line (.literal 2), .mark "top", .emit .nop (.literal 0), .line (.literal 3),
        .emit .nop (.literal 0), .jumpBack .jumpBackward (.mark "top")] }]
    [.scripted [] [] 0, .recorder {}] .error
    [.control (.useTool 0 "first"), .control (.useTool 1 "second"),
      .control (.register 0 (EventSet.single .line) (some 0)), .control (.register 1 (EventSet.single .line) (some 1)),
      .control (.register 0 (EventSet.single .instruction) (some 0)), .control (.register 0 (EventSet.single .jump) (some 0)),
      .control (.setEvents 0 (EventSet.single .line ||| EventSet.single .instruction ||| EventSet.single .jump)),
      .control (.setLocal 0 1 (EventSet.single .line)), .thread 0 (.run 0 (some [(0, false), (1, false), (2, false), (3, true)]))]

/-- The jump back is to another line, which both tools are told. -/
theorem line_change_delivered_loop : ∃ w₁ w₂ lines, Act.exec (Act.arrive 0 0 1) loopWatched = (.ok (), w₁) ∧
    Act.Delivers w₁ w₂ .line 1 (loopWatched.lineReport 0 1 2) [1, 0] none lines ∧ lines.map (·.args.tool) = [1, 0] ∧
    Act.exec (Act.step 0 0 1 (some 3) false) loopWatched = Act.exec (Act.fireOpcode 0 0 1 (some 3) false) w₂ := by
  have reached : loopWatched.Reached fun _ => true := ⟨_, _, _, _, by decide, rfl⟩
  have quiet : loopWatched.Quiet := by
    unfold World.Quiet
    decide +kernel
  have monitored : (loopWatched.entry 0).code.noMonitoring = false := by decide +kernel
  have near : (loopWatched.entry 0).code.Near := by
    have all : ((loopWatched.entry 0).code.offsetsFrom 0).all (fun i => ((loopWatched.entry 0).code.line i).all fun line =>
        decide (line.toNat ≤ (loopWatched.entry 0).code.firstLine.toNat + (0x80000000 - 3))) = true := by decide +kernel
    intro i mem line known
    have fine := List.all_eq_true.1 all i mem
    rw [known] at fine
    simpa using fine
  have enters : (loopWatched.entry 0).code.EntersLine 3 1 2 :=
    ⟨.jump (by decide +kernel), ⟨by decide +kernel, by decide +kernel, by decide +kernel⟩,
      ⟨by decide +kernel, by decide +kernel, by decide +kernel⟩, by decide +kernel, by decide +kernel, by decide +kernel⟩
  have calm : (loopWatched.thread 0).tracing = 0 := by decide +kernel
  have undisturbed : Undisturbed (loopWatched.entry 0).state.history := by
    have all : (loopWatched.entry 0).state.history.all Happening.goesOn = true := by decide +kernel
    intro c mem layer
    have fine := List.all_eq_true.1 all _ mem
    have proceeds : c.verdict = .proceed := by simpa [Happening.goesOn, layer] using fine
    simp [Call.disables, proceeds]
  have goesOn : ∀ c, .answered c ∈ ((Act.exec (Act.step 0 0 1 (some 3) false) loopWatched).2.entry 0).state.history →
      c.layer ≠ .opcode → c.refusal? = none := by
    have all : ((Act.exec (Act.step 0 0 1 (some 3) false) loopWatched).2.entry 0).state.history.all Happening.goesOn = true := by
      decide +kernel
    intro c mem overlay
    have fine := List.all_eq_true.1 all _ mem
    have proceeds : c.verdict = .proceed := by simpa [Happening.goesOn, overlay] using fine
    simp [Call.refusal?, proceeds]
  obtain ⟨w₁, w₂, lines, before, after, arrived, delivers, run, -⟩ :=
    Act.line_change_delivered reached rfl rfl quiet monitored near enters calm undisturbed goesOn
  have same : (Act.exec (Act.arrive 0 0 1) loopWatched).2 = w₁ := by rw [arrived]
  have enabled : ((w₁.entry 0).state.enabled loopWatched.engine .line).tools = [1, 0] := by
    rw [← same]
    decide +kernel
  rw [enabled] at delivers
  refine ⟨w₁, w₂, lines, arrived, delivers, ?_, run⟩
  rw [delivers.complete rfl, ← same]
  decide +kernel

end MonitoredVm
