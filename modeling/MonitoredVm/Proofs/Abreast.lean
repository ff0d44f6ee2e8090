import MonitoredVm.Proofs.Thinning
import MonitoredVm.Proofs.Versions

/-!
# Coverage abreast of a recorder

The same operations on two worlds that differ in the one callback there is: coverage in the first, which gives up each
place it has seen, and a recorder in the second, which gives up none. The first world reports nowhere but where the
second does, and a place that only the second reports has nothing to tell that coverage lacks. Calls and control
operations keep the worlds so.
-/

namespace MonitoredVm

/-! Operations side by side -/

namespace Act
variable {α β γ δ : Type} {R R' : World → World → Prop} {w v : World}

/-- Two operations both go through or both abort, and leave related worlds. -/
def Along (R : World → World → Prop) (w v : World) (x : Act α) (y : Act β) : Prop :=
  (exec x w).1.isOk = (exec y v).1.isOk ∧ R (exec x w).2 (exec y v).2

/-- Done in both worlds, the operation leaves them related. -/
def Keeps (R : World → World → Prop) (x : Act α) : Prop := ∀ {w v}, R w v → Along R w v x x

theorem along_pure (h : R w v) (a : α) (b : β) : Along R w v (pure a) (pure b) := ⟨rfl, h⟩

theorem along_modify (h : R (f w) (g v)) : Along R w v (modify f) (modify g) := ⟨rfl, h⟩

theorem Along.mono (h : Along R w v x y) (weaker : ∀ w v, R w v → R' w v) : Along R' w v x y :=
  ⟨h.1, weaker _ _ h.2⟩

theorem Along.bind (first : Along R w v x y) (rest : ∀ a b w' v', R w' v' → Along R w' v' (f a) (g b)) :
    Along R w v (x >>= f) (y >>= g) := by
  unfold Along at first ⊢
  rw [exec_bind, exec_bind]
  rcases ran : exec x w with ⟨why | a, w'⟩ <;> rcases ran' : exec y v with ⟨why' | b, v'⟩ <;> rw [ran, ran'] at first
  · exact ⟨rfl, first.2⟩
  · cases first.1
  · cases first.1
  · exact rest a b w' v' first.2

theorem Along.right (first : Along R w v (pure ()) y) (rest : ∀ b v', R w v' → Along R w v' x (g b)) :
    Along R w v x (y >>= g) := by
  unfold Along at first ⊢
  rw [exec_bind y]
  rcases ran : exec y v with ⟨why | b, v'⟩ <;> rw [ran] at first
  · cases first.1
  · exact rest b v' first.2

theorem Along.of_exec (same : exec x w = exec x' w) (same' : exec y v = exec y' v) (h : Along R w v x' y') :
    Along R w v x y := by
  unfold Along
  rw [same, same']
  exact h

theorem Along.get (h : Along R w v (f w) (g v)) : Along R w v (get >>= f) (get >>= g) := h

theorem Along.getRight (h : Along R w v x (g v)) : Along R w v x (MonadState.get >>= g) := h

theorem Along.modify (h : Along R (f w) (g v) (x ⟨⟩) (y ⟨⟩)) : Along R w v (modify f >>= x) (modify g >>= y) := h

theorem Along.accept {f : α → Act γ} {g : α → Act δ} (still : R w v) (h : ∀ a, r = .ok a → Along R w v (f a) (g a)) :
    Along R w v (accept r >>= f) (accept r >>= g) := by
  cases r with
  | error e => exact ⟨rfl, still⟩
  | ok a => exact h a rfl

theorem Along.answered (h : Along R w v x x) (reply : α → Reply) : R (w.answer x reply).1 (v.answer x reply).1 := by
  rw [World.answer_eq, World.answer_eq]
  exact h.2

theorem along_forM {l : List α} {f : α → Act Unit} (h : ∀ a ∈ l, ∀ w v, R w v → Along R w v (f a) (f a)) (w v)
    (still : R w v) : Along R w v (l.forM f) (l.forM f) := by
  induction l generalizing w v with
  | nil => exact along_pure still _ _
  | cons a rest ih =>
    exact (h a (List.mem_cons_self ..) w v still).bind fun _ _ w' v' here =>
      ih (fun b mem => h b (List.mem_cons_of_mem _ mem)) w' v' here

end Act

/-! Calls -/

namespace World

theorem thread_setThread (w : World) (t j th) : (w.setThread t th).thread j = if j = t then th else w.thread j := by
  unfold thread setThread
  by_cases same : j = t
  · rw [if_pos same, same, List.lookup_cons_self]
    rfl
  · have apart : (j == t) = false := beq_eq_false_iff_ne.2 same
    have others : ∀ l : List (Nat × Thread), (l.filter (·.1 != t)).lookup j = l.lookup j := by
      intro l
      induction l with
      | nil => rfl
      | cons x rest ih =>
        obtain ⟨k, y⟩ := x
        by_cases dropped : k = t
        · simp [List.lookup_cons, dropped, apart, ih]
        · simp [List.lookup_cons, dropped, ih]
    simp only [if_neg same, List.lookup_cons, apart, others]

/-- A callback for an event runs on a thread. -/
def marked (w : World) (th : Nat) (event : Event) : World :=
  w.setThread th { w.thread th with tracing := (w.thread th).tracing + 1, current := some event }

/-- A callback was called for a code object, which took note of its answer. -/
structure Hears (w w' : World) (i : Nat) (s : CodeState) (k : Callback) : Prop where
  engine : w'.engine = w.engine
  thread : ∀ j, w'.thread j = w.thread j
  dispatching : w'.dispatching = w.dispatching
  size : w'.codes.size = w.codes.size
  entry : ∀ j, w'.entry j = if j = i ∧ i < w.codes.size then { w.entry i with state := s } else w.entry j
  callbacks : w'.callbacks = #[k]

theorem Hears.refl {w : World} (there : w.callbacks = #[k]) : w.Hears w i (w.entry i).state k := by
  refine ⟨rfl, fun _ => rfl, rfl, rfl, fun j => ?_, there⟩
  split
  next here => rw [here.1]
  next => rfl

end World

/-- Called with an event the callback turns into another and answers. -/
def Callback.Answers (k : Callback) (a : EventArgs) (k' : Callback) (verdict : Verdict) : Prop :=
  ∀ w : World, w.callbacks = #[k] → w.call 0 a = ({ w with callbacks := #[k'] }, verdict)

theorem Callback.answers_coverage (c : Coverage) (a) :
    (Callback.coverage c).Answers a (.coverage (c.take a).1) (c.take a).2 := by
  intro w there
  simp [World.call, there]

theorem Callback.answers_recorder (recorded) (a : EventArgs) :
    (Callback.recorder { events := recorded }).Answers a (.recorder { events := recorded ++ [a.recorded] })
      .proceed := by
  intro w there
  simp [World.call, there, Recorder.take, EventArgs.recorded]

namespace Act
variable {w : World}

/-- A call of a callback that changes nothing but callbacks, deliveries and the log leaves the threads as they were. -/
theorem exec_invoke_direct (th l slot k) (a : EventArgs)
    (answers : (w.marked th a.event).call k a = ({ w.marked th a.event with callbacks, deliveries, log }, verdict)) :
    ∃ w', exec (invoke th l slot (.direct k) a) w =
        (.ok { layer := l, slot, callable := .direct k, args := a, reached := true, verdict }, w') ∧
      w'.engine = w.engine ∧ (∀ j, w'.thread j = w.thread j) ∧ w'.dispatching = w.dispatching ∧ w'.codes = w.codes ∧
      w'.callbacks = callbacks ∧ w'.deliveries = deliveries := by
  have ran : exec (invoke th l slot (.direct k) a) w =
      (.ok { layer := l, slot, callable := .direct k, args := a, reached := true
             verdict := ((w.marked th a.event).call k a).2 },
        ((w.marked th a.event).call k a).1.setThread th { ((w.marked th a.event).call k a).1.thread th with
          tracing := (((w.marked th a.event).call k a).1.thread th).tracing - 1, current := (w.thread th).current }) := rfl
  rw [answers] at ran
  refine ⟨_, ran, rfl, fun j => ?_, rfl, rfl, rfl, rfl⟩
  have during : ∀ j, ({ w.marked th a.event with callbacks, deliveries, log } : World).thread j =
    (w.marked th a.event).thread j := fun j => rfl
  rw [World.thread_setThread, during, during, World.marked, World.thread_setThread, World.thread_setThread, if_pos rfl]
  split
  next here => rw [here]; rfl
  next => rfl

theorem exec_settle (graceful : c.verdict = .proceed ∨
      c.verdict = .disable ∧ c.args.event.isLocal = true ∧ c.slot < (w.entry c.args.code).state.slots.size) :
    ∃ log, exec (settle c) w = (.ok (), { w.modifyState c.args.code fun s =>
      { s.heed (w.entry c.args.code).code c with changes := [] } with log }) := by
  obtain ⟨log, reported⟩ := w.reportChanges_modifyState c.args.code (·.heed (w.entry c.args.code).code c) w.log
  refine ⟨log, ?_⟩
  rw [← reported]
  rcases graceful with proceed | ⟨disable, isLocal, inside⟩
  · simp only [settle, exec_bind, exec_get, changeState, exec_modify, proceed, exec_pure]
    rfl
  · have harmless : removalFaults (w.entry c.args.code).state c.slot c.args.event
        (ToolMask.single c.args.tool) = false := by
      unfold removalFaults
      split
      next => rfl
      next => rw [decide_eq_false (Nat.not_le.2 inside), Bool.false_and]
    simp only [settle, exec_bind, exec_get, changeState, exec_modify, disable, isLocal, harmless]
    rfl

theorem exec_deliver_direct (th l slot) (registered : w.engine.callable t a.event = some (.direct 0))
    (there : w.callbacks = #[k]) (answers : k.Answers { a with tool := t } k' verdict) (graceful : verdict = .proceed ∨
      verdict = .disable ∧ a.event.isLocal = true ∧ slot < (w.entry a.code).state.slots.size) :
    ∃ w' call, exec (deliver th l slot a [t]) w = (.ok (), w') ∧
      call.layer = l ∧ call.slot = slot ∧ call.sibling? (w.entry a.code).code = none ∧
      call.verdict = verdict ∧
      w.Hears w' a.code { (w.entry a.code).state.heed (w.entry a.code).code call with changes := [] } k' := by
  obtain ⟨w₁, invoked, engine, thread, dispatching, codes, callbacks, -⟩ :=
    exec_invoke_direct th l slot 0 { a with tool := t } (answers (w.marked th a.event) there)
  have entry : ∀ j, w₁.entry j = w.entry j := fun j => by simp only [World.entry, codes]
  let call : Call := { layer := l, slot, callable := .direct 0, args := { a with tool := t }, reached := true, verdict }
  have invoked : exec (invoke th l slot (.direct 0) { a with tool := t }) w = (.ok call, w₁) := invoked
  obtain ⟨log, settled⟩ := exec_settle (w := w₁) (c := call) (by simpa only [entry] using graceful)
  rw [entry] at settled
  let heard : CodeState → CodeState := fun s => { s.heed (w.entry a.code).code call with changes := [] }
  have size : (w₁.modifyState a.code heard).codes.size = w.codes.size := by rw [World.size_modifyState, codes]
  have changed := w₁.entry_modifyState a.code (f := heard)
  simp only [entry, codes] at changed
  refine ⟨{ w₁.modifyState a.code heard with log }, call, ?_, rfl, rfl, rfl, rfl, engine, thread, dispatching, size,
    changed, callbacks⟩
  simp only [deliver, exec_bind, exec_get, registered, invoked, settled, exec_pure]
  rfl

end Act

/-! One tool -/

namespace Engine
variable {t : Nat} {e e' : Engine}

/-- Of one tool nothing but the first callback is registered, and not for `BRANCH`. -/
def Direct (t : Nat) (e : Engine) : Prop := ∀ ev k, (e.tool t).callback ev = some k → k = .direct 0

theorem direct_start : Direct t {} := by
  intro ev k there
  rw [tool_start, Tool.callback_blank] at there
  cases there

theorem Direct.of_tools (h : e.Direct t) (same : e'.tools = e.tools) : e'.Direct t := by
  intro ev k there
  rw [tool_congr e' e same] at there
  exact h ev k there

theorem Direct.modifyTool (h : e.Direct t) (kept : ∀ ev k, (f (e.tool t)).callback ev = some k → k = .direct 0) :
    (e.modifyTool t f).Direct t := by
  intro ev k there
  rw [tool_modifyTool] at there
  split at there
  next => exact kept ev k there
  next => exact h ev k there

theorem Direct.useTool (h : e.Direct t) (ok : e.useTool t name = .ok e') : e'.globals = e.globals ∧ e'.Direct t := by
  unfold Engine.useTool at ok
  obtain ⟨_, -, taken⟩ := bind_ok ok
  split at taken
  next =>
    obtain ⟨_, refused, -⟩ := bind_ok taken
    cases refused
  next =>
    cases taken
    exact ⟨rfl, h.modifyTool h⟩

theorem Direct.register (h : e.Direct t) (single : event ≠ .branch)
    (ok : e.register t (EventSet.single event) (some 0) = .ok (e', previous)) :
    e'.globals = e.globals ∧ e'.Direct t := by
  have alone : singleEvent (EventSet.single event) = .ok event := by cases event <;> rfl
  unfold Engine.register at ok
  obtain ⟨_, -, checked⟩ := bind_ok ok
  rw [alone] at checked
  obtain ⟨event', same, registered⟩ := bind_ok checked
  cases same
  split at registered
  next => exact absurd rfl single
  next =>
    obtain rfl := congrArg Prod.fst (Except.ok.inj registered)
    refine ⟨rfl, h.modifyTool fun ev k there => ?_⟩
    rw [Tool.callback_setCallback] at there
    split at there
    next => exact (Option.some.inj there).symm
    next => exact h ev k there

theorem Direct.setEvents (h : e.Direct t) (only : Monitors.Only t e.globals)
    (ok : e.setEvents t asked = .ok (given, some e')) : Monitors.Only t e'.globals ∧ e'.Direct t := by
  obtain ⟨version, -, rfl⟩ := setEvents_ok ok
  exact ⟨only.setEvents given, h.of_tools rfl⟩

end Engine

/-! Two worlds -/

namespace World

/-- One tool watches two worlds, with coverage in the first and a recorder in the second. `prior` tells the predecessors
from which steps come. -/
structure Abreast (t : Nat) (prior : Nat → Nat → Option Nat → Prop) (c : Coverage) (recorded : List RecordedEvent)
    (w v : World) : Prop where
  engine : v.engine = w.engine
  only : Monitors.Only t w.engine.globals
  direct : w.engine.Direct t
  thread : ∀ i, v.thread i = w.thread i
  dispatching : v.dispatching = w.dispatching
  size : v.codes.size = w.codes.size
  code : ∀ i, (v.entry i).code = (w.entry i).code
  held : ∀ i, (v.entry i).held = (w.entry i).held
  tracked : ∀ i, (v.entry i).tracked = (w.entry i).tracked
  closes : ∀ i, i < w.codes.size → ∀ o, (w.entry i).code.Closes (prior i o) o
  state : ∀ i, i < w.codes.size → CodeState.Thinned t (w.entry i).code
    (fun l o => c.Saw (w.entry i).code (prior i o) l o) (w.entry i).state (v.entry i).state
  covering : w.callbacks = #[.coverage c]
  recording : v.callbacks = #[.recorder { events := recorded }]
  holds : c.Holds recorded

namespace Abreast
variable {t : Nat} {prior : Nat → Nat → Option Nat → Prop} {c : Coverage} {recorded : List RecordedEvent} {w v : World}

section
variable (h : Abreast t prior c recorded w v)
include h

theorem trackedCodes_eq : v.trackedCodes = w.trackedCodes := by
  unfold trackedCodes isAlive
  rw [h.size]
  refine List.filter_congr fun i _ => ?_
  rw [h.tracked, h.held, h.dispatching]

theorem entry_of_ge (beyond : w.codes.size ≤ i) : v.entry i = w.entry i := by
  have beyond' : v.codes.size ≤ i := h.size ▸ beyond
  simp [World.entry, beyond, beyond']

theorem data (i) : (v.entry i).state.data = (w.entry i).state.data := by
  by_cases lt : i < w.codes.size
  · exact (h.state i lt).data
  · rw [h.entry_of_ge (Nat.le_of_not_lt lt)]

theorem version (i) : (v.entry i).state.version = (w.entry i).state.version := by
  by_cases lt : i < w.codes.size
  · exact (h.state i lt).version
  · rw [h.entry_of_ge (Nat.le_of_not_lt lt)]

theorem lineToReport_eq (i offset prev) :
    Act.lineToReport (v.entry i) offset prev = Act.lineToReport (w.entry i) offset prev := by
  simp only [Act.lineToReport, h.data, h.code]

theorem toolsAt_eq (globals i offset event) :
    (v.entry i).state.toolsAt globals offset event = (w.entry i).state.toolsAt globals offset event := by
  simp only [CodeState.toolsAt, h.data]

theorem logged (log log' : Log MonitoringNote) :
    Abreast t prior c recorded { w with log } { v with log := log' } := { h with }

theorem governed (only : Monitors.Only t e.globals) (direct : e.Direct t) :
    Abreast t prior c recorded { w with engine := e } { v with engine := e } :=
  { h with engine := rfl, only, direct }

theorem dispatched (dispatching) :
    Abreast t prior c recorded { w with dispatching } { v with dispatching } := { h with dispatching := rfl }

theorem modified (code : (f (w.entry i)).code = (w.entry i).code) (code' : (g (v.entry i)).code = (v.entry i).code)
    (held : (g (v.entry i)).held = (f (w.entry i)).held) (tracked : (g (v.entry i)).tracked = (f (w.entry i)).tracked)
    (state : i < w.codes.size → CodeState.Thinned t (w.entry i).code (fun l o => c.Saw (w.entry i).code (prior i o) l o)
      (f (w.entry i)).state (g (v.entry i)).state) :
    Abreast t prior c recorded (w.modifyEntry i f) (v.modifyEntry i g) where
  engine := h.engine
  only := h.only
  direct := h.direct
  thread := h.thread
  dispatching := h.dispatching
  size := by rw [size_modifyEntry, size_modifyEntry, h.size]
  code j := by
    rw [entry_modifyEntry, entry_modifyEntry, h.size]
    split
    next => rw [code, code', h.code]
    next => exact h.code j
  held j := by
    rw [entry_modifyEntry, entry_modifyEntry, h.size]
    split
    next => exact held
    next => exact h.held j
  tracked j := by
    rw [entry_modifyEntry, entry_modifyEntry, h.size]
    split
    next => exact tracked
    next => exact h.tracked j
  closes j lt o := by
    rw [size_modifyEntry] at lt
    rw [entry_modifyEntry]
    split
    next here =>
      rw [code, here.1]
      exact h.closes i here.2 o
    next => exact h.closes j lt o
  state j lt := by
    rw [size_modifyEntry] at lt
    rw [entry_modifyEntry, entry_modifyEntry, h.size]
    split
    next here =>
      rw [code, here.1]
      exact state here.2
    next => exact h.state j lt
  covering := h.covering
  recording := h.recording
  holds := h.holds

theorem preset (i) (only : i < w.codes.size → own.Only t) (stamps : Vector Nat 8) : Abreast t prior c recorded
      (w.modifyState i fun s => { s with data := some { (w.entry i).state.data.getD {} with own, stamps } })
      (v.modifyState i fun s => { s with data := some { (w.entry i).state.data.getD {} with own, stamps } }) := by
  refine h.modified rfl rfl (h.held i) (h.tracked i) fun lt => ?_
  have set := (h.state i lt).preset (only lt) stamps
  simp only [CodeState.preset, h.data i] at set
  exact set

theorem hears (first : w.Hears w' i s (.coverage c')) (second : v.Hears v' i s' (.recorder { events := recorded' }))
    (holds : c'.Holds recorded') (more : ∀ r, c.Has r → c'.Has r)
    (state : i < w.codes.size → CodeState.Thinned t (w.entry i).code
      (fun l o => c'.Saw (w.entry i).code (prior i o) l o) s s') : Abreast t prior c' recorded' w' v' where
  engine := by rw [first.engine, second.engine, h.engine]
  only := first.engine ▸ h.only
  direct := first.engine ▸ h.direct
  thread j := by rw [first.thread, second.thread, h.thread]
  dispatching := by rw [first.dispatching, second.dispatching, h.dispatching]
  size := by rw [first.size, second.size, h.size]
  code j := by
    rw [first.entry, second.entry, h.size]
    split
    next => exact h.code i
    next => exact h.code j
  held j := by
    rw [first.entry, second.entry, h.size]
    split
    next => exact h.held i
    next => exact h.held j
  tracked j := by
    rw [first.entry, second.entry, h.size]
    split
    next => exact h.tracked i
    next => exact h.tracked j
  closes j lt o := by
    rw [first.size] at lt
    rw [first.entry]
    split
    next here => exact here.1 ▸ h.closes i here.2 o
    next => exact h.closes j lt o
  state j lt := by
    rw [first.size] at lt
    rw [first.entry, second.entry, h.size]
    split
    next here => exact here.1 ▸ state here.2
    next => exact (h.state j lt).mono fun l o saw a tells => more _ (saw a tells)
  covering := first.callbacks
  recording := second.callbacks
  holds := holds

end

end Abreast

/-- The two worlds are abreast, whatever was covered and recorded. -/
def Together (t : Nat) (prior : Nat → Nat → Option Nat → Prop) (w v : World) : Prop :=
  ∃ c recorded, Abreast t prior c recorded w v

end World

namespace Act
variable {t : Nat} {prior : Nat → Nat → Option Nat → Prop} {c : Coverage} {recorded : List RecordedEvent}

theorem along_force (i) : Keeps (World.Abreast t prior c recorded) (force i) := by
  intro w v h
  obtain ⟨changes, log, ran⟩ := exec_force i w
  obtain ⟨changes', log', ran'⟩ := exec_force i v
  rw [h.engine, h.code] at ran'
  unfold Along
  rw [ran, ran']
  refine ⟨?_, World.Abreast.logged (h.modified rfl rfl (h.held i) (h.tracked i) fun lt => ?_) log log'⟩
  · by_cases lt : i < w.codes.size
    · rw [((h.state i lt).force_outcome w.engine).1]
    · rw [h.entry_of_ge (Nat.le_of_not_lt lt)]
  · exact ((h.state i lt).force w.engine h.only).noted _ _ changes changes'

theorem along_forceIfStale (i) : Keeps (World.Abreast t prior c recorded) (forceIfStale i) := by
  intro w v h
  refine .get ?_
  rw [h.engine, h.version i]
  split
  · exact along_force i h
  · exact along_pure h _ _

theorem along_forceAll : Keeps (World.Abreast t prior c recorded) forceAll := by
  intro w v h
  refine .get ?_
  rw [h.trackedCodes_eq]
  exact along_forM (fun i _ w v h => along_forceIfStale i h) w v h

theorem along_track (i) : Keeps (World.Abreast t prior c recorded) (track i) :=
  fun h => along_modify (h.modified rfl rfl (h.held i) rfl (h.state i))

theorem along_instrument (i) : Keeps (World.Abreast t prior c recorded) (instrument i) := by
  intro w v h
  refine .get ?_
  rw [h.engine, h.version i]
  split
  · exact (along_track i h).bind fun _ _ _ _ h => along_force i h
  · exact along_pure h _ _

theorem along_setEngine (only : Monitors.Only t e.globals) (direct : e.Direct t) : Keeps (World.Abreast t prior c recorded) (setEngine e) :=
  fun h => along_modify (h.governed only direct)

theorem along_note (level n) : Keeps (World.Abreast t prior c recorded) (modify (·.note level n)) :=
  fun h => along_modify (h.logged _ _)

theorem along_govern (only : Monitors.Only t e.globals) (direct : e.Direct t) (n) :
    Keeps (World.Abreast t prior c recorded) (do setEngine e; modify (·.note .debug n); forceAll) := by
  intro w v h
  refine (along_setEngine only direct h).bind fun _ _ _ _ h => ?_
  exact (along_note .debug n h).bind fun _ _ _ _ h => along_forceAll h

theorem along_useTool (name) : Keeps (World.Abreast t prior c recorded) (useTool t name) := by
  intro w v h
  refine .get ?_
  rw [h.engine]
  refine .accept h fun e ok => ?_
  obtain ⟨globals, direct⟩ := h.direct.useTool ok
  exact along_setEngine (globals ▸ h.only) direct h

theorem along_setEvents (events) : Keeps (World.Abreast t prior c recorded) (setEvents t events) := by
  intro w v h
  refine .get ?_
  rw [h.engine]
  refine .accept h fun r ok => ?_
  obtain ⟨given, _ | e⟩ := r
  · exact along_pure h _ _
  · obtain ⟨only, direct⟩ := h.direct.setEvents h.only ok
    exact along_govern only direct _ h

theorem along_register (single : event ≠ .branch) :
    Keeps (World.Abreast t prior c recorded) (register t (EventSet.single event) (some 0)) := by
  intro w v h
  refine .get ?_
  rw [h.engine]
  refine .accept h fun r ok => ?_
  obtain ⟨e, previous⟩ := r
  obtain ⟨globals, direct⟩ := h.direct.register single ok
  exact (along_setEngine (globals ▸ h.only) direct h).bind fun _ _ _ _ h => along_pure h _ _

theorem along_install (name) (single : events.has .branch = false) : Keeps (World.Abreast t prior c recorded) (install t name events 0) := by
  intro w v h
  refine (along_useTool name h).bind fun _ _ w v h => ?_
  refine (along_forM (fun event mem w v h => ?_) w v h).bind fun _ _ _ _ h => along_setEvents events h
  refine (along_register (fun branch => ?_) h).bind fun _ _ _ _ h => along_pure h _ _
  have there := (List.mem_filter.1 mem).2
  rw [branch, single] at there
  cases there

theorem along_setLocal (i events) : Keeps (World.Abreast t prior c recorded) (setLocal i t events) := by
  intro w v h
  refine .get ?_
  dsimp only
  rw [h.engine, h.code]
  refine .accept h fun given _ => ?_
  have tracked := h.modified (i := i) (f := fun e => { e with tracked := true })
    (g := fun e => { e with tracked := true }) rfl rfl (h.held i) rfl (h.state i)
  have same : (w.entry i).state.data = ((w.modifyEntry i fun e => { e with tracked := true }).entry i).state.data := by
    rw [World.entry_modifyEntry]
    split <;> rfl
  refine .modify ?_
  rw [h.data i, same]
  split
  · exact along_modify (tracked.preset i (fun lt => (tracked.state i lt).lone.own) _)
  · refine .modify ((along_note _ _ (tracked.preset i (fun lt => ?_) _)).bind fun _ _ _ _ h => along_force i h)
    exact (tracked.state i lt).lone.own.setEvents given

end Act
end MonitoredVm
