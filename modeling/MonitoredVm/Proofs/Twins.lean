import Mathlib.Data.List.Forall2
import MonitoredVm.Proofs.Hearing
import MonitoredVm.Proofs.Versions

/-!
# Twin worlds

Two worlds that differ in one tool alone: what the first has registered for `BRANCH`, with one callback for both
directions, the second may have registered for each direction by itself. Whatever changes tools, events or code objects
changes both worlds alike, and is answered alike; the tool's callbacks are not looked at, except to be called.

Main statements: control operations and callbacks lead from twins to twins (`World.Twin.control`, `World.Twin.call`).
-/

namespace MonitoredVm

/-! ## Engines -/

/-- What a tool has registered for an event in two worlds. It is the same or, in case of the tool that differs, a
direction of a callback for `BRANCH` in the first and that callback in the second. -/
inductive Callable.Twin (own : Prop) (event : Event) : Option Callable → Option Callable → Prop
  | same (c : Option Callable) : Twin own event c c
  | plain (k : Nat) (right : Bool) : own → event = Event.direction right →
    Twin own event (some (.branch k right)) (some (.direct k))

section Callable
variable {own : Prop} {event : Event} {c c' : Option Callable}

theorem Callable.Twin.isSome_eq (h : Twin own event c c') : c'.isSome = c.isSome := by cases h <;> rfl

theorem Callable.Twin.callback_eq (h : Twin own event c c') : c'.map Callable.callback = c.map Callable.callback := by
  cases h <;> rfl

end Callable

structure Tool.Twin (own : Prop) (x y : Tool) : Prop where
  name : y.name = x.name
  stamp : y.stamp = x.stamp
  callback : ∀ event, Callable.Twin own event (x.callback event) (y.callback event)

namespace Tool.Twin
variable {own : Prop} {x y : Tool}

theorem refl (x) : Twin own x x := ⟨rfl, rfl, fun _ => .same _⟩

theorem map_callbacks (h : Twin own x y) (f : Bool → α) :
    y.callbacks.toList.map (fun c => f c.isSome) = x.callbacks.toList.map fun c => f c.isSome := by
  have named : ∀ j < 19, ∃ event : Event, event.id = j := by
    intro j lt
    have known : ∀ j < 19, (Event.ofId? j).any (·.id == j) = true := by decide
    obtain ⟨event, -, same⟩ := (Option.any_eq_true _ _).1 (known j lt)
    exact ⟨event, beq_iff_eq.1 same⟩
  refine List.ext_getElem (by simp) fun j lt _ => ?_
  have inside : j < 19 := by simpa using lt
  obtain ⟨event, rfl⟩ := named j inside
  have same := congrArg f (h.callback event).isSome_eq
  simpa [Tool.callback, inside] using same

theorem setCallback (h : Twin own x y) (set : Callable.Twin own event c c') :
    Twin own (x.setCallback event c) (y.setCallback event c') := by
  refine ⟨h.name, h.stamp, fun ev => ?_⟩
  rw [callback_setCallback, callback_setCallback]
  split
  next same => exact same ▸ set
  next => exact h.callback ev

end Tool.Twin

/-- Two computations fail alike, or go through with related results. -/
inductive Concur {ε α β : Type} (Q : α → β → Prop) : Except ε α → Except ε β → Prop
  | error (why : ε) : Concur Q (.error why) (.error why)
  | ok {a b} : Q a b → Concur Q (.ok a) (.ok b)

namespace Concur
variable {ε α β γ δ : Type} {Q : α → β → Prop} {Q' : γ → δ → Prop}

theorem of_eq (same : y = x) : Concur Eq x y := by
  rw [same]
  cases x with
  | error why => exact .error why
  | ok a => exact .ok rfl

theorem eq (h : Concur Eq x y) : y = x := by
  cases h with
  | error => rfl
  | ok same => rw [same]

theorem after (x : Except ε α) (rest : ∀ a, Concur Q' (f a) (g a)) : Concur Q' (x >>= f) (x >>= g) := by
  cases x with
  | error why => exact .error why
  | ok a => exact rest a

end Concur

namespace Engine

/-- Engines that differ in what one tool has registered. -/
structure Twin (t : Nat) (e e' : Engine) : Prop where
  globals : e'.globals = e.globals
  version : e'.version = e.version
  lastRestart : e'.lastRestart = e.lastRestart
  tool : ∀ u, Tool.Twin (u = t) (e.tool u) (e'.tool u)

namespace Twin
variable {t : Nat} {e e' : Engine}

theorem refl (e) : Twin t e e := ⟨rfl, rfl, rfl, fun _ => .refl _⟩

section
variable (h : Twin t e e')
include h

theorem modifyTool (u) (kept : ∀ {own x y}, Tool.Twin own x y → Tool.Twin own (f x) (f y)) :
    Twin t (e.modifyTool u f) (e'.modifyTool u f) := by
  refine ⟨h.globals, h.version, h.lastRestart, fun i => ?_⟩
  rw [tool_modifyTool, tool_modifyTool]
  split
  next here =>
    rw [here.1]
    exact kept (h.tool u)
  next => exact h.tool i

theorem governed (tools : e₁.tools = e.tools) (tools' : e₁'.tools = e'.tools) (globals : e₁'.globals = e₁.globals)
    (version : e₁'.version = e₁.version) (lastRestart : e₁'.lastRestart = e₁.lastRestart) : Twin t e₁ e₁' := by
  refine ⟨globals, version, lastRestart, fun u => ?_⟩
  rw [tool_congr e₁ e tools, tool_congr e₁' e' tools']
  exact h.tool u

theorem stamps_eq : e'.stamps = e.stamps := by
  ext i lt
  have same := (h.tool i).stamp
  rw [stamp_tool, stamp_tool] at same
  simpa [lt] using same

theorem force_eq (code s) : e'.force code s = e.force code s := by
  unfold force
  rw [h.globals, h.stamps_eq, h.version, h.lastRestart]

theorem checkInUse_eq (u) : e'.checkInUse u = e.checkInUse u := by
  rw [checkInUse, checkInUse, (h.tool u).name]

theorem toolName_eq (u) : e'.toolName u = e.toolName u := by
  rw [toolName, toolName, (h.tool u).name]

theorem events_eq (u) : e'.events u = e.events u := by
  rw [events, events, h.globals]

theorem checkLocalEvents_eq (code u events) :
    e'.checkLocalEvents code u events = e.checkLocalEvents code u events := by
  unfold checkLocalEvents
  rw [h.checkInUse_eq]

theorem allEvents_eq : e'.allEvents = e.allEvents := by
  rw [allEvents, allEvents, h.globals]

theorem map_tools (alike : ∀ {own x y}, Tool.Twin own x y → f y = f x) :
    e'.tools.toList.map f = e.tools.toList.map f := by
  refine List.ext_getElem (by simp) fun i lt _ => ?_
  have inside : i < 8 := by simpa using lt
  have same := alike (h.tool i)
  simpa [Engine.tool, inside] using same

theorem describe_eq : e'.describe = e.describe := by
  unfold describe
  dsimp only
  rw [h.globals, h.version, h.lastRestart, h.map_tools, h.map_tools, h.map_tools]
  · intro _ x y twin
    rw [twin.stamp]
  · intro _ x y twin
    rw [twin.name]
  · intro _ x y twin
    exact congrArg listed (twin.map_callbacks fun some => if some then "Some(<callback>)" else "None")

theorem useTool (u name) : Concur (Twin t) (e.useTool u name) (e'.useTool u name) := by
  unfold Engine.useTool
  rw [(h.tool u).name]
  refine .after _ fun _ => ?_
  split
  · exact .error _
  · exact .ok (h.modifyTool u fun twin => ⟨rfl, twin.stamp, twin.callback⟩)

theorem clearTool (u) : Concur (Twin t) (e.clearTool u) (e'.clearTool u) := by
  unfold Engine.clearTool
  have cleared : ∀ v₀, Concur (Twin t)
      (do
        let version ← succVersion v₀
        return { e.modifyTool u fun tool => { name := tool.name, stamp := version } with
          globals := e.globals.setEvents u 0, version })
      (do
        let version ← succVersion v₀
        return { e'.modifyTool u fun tool => { name := tool.name, stamp := version } with
          globals := e'.globals.setEvents u 0, version }) := by
    intro v₀
    refine .after _ fun v => .ok ?_
    have blank := h.modifyTool u (f := fun tool => { name := tool.name, stamp := v }) fun twin =>
      ⟨twin.name, rfl, fun _ => .same _⟩
    exact blank.governed rfl rfl (congrArg (Monitors.setEvents · u 0) h.globals) rfl h.lastRestart
  dsimp only
  rw [h.globals, h.version]
  split
  · exact cleared _
  · exact .after _ cleared

theorem restart : Concur (Twin t) e.restart e'.restart := by
  unfold Engine.restart
  rw [h.version]
  exact .after _ fun v₀ => .after _ fun v => .ok (h.governed rfl rfl h.globals rfl rfl)

theorem setEvents (u events) :
    Concur (fun x y => y.1 = x.1 ∧ Option.Rel (Twin t) x.2 y.2) (e.setEvents u events) (e'.setEvents u events) := by
  unfold Engine.setEvents
  rw [h.checkInUse_eq, h.globals, h.version]
  refine .after _ fun _ => ?_
  split
  · exact .error _
  · refine .after _ fun given => .after _ fun _ => ?_
    split
    · exact .ok ⟨rfl, .none⟩
    · exact .after _ fun v => .ok ⟨rfl, .some (h.governed rfl rfl rfl rfl h.lastRestart)⟩

theorem register (u events callback) :
    Concur (fun x y => Twin t x.1 y.1 ∧ y.2 = x.2) (e.register u events callback) (e'.register u events callback) := by
  unfold Engine.register
  refine .after _ fun _ => .after _ fun event => ?_
  split
  · refine .ok ⟨?_, ((h.tool u).callback .branchLeft).callback_eq⟩
    exact h.modifyTool u fun twin => (twin.setCallback (.same _)).setCallback (.same _)
  · refine .ok ⟨?_, ((h.tool u).callback event).callback_eq⟩
    exact h.modifyTool u fun twin => twin.setCallback (.same _)

theorem unregister (u event) : Twin t (e.unregister u event) (e'.unregister u event) :=
  h.modifyTool u fun twin => twin.setCallback (.same none)

theorem restartTimes (n) (last : Except MonitoringError Unit) :
    (e'.restartTimes n last).2 = (e.restartTimes n last).2 ∧
      Twin t (e.restartTimes n last).1 (e'.restartTimes n last).1 := by
  induction n generalizing e e' last with
  | zero => exact ⟨rfl, h⟩
  | succ n ih =>
    have once := h.restart
    unfold Engine.restartTimes
    generalize e.restart = r, e'.restart = r' at *
    cases once with
    | error why => exact ⟨rfl, h⟩
    | ok twins => exact ih twins _

end

end Twin
end Engine

/-! ## Code objects -/

/-- What happened in two worlds: the same, but for what was called of the tool that differs. -/
inductive Happening.Twin (t : Nat) : Happening → Happening → Prop
  | same (x : Happening) : Twin t x x
  | plain {c k right} : c.args.tool = t → c.callable = .branch k right →
    Twin t (.answered c) (.answered { c with callable := .direct k })

/-- Two accounts of what happened. -/
abbrev Accounts (t : Nat) : List Happening → List Happening → Prop := List.Forall₂ (Happening.Twin t)

theorem Accounts.extend (accounts : Accounts t h h') (more) : Accounts t (more ++ h) (more ++ h') := by
  induction more with
  | nil => exact accounts
  | cons x more ih => exact .cons (.same x) ih

/-- The same state, after twin histories. -/
def CodeState.Twin (t : Nat) (s s' : CodeState) : Prop := ∃ h, Accounts t s.history h ∧ s' = s.retold h

namespace CodeState
variable {t : Nat} {s s' : CodeState}

theorem Twin.refl (s) : Twin t s s := ⟨s.history, List.forall₂_same.2 fun x _ => .same x, rfl⟩

theorem Twin.equipped (h : Twin t s s') (data) : Twin t { s with data } { s' with data } := by
  obtain ⟨past, accounts, rfl⟩ := h
  exact ⟨past, accounts, rfl⟩

theorem Twin.reported (h : Twin t s s') : Twin t { s with changes := [] } { s' with changes := [] } := by
  obtain ⟨past, accounts, rfl⟩ := h
  exact ⟨past, accounts, rfl⟩

theorem Twin.force {e e' : Engine} (h : Twin t s s') (engine : e.Twin t e') (code) :
    (e'.force code s').2 = (e.force code s).2 ∧ Twin t (e.force code s).1 (e'.force code s').1 := by
  obtain ⟨past, accounts, rfl⟩ := h
  obtain ⟨more, forced, -⟩ := s.force_retold e code
  have history : (e.force code s).1.history = more ++ s.history := congrArg (·.1.history) (forced s.history)
  rw [engine.force_eq, forced]
  exact ⟨rfl, more ++ past, by rw [history]; exact accounts.extend more, rfl⟩

end CodeState

structure CodeEntry.Twin (t : Nat) (x y : CodeEntry) : Prop where
  code : y.code = x.code
  held : y.held = x.held
  tracked : y.tracked = x.tracked
  state : CodeState.Twin t x.state y.state

theorem CodeEntry.Twin.refl (x) : Twin t x x := ⟨rfl, rfl, rfl, .refl _⟩

/-! ## Worlds -/

namespace World

/-- Worlds that differ in what one tool has registered, and in the account of what was called of it. -/
structure Twin (t : Nat) (w v : World) : Prop where
  engine : w.engine.Twin t v.engine
  size : v.codes.size = w.codes.size
  entry : ∀ i, (w.entry i).Twin t (v.entry i)
  callbacks : v.callbacks = w.callbacks
  threads : v.threads = w.threads
  dispatching : v.dispatching = w.dispatching
  deliveries : v.deliveries = w.deliveries
  log : v.log = w.log

namespace Twin
variable {t : Nat} {w v : World}

theorem refl (w) : Twin t w w := ⟨.refl _, rfl, fun _ => .refl _, rfl, rfl, rfl, rfl, rfl⟩

section
variable (h : Twin t w v)
include h

theorem thread_eq (i) : v.thread i = w.thread i := by
  rw [thread, thread, h.threads]

theorem trackedCodes_eq : v.trackedCodes = w.trackedCodes := by
  unfold trackedCodes isAlive
  rw [h.size]
  refine List.filter_congr fun i _ => ?_
  rw [(h.entry i).tracked, (h.entry i).held, h.dispatching]

theorem modifyEntry (changed : (f (w.entry i)).Twin t (g (v.entry i))) :
    Twin t (w.modifyEntry i f) (v.modifyEntry i g) := by
  refine { h with size := by simp [h.size], entry := fun j => ?_ }
  rw [entry_modifyEntry, entry_modifyEntry, h.size]
  split
  next => exact changed
  next => exact h.entry j

theorem modifyState (changed : (f (w.entry i).state).Twin t (g (v.entry i).state)) :
    Twin t (w.modifyState i f) (v.modifyState i g) :=
  h.modifyEntry { h.entry i with state := changed }

theorem note (level n) : Twin t (w.note level n) (v.note level n) :=
  { h with log := congrArg (·.add level n) h.log }

theorem reportChanges (i) : Twin t (w.reportChanges i) (v.reportChanges i) := by
  have changes : (v.entry i).state.changes = (w.entry i).state.changes := by
    obtain ⟨past, -, same⟩ := (h.entry i).state
    rw [same]
    rfl
  have logged : ∀ log : Log MonitoringNote, Twin t { w with log } { v with log } := fun log => { h with log := rfl }
  unfold World.reportChanges
  dsimp only
  rw [changes, h.log]
  exact (logged _).modifyState (h.entry i).state.reported

theorem setThread (i th) : Twin t (w.setThread i th) (v.setThread i th) := by
  refine { h with threads := ?_ }
  rw [World.setThread, World.setThread, h.threads]

theorem addCode (spec) :
    (v.addCode spec).2 = (w.addCode spec).2 ∧ Twin t (w.addCode spec).1 (v.addCode spec).1 := by
  refine ⟨rfl, { h with size := by simp [h.size], entry := fun i => ?_ }⟩
  rw [entry_addCode, entry_addCode, h.size]
  split
  next => exact .refl _
  next => exact h.entry i

theorem dump_eq (i) : v.dump? i = w.dump? i := by
  obtain ⟨past, -, same⟩ := (h.entry i).state
  unfold dump?
  dsimp only
  rw [same, (h.entry i).code, (h.entry i).held]
  rfl

theorem data_eq (i) : (v.entry i).state.data = (w.entry i).state.data := by
  obtain ⟨past, -, same⟩ := (h.entry i).state
  rw [same]
  rfl

theorem version_eq (i) : (v.entry i).state.version = (w.entry i).state.version := by
  obtain ⟨past, -, same⟩ := (h.entry i).state
  rw [same]
  rfl

theorem versions_eq : v.versions = w.versions := by
  rw [versions, versions, h.engine.version, h.engine.lastRestart, h.trackedCodes_eq]

end

end Twin
end World

/-! ## Control operations -/

namespace Act
variable {α β γ δ : Type} {t : Nat} {w v : World}

/-- Operations on twins fail alike or go through with related results, and leave twins. -/
def Beside (t : Nat) (Q : α → β → Prop) (w v : World) (x : Act α) (y : Act β) : Prop :=
  Concur Q (exec x w).1 (exec y v).1 ∧ World.Twin t (exec x w).2 (exec y v).2

section Beside
variable {Q : α → β → Prop} {Q' : γ → δ → Prop}

theorem beside_pure (h : World.Twin t w v) (related : Q a b) : Beside t Q w v (pure a) (pure b) :=
  ⟨.ok related, h⟩

theorem beside_throw (h : World.Twin t w v) (why) : Beside t Q w v (throw why) (throw why) := ⟨.error why, h⟩

theorem beside_modify (h : World.Twin t (f w) (g v)) : Beside t Eq w v (modify f) (modify g) :=
  ⟨.ok rfl, h⟩

theorem Beside.bind (first : Beside t Q w v x y)
    (rest : ∀ a b w' v', Q a b → World.Twin t w' v' → Beside t Q' w' v' (f a) (g b)) :
    Beside t Q' w v (x >>= f) (y >>= g) := by
  unfold Beside at first ⊢
  rw [exec_bind, exec_bind]
  generalize exec x w = ran, exec y v = ran' at first ⊢
  obtain ⟨r, w'⟩ := ran
  obtain ⟨r', v'⟩ := ran'
  obtain ⟨outcome, twins⟩ := first
  cases outcome with
  | error why => exact ⟨.error why, twins⟩
  | ok related => exact rest _ _ w' v' related twins

theorem Beside.get (h : Beside t Q' w v (f w) (g v)) : Beside t Q' w v (get >>= f) (get >>= g) := h

theorem Beside.accept (h : World.Twin t w v) (outcome : Concur Q r r')
    (rest : ∀ a b, Q a b → Beside t Q' w v (f a) (g b)) :
    Beside t Q' w v (Act.accept r >>= f) (Act.accept r' >>= g) := by
  cases outcome with
  | error why => exact ⟨.error _, h⟩
  | ok related => exact rest _ _ related

theorem beside_accept (h : World.Twin t w v) (outcome : Concur Q r r') : Beside t Q w v (accept r) (accept r') := by
  cases outcome with
  | error why => exact ⟨.error _, h⟩
  | ok related => exact ⟨.ok related, h⟩

theorem beside_forM {l : List α} {f : α → Act Unit}
    (each : ∀ a ∈ l, ∀ w v, World.Twin t w v → Beside t Eq w v (f a) (f a)) (w v) (h : World.Twin t w v) :
    Beside t Eq w v (l.forM f) (l.forM f) := by
  induction l generalizing w v with
  | nil => exact beside_pure h rfl
  | cons a rest ih =>
    exact (each a (List.mem_cons_self ..) w v h).bind fun _ _ w' v' _ h' =>
      ih (fun b mem => each b (List.mem_cons_of_mem _ mem)) w' v' h'

end Beside

section
variable (h : World.Twin t w v)
include h

theorem beside_force (i) : Beside t Eq w v (force i) (force i) := by
  obtain ⟨outcome, state⟩ := (h.entry i).state.force h.engine (w.entry i).code
  refine .get ?_
  dsimp only
  rw [(h.entry i).code]
  generalize w.engine.force (w.entry i).code (w.entry i).state = r,
    v.engine.force (w.entry i).code (v.entry i).state = r' at outcome state ⊢
  obtain ⟨s, o⟩ := r
  obtain ⟨s', o'⟩ := r'
  obtain rfl : o' = o := outcome
  have changed := h.modifyState (i := i) (f := fun _ => s) (g := fun _ => s') state
  cases o' with
  | error why => exact ⟨.error why, changed⟩
  | ok restarted =>
    cases restarted with
    | none => exact ⟨.ok rfl, changed⟩
    | some restarted =>
      dsimp only
      rw [changed.engine.version]
      exact ⟨.ok rfl, (changed.note _ _).reportChanges i⟩

theorem beside_forceIfStale (i) : Beside t Eq w v (forceIfStale i) (forceIfStale i) := by
  refine .get ?_
  rw [h.engine.version, h.version_eq]
  split
  · exact beside_force h i
  · exact beside_pure h rfl

theorem beside_forceAll : Beside t Eq w v forceAll forceAll := by
  refine .get ?_
  rw [h.trackedCodes_eq]
  exact beside_forM (fun i _ w v h => beside_forceIfStale h i) w v h

theorem beside_track (i) : Beside t Eq w v (track i) (track i) :=
  beside_modify (h.modifyEntry { h.entry i with tracked := rfl })

theorem beside_instrument (i) : Beside t Eq w v (instrument i) (instrument i) := by
  refine .get ?_
  rw [h.engine.version, h.version_eq]
  split
  · exact (beside_track h i).bind fun _ _ _ _ _ h => beside_force h i
  · exact beside_pure h rfl

theorem beside_setEngine (engine : e.Twin t e') : Beside t Eq w v (setEngine e) (setEngine e') :=
  beside_modify { h with engine }

theorem beside_note (level n) :
    Beside t Eq w v (modify (·.note level n)) (modify (·.note level n)) :=
  beside_modify (h.note level n)

theorem beside_govern (engine : e.Twin t e') (n) : Beside t Eq w v (do setEngine e; modify (·.note .debug n); forceAll)
      (do setEngine e'; modify (·.note .debug n); forceAll) := by
  refine (beside_setEngine h engine).bind fun _ _ _ _ _ h => ?_
  exact (beside_note h .debug n).bind fun _ _ _ _ _ h => beside_forceAll h

theorem beside_clear (u) : Beside t Eq w v (clear u) (clear u) := by
  refine .get (.accept h (h.engine.clearTool u) fun e e' engine => ?_)
  rw [engine.version]
  exact beside_govern h engine _

theorem beside_clearTool (u) : Beside t Eq w v (clearTool u) (clearTool u) := by
  refine .accept h (.of_eq rfl) fun _ _ _ => .get ?_
  rw [(h.engine.tool u).name]
  split
  · exact beside_clear h u
  · exact beside_pure h rfl

theorem beside_freeTool (u) : Beside t Eq w v (freeTool u) (freeTool u) := by
  have released : ∀ w v, World.Twin t w v → Beside t Eq w v
      (modify fun w => { w with engine := w.engine.modifyTool u fun tool => { tool with name := none } })
      (modify fun w => { w with engine := w.engine.modifyTool u fun tool => { tool with name := none } }) := by
    intro w v h
    have engine := h.engine.modifyTool u (f := fun tool => { tool with name := none }) fun twin =>
      ⟨rfl, twin.stamp, twin.callback⟩
    exact beside_modify { h with engine }
  refine .accept h (.of_eq rfl) fun _ _ _ => .get ?_
  rw [(h.engine.tool u).name]
  split
  · exact (beside_clear h u).bind fun _ _ w' v' _ h => released w' v' h
  · exact released w v h

theorem beside_useTool (u name) : Beside t Eq w v (useTool u name) (useTool u name) :=
  .get (.accept h (h.engine.useTool u name) fun _ _ engine => beside_setEngine h engine)

theorem beside_register (u events callback) :
    Beside t Eq w v (register u events callback) (register u events callback) := by
  refine .get (.accept h (h.engine.register u events callback) fun r r' related => ?_)
  obtain ⟨e, previous⟩ := r
  obtain ⟨e', previous'⟩ := r'
  exact (beside_setEngine h related.1).bind fun _ _ _ _ _ h => beside_pure h related.2.symm

theorem beside_setEvents (u events) :
    Beside t Eq w v (setEvents u events) (setEvents u events) := by
  refine .get (.accept h (h.engine.setEvents u events) fun r r' related => ?_)
  obtain ⟨given, e⟩ := r
  obtain ⟨given', e'⟩ := r'
  obtain ⟨rfl, engines⟩ := related
  cases engines with
  | none => exact beside_pure h rfl
  | some engine =>
    dsimp only
    rw [engine.version]
    exact beside_govern h engine _

theorem beside_restart : Beside t Eq w v restart restart := by
  refine .get (.accept h h.engine.restart fun e e' engine => ?_)
  rw [engine.version]
  exact beside_govern h engine _

theorem beside_install (u name events callback) :
    Beside t Eq w v (install u name events callback) (install u name events callback) := by
  refine (beside_useTool h u name).bind fun _ _ w v _ h => ?_
  refine (beside_forM (fun event _ w v h => ?_) w v h).bind fun _ _ _ _ _ h => beside_setEvents h u events
  exact (beside_register h u _ _).bind fun _ _ _ _ _ h => beside_pure h rfl

theorem beside_getLocal (i u) : Beside t Eq w v (getLocal i u) (getLocal i u) := by
  refine .accept h (.of_eq rfl) fun _ _ _ => .get (beside_pure h ?_)
  rw [h.data_eq]

theorem beside_setLocal (i u events) :
    Beside t Eq w v (setLocal i u events) (setLocal i u events) := by
  refine .get ?_
  dsimp only
  rw [h.engine.checkLocalEvents_eq, (h.entry i).code, h.data_eq, (h.engine.tool u).stamp]
  refine .accept h (.of_eq rfl) fun given _ same => same ▸ (beside_track h i).bind fun _ _ w' v' _ h => ?_
  split
  · exact beside_modify (h.modifyState ((h.entry i).state.equipped _))
  · refine (beside_modify (h.modifyState ((h.entry i).state.equipped _))).bind fun _ _ _ _ _ h => ?_
    exact (beside_note h _ _).bind fun _ _ _ _ _ h => beside_force h i

end

end Act

namespace World
variable {t : Nat} {w v : World}

/-- The same answer, in twin worlds. -/
def Matched {α : Type} (t : Nat) (x y : World × α) : Prop := y.2 = x.2 ∧ Twin t x.1 y.1

namespace Twin

theorem answer {α : Type} {x y : Act α} (ran : Act.Beside t Eq w v x y) (reply : α → Reply) :
    Matched t (w.answer x reply) (v.answer y reply) := by
  rw [answer_eq, answer_eq, ran.1.eq]
  exact ⟨rfl, ran.2⟩

theorem restartEach (h : Twin t w v) (n last) : Matched t (restartEach n w last) (restartEach n v last) := by
  induction n generalizing w v last with
  | zero => exact ⟨rfl, h⟩
  | succ n ih =>
    have once := answer (Act.beside_restart h) fun _ => .done
    unfold World.restartEach
    generalize w.answer Act.restart (fun _ => .done) = r, v.answer Act.restart (fun _ => .done) = r' at once ⊢
    obtain ⟨w', last'⟩ := r
    obtain ⟨v', last''⟩ := r'
    obtain ⟨rfl, h'⟩ := once
    split
    next ended =>
      cases ended
      exact ⟨rfl, h'⟩
    next going went =>
      cases went
      split
      next ended => exact absurd (Prod.mk.inj ended).2 (by simpa using going)
      next went =>
        cases went
        exact ih h' _

theorem restartTimes (h : Twin t w v) (n) : Matched t (restartTimes n w) (restartTimes n v) := by
  obtain ⟨outcome, engine⟩ := h.engine.restartTimes n (.ok ())
  unfold World.restartTimes
  rw [h.trackedCodes_eq, h.log]
  split
  · dsimp only
    rw [outcome]
    exact ⟨rfl, { h with engine, log := rfl }⟩
  · exact h.restartEach n .done

theorem report (h : Twin t w v) (i take qualname) :
    Matched t (w.report i take qualname) (v.report i take qualname) := by
  unfold World.report
  rw [h.callbacks]
  split
  · split
    · exact ⟨rfl, { h with callbacks := rfl }⟩
    · exact ⟨rfl, h⟩
  all_goals exact ⟨rfl, h⟩

theorem control (h : Twin t w v) (c) : Matched t (w.control c) (v.control c) := by
  cases c with
  | useTool u name => exact answer (Act.beside_useTool h u name) _
  | clearTool u => exact answer (Act.beside_clearTool h u) _
  | freeTool u => exact answer (Act.beside_freeTool h u) _
  | getTool u =>
    have read := Act.beside_accept h (.of_eq (h.engine.toolName_eq u))
    exact answer read _
  | register u events callback => exact answer (Act.beside_register h u events callback) _
  | setEvents u events => exact answer (Act.beside_setEvents h u events) _
  | getEvents u =>
    have read := Act.beside_accept h (.of_eq (h.engine.events_eq u))
    exact answer read _
  | setLocal code u events => exact answer (Act.beside_setLocal h code u events) _
  | getLocal code u => exact answer (Act.beside_getLocal h code u) _
  | restart times => exact h.restartTimes times
  | allEvents => exact ⟨congrArg Reply.enabled h.engine.allEvents_eq, h⟩
  | install u name events callback => exact answer (Act.beside_install h u name events callback) _
  | instrument code => exact answer (Act.beside_instrument h code) _
  | versions =>
    exact ⟨congrArg (fun x : Nat × Nat × Nat => Reply.versions x.1 x.2.1 x.2.2) h.versions_eq, h⟩
  | dump code => exact ⟨congrArg Reply.dump (h.dump_eq code), h⟩
  | addCallback c =>
    have index : (v.control (.addCallback c)).2 = (w.control (.addCallback c)).2 :=
      congrArg (fun callbacks : Array Callback => Reply.index callbacks.size) h.callbacks
    exact ⟨index, { h with callbacks := congrArg (·.push c) h.callbacks }⟩
  | dropCode code =>
    exact ⟨rfl, h.modifyEntry (f := fun e => { e with held := false }) (g := fun e => { e with held := false })
      { h.entry code with held := rfl }⟩
  | addCode spec => exact ⟨rfl, (h.addCode spec).2⟩
  | describe => exact ⟨congrArg Reply.text h.engine.describe_eq, h⟩
  | report callback take qualname =>
    obtain ⟨same, h'⟩ := h.report callback take qualname
    exact ⟨congrArg Reply.report same, h'⟩

theorem controls (h : Twin t w v) (cs) : Matched t (w.controls cs) (v.controls cs) := by
  induction cs generalizing w v with
  | nil => exact ⟨rfl, h⟩
  | cons c rest ih =>
    obtain ⟨first, h'⟩ := h.control c
    obtain ⟨others, h''⟩ := ih h'
    have replies : ∀ w : World, (w.controls (c :: rest)).2 = (w.control c).2 :: ((w.control c).1.controls rest).2 :=
      fun _ => rfl
    exact ⟨by rw [replies, replies, first, others], h''⟩

theorem call (h : Twin t w v) (i a) : Matched t (w.call i a) (v.call i a) := by
  unfold World.call
  dsimp only
  rw [h.callbacks]
  split
  · exact ⟨rfl, h⟩
  · exact ⟨rfl, { h with callbacks := rfl }⟩
  · exact ⟨rfl, { h with callbacks := rfl }⟩
  · exact ⟨rfl, { h with callbacks := rfl }⟩
  · have kept : ∀ callbacks, Twin t { w with callbacks } { v with callbacks } := fun _ => { h with callbacks := rfl }
    split
    · exact ⟨rfl, (kept _).note _ _⟩
    · exact ⟨rfl, kept _⟩
  next verdicts actions calls _ =>
    have counted : Twin t { w with callbacks := w.callbacks.setIfInBounds i (.scripted verdicts actions (calls + 1)) }
        { v with callbacks := w.callbacks.setIfInBounds i (.scripted verdicts actions (calls + 1)) } :=
      { h with callbacks := rfl }
    rw [(h.entry a.code).held]
    split
    next ops _ =>
      obtain ⟨same, h'⟩ := counted.controls ops
      rw [same]
      exact ⟨rfl, { h' with deliveries := congrArg (· ++ _) h'.deliveries }⟩
    next => exact ⟨rfl, { counted with deliveries := congrArg (· ++ _) h.deliveries }⟩

end Twin
end World

end MonitoredVm
