import Mathlib.Logic.Relation
import MonitoredVm.Monitoring.Dispatch

/-!
# Effects

What operations do to a world, one thing at a time: an engine operation, a change of one code object, a callback added.
Every operation, also one that aborts, comes to a sequence of such effects.

A `Policy` says which control operations may be performed, by hand or by callbacks, a `Rule` which answers code objects take
note of. Only deliveries bring answers, so operations keep to a rule as soon as these do (`Conduct`): `Conduct.step`,
`Conduct.perform`.
-/

namespace MonitoredVm

open Act World

namespace Engine

/-- The engine operations after which code objects are out of line. -/
inductive Move (e : Engine) : Engine → Prop where
  | events {t asked given e'} : e.setEvents t asked = .ok (given, some e') → Move e e'
  | cleared {t e'} : e.clearTool t = .ok e' → Move e e'
  | restarted {e'} : e.restart = .ok e' → Move e e'

theorem bind_ok {α β : Type} {x} {f : α → Except MonitoringError β} {b} (h : (x >>= f) = .ok b) :
    ∃ a, x = .ok a ∧ f a = .ok b := by
  cases x with
  | error why => cases h
  | ok a => exact ⟨a, rfl, h⟩

end Engine

/-- Which answers a code object may take note of, in the state it is in. -/
structure Rule where
  allows : Code → CodeState → Call → Prop

/-- Code objects take note of no answer. -/
def Rule.silent : Rule := ⟨fun _ _ _ => False⟩

/-- The operations that a callback has yet to perform, call by call. -/
def Callback.actions : Callback → List (List Control)
  | .scripted _ actions calls => actions.drop calls
  | _ => []

/-- Which control operations may be performed. What they lead to may be, too. -/
structure Policy where
  permits : Control → Prop
  install : ∀ {t : Nat} {name : String} {events : EventSet} {k : Nat}, permits (.install t name events k) →
    ∀ ev : Event, permits (.register t (EventSet.single ev) (some k))
  script : ∀ {k : Callback}, permits (.addCallback k) → ∀ ops ∈ k.actions, ∀ c ∈ ops, permits c

def Policy.any : Policy where
  permits _ := True
  install _ _ := trivial
  script _ _ _ _ _ := trivial

/-- Own events and stamps set by hand. -/
def CodeState.preset (s : CodeState) (own : LocalMonitors) (stamps : Vector Nat 8) : CodeState :=
  { s with data := some { s.data.getD {} with own, stamps } }

/-- The own events of a tool on a code object, whatever stamp they are under. -/
def CodeState.eventsOf (s : CodeState) (t : Nat) : EventSet := (s.data.getD {}).own.eventsFor t

/-- A tool's own events are given its present stamp. -/
def CodeState.restamped (s : CodeState) (e : Engine) (t : Nat) : CodeState :=
  s.preset (s.data.getD {}).own ((s.data.getD {}).stamps.setIfInBounds t (e.tool t).stamp)

/-- A tool's own events are replaced, under its present stamp. -/
def CodeState.assigned (s : CodeState) (e : Engine) (t : Nat) (events : EventSet) : CodeState :=
  s.preset ((s.data.getD {}).own.setEvents t events) ((s.data.getD {}).stamps.setIfInBounds t (e.tool t).stamp)

namespace World

@[simp] theorem size_modifyEntry (w : World) (i) (f : CodeEntry → CodeEntry) :
    (w.modifyEntry i f).codes.size = w.codes.size := by
  simp [modifyEntry]

@[simp] theorem size_modifyState (w : World) (i) (f : CodeState → CodeState) :
    (w.modifyState i f).codes.size = w.codes.size :=
  size_modifyEntry ..

theorem entry_modifyEntry (w : World) (i j) (f : CodeEntry → CodeEntry) :
    (w.modifyEntry i f).entry j = if j = i ∧ i < w.codes.size then f (w.entry i) else w.entry j := by
  simp only [entry, modifyEntry, Array.getElem?_setIfInBounds]
  grind

theorem entry_modifyState (w : World) (i j) (f : CodeState → CodeState) :
    (w.modifyState i f).entry j =
      if j = i ∧ i < w.codes.size then { w.entry i with state := f (w.entry i).state } else w.entry j :=
  entry_modifyEntry ..

@[simp] theorem size_addCode (w : World) (spec) : (w.addCode spec).1.codes.size = w.codes.size + 1 := by
  simp [addCode]

theorem entry_addCode (w : World) (spec : CodeSpec) (i) :
    (w.addCode spec).1.entry i =
      if i = w.codes.size then { code := spec.assemble.1, state := CodeState.ofCode spec.assemble.1 } else w.entry i := by
  simp only [entry, addCode, Array.getElem?_push]
  split <;> rfl

theorem modifyState_modifyState (w : World) (i) (f g : CodeState → CodeState) :
    (w.modifyState i f).modifyState i g = w.modifyState i fun s => g (f s) := by
  have there := entry_modifyState w i i f
  by_cases lt : i < w.codes.size
  · rw [if_pos ⟨rfl, lt⟩] at there
    simp only [modifyState, modifyEntry] at there ⊢
    simp [there]
  · simp [modifyState, modifyEntry, Array.setIfInBounds, lt]

theorem reportChanges_modifyState (w : World) (i) (f : CodeState → CodeState) (log : Log MonitoringNote) :
    ∃ log', ({ w.modifyState i f with log := log } : World).reportChanges i =
      { w.modifyState i fun s => { f s with changes := [] } with log := log' } := by
  apply Exists.intro
  rw [← modifyState_modifyState w i f fun s => { s with changes := [] }]
  rfl

/-- What operations do to a world, one thing at a time. -/
inductive Effect (p : Policy) (rule : Rule) (w : World) : World → Prop where
  /-- Threads, the log, what was delivered and what is being dispatched. -/
  | aside {w'} : w'.engine = w.engine → w'.codes = w.codes → w'.callbacks = w.callbacks → Effect p rule w w'
  /-- A callback was called or read out, and goes on with what it does. -/
  | heard {i k k'} : w.callbacks[i]? = some k → k'.actions ⊆ k.actions →
    Effect p rule w { w with callbacks := w.callbacks.setIfInBounds i k' }
  | addCallback {k} : p.permits (.addCallback k) →
    Effect p rule w { w with callbacks := w.callbacks.push k }
  | named (t : Nat) (name : Option String) :
    Effect p rule w { w with engine := w.engine.modifyTool t fun tool => { tool with name } }
  | registered {t events k previous e} : p.permits (.register t events k) →
    w.engine.register t events k = .ok (e, previous) → Effect p rule w { w with engine := e }
  | unregistered (t : Nat) (event : Event) : Effect p rule w { w with engine := w.engine.unregister t event }
  | governed {e} : w.engine.Move e → Effect p rule w { w with engine := e }
  | addCode (spec : CodeSpec) : Effect p rule w (w.addCode spec).1
  | tracked (i : Nat) : Effect p rule w (w.modifyEntry i fun x => { x with tracked := true })
  | dropped (i : Nat) : Effect p rule w (w.modifyEntry i fun x => { x with held := false })
  | forced {i} (changes : List SlotChange) : i < w.codes.size →
    Effect p rule w
      (w.modifyState i fun _ => { (w.engine.force (w.entry i).code (w.entry i).state).1 with changes })
  | restamped {i t asked events} : i < w.codes.size → (w.entry i).tracked = true →
    w.engine.checkLocalEvents (w.entry i).code t asked = .ok events → (w.entry i).state.eventsOf t = events →
    Effect p rule w (w.modifyState i fun _ => (w.entry i).state.restamped w.engine t)
  /-- Events are enabled for one code object alone, which is then brought in line. -/
  | assigned {i t asked events} (changes : List SlotChange) : i < w.codes.size →
    (w.entry i).tracked = true → w.engine.checkLocalEvents (w.entry i).code t asked = .ok events →
    Effect p rule w (w.modifyState i fun _ =>
      { (w.engine.force (w.entry i).code ((w.entry i).state.assigned w.engine t events)).1 with changes })
  | noted {c} : c.args.code < w.codes.size →
    rule.allows (w.entry c.args.code).code (w.entry c.args.code).state c →
    Effect p rule w (w.modifyState c.args.code fun _ =>
      { (w.entry c.args.code).state.heed (w.entry c.args.code).code c with changes := [] })

abbrev Effects (p : Policy) (rule : Rule) : World → World → Prop := Relation.ReflTransGen (Effect p rule)

/-- Every callback performs permitted operations only. -/
def Follows (p : Policy) (w : World) : Prop := ∀ k ∈ w.callbacks, ∀ ops ∈ k.actions, ∀ c ∈ ops, p.permits c

theorem follows_any (w : World) : w.Follows .any := fun _ _ _ _ _ _ => trivial

section Effects
variable {p : Policy} {rule : Rule} {w w' : World}

theorem Effects.aside (engine : w'.engine = w.engine) (codes : w'.codes = w.codes)
    (callbacks : w'.callbacks = w.callbacks) : Effects p rule w w' :=
  .single (.aside engine codes callbacks)

theorem Effect.logged (one : w.Effect p rule w') (log : Log MonitoringNote) : Effects p rule w { w' with log } :=
  (Relation.ReflTransGen.single one).trans (Effects.aside rfl rfl rfl)

theorem modifyState_of_ge (beyond : w.codes.size ≤ i) (f : CodeState → CodeState) : w.modifyState i f = w := by
  simp [modifyState, modifyEntry, Array.setIfInBounds, Nat.not_lt.2 beyond]

theorem Follows.effects (h : w.Follows p) (e : Effects p rule w w') : w'.Follows p := by
  induction e with
  | refl => exact h
  | tail _ e ih =>
    intro k mem
    cases e with
    | aside _ _ callbacks => exact ih k (callbacks ▸ mem)
    | heard there fewer =>
      rcases Array.mem_or_eq_of_mem_setIfInBounds mem with old | rfl
      · exact ih k old
      · exact fun ops mem => ih _ (Array.mem_of_getElem? there) ops (fewer mem)
    | addCallback ok =>
      rcases Array.mem_push.1 mem with old | rfl
      · exact ih k old
      · exact p.script ok
    | _ => exact ih k mem

end Effects
end World

/-! Operations -/

namespace Act
variable {α β : Type}

/-- The outcome of an operation and the world it leaves. -/
def exec (x : Act α) (w : World) : Except Abort α × World := (x.run).run w

@[simp] theorem exec_pure (a : α) (w) : exec (pure a) w = (.ok a, w) := rfl

@[simp] theorem exec_throw (why w) : exec (throw why : Act α) w = (.error why, w) := rfl

@[simp] theorem exec_get (w) : exec get w = (.ok w, w) := rfl

@[simp] theorem exec_modify (f : World → World) (w) : exec (modify f) w = (.ok ⟨⟩, f w) := rfl

theorem exec_bind (x : Act α) (f : α → Act β) (w) :
    exec (x >>= f) w =
      match exec x w with
      | (.ok a, w') => exec (f a) w'
      | (.error why, w') => (.error why, w') := by
  rcases run : (x.run).run w with ⟨_ | a, w'⟩
  all_goals
    simp only [exec, ExceptT.run_bind, StateT.run_bind, run]
    rfl

theorem exec_bind_ok (h : exec (x >>= f) w = (.ok b, w')) :
    ∃ a w₁, exec x w = (.ok a, w₁) ∧ exec (f a) w₁ = (.ok b, w') := by
  rw [exec_bind] at h
  rcases ran : exec x w with ⟨_ | a, w₁⟩
  · rw [ran] at h
    cases (Prod.mk.inj h).1
  · rw [ran] at h
    exact ⟨a, w₁, rfl, h⟩

theorem exec_accept (r : Except MonitoringError α) (w) :
    exec (accept r) w =
      (match r with
        | .ok a => .ok a
        | .error e => .error (.refused e), w) := by
  cases r <;> rfl

theorem exec_accept_ok (h : exec (accept r) w = (.ok a, w')) : r = .ok a ∧ w' = w := by
  cases r with
  | error e => cases (Prod.mk.inj h).1
  | ok b =>
    obtain ⟨same, rfl⟩ := Prod.mk.inj h
    exact ⟨congrArg Except.ok (Except.ok.inj same), rfl⟩

theorem exec_force (i) (w : World) :
    ∃ changes log, exec (force i) w =
      ((w.engine.force (w.entry i).code (w.entry i).state).2.map fun _ => (),
        { w.modifyState i fun _ => { (w.engine.force (w.entry i).code (w.entry i).state).1 with changes } with log }) := by
  unfold force
  simp only [exec_bind, exec_get]
  cases outcome : (w.engine.force (w.entry i).code (w.entry i).state).2 with
  | error why => exact ⟨_, _, rfl⟩
  | ok r =>
    cases r with
    | none => exact ⟨_, _, rfl⟩
    | some restarted =>
      obtain ⟨log, reported⟩ := reportChanges_modifyState w i
        (fun _ => (w.engine.force (w.entry i).code (w.entry i).state).1)
        (w.log.add .debug (.instrumenting (w.entry i).code.qualname w.engine.version restarted))
      exact ⟨[], log, congrArg (Prod.mk _) reported⟩

/-- Running the operation comes to effects, also when it aborts. -/
def Does (p : Policy) (rule : Rule) (w : World) (x : Act α) : Prop := World.Effects p rule w (x.exec w).2

section Does
variable {p : Policy} {rule : Rule} {w : World}

theorem does_pure (a : α) : Does p rule w (pure a) := .refl

theorem does_throw (why) : Does p rule w (throw why : Act α) := .refl

theorem does_modify (h : World.Effects p rule w (f w)) : Does p rule w (modify f) := h

theorem Does.effects (h : Does p rule w x) (ran : exec x w = (.ok a, w')) : World.Effects p rule w w' := by
  rwa [Does, ran] at h

theorem Does.bind (first : Does p rule w x) (rest : ∀ a w', x.exec w = (.ok a, w') → Does p rule w' (f a)) :
    Does p rule w (x >>= f) := by
  unfold Does at first ⊢
  rw [exec_bind]
  rcases ran : x.exec w with ⟨_ | a, w'⟩
  · rwa [ran] at first
  · rw [ran] at first
    exact first.trans (rest a w' ran)

theorem Does.get (h : Does p rule w (f w)) : Does p rule w (get >>= f) := h

theorem Does.accept {f : α → Act β} (h : ∀ a, r = .ok a → Does p rule w (f a)) : Does p rule w (accept r >>= f) := by
  cases r with
  | error e => exact .refl
  | ok a => exact h a rfl

theorem does_forM {l : List α} {f : α → Act Unit} (h : ∀ a ∈ l, ∀ w, Does p rule w (f a)) (w) :
    Does p rule w (l.forM f) := by
  induction l generalizing w with
  | nil => exact .refl
  | cons a rest ih =>
    exact (h a (List.mem_cons_self ..) w).bind fun _ w' _ => ih (fun b mem => h b (List.mem_cons_of_mem _ mem)) w'

theorem does_force (i) : Does p rule w (force i) := by
  obtain ⟨changes, log, ran⟩ := exec_force i w
  rw [Does, ran]
  by_cases lt : i < w.codes.size
  · exact (World.Effect.forced changes lt).logged log
  · rw [modifyState_of_ge (Nat.le_of_not_lt lt)]
    exact .aside rfl rfl rfl

theorem does_forceIfStale (i) : Does p rule w (forceIfStale i) := by
  refine .get ?_
  split
  · exact does_force i
  · exact does_pure _

theorem does_forceAll : Does p rule w forceAll :=
  .get (does_forM (fun i _ _ => does_forceIfStale i) w)

theorem does_note (level n) : Does p rule w (modify (·.note level n)) :=
  does_modify (.aside rfl rfl rfl)

theorem does_track (i) : Does p rule w (track i) :=
  does_modify (.single (.tracked i))

theorem does_instrument (i) : Does p rule w (instrument i) := by
  refine .get ?_
  split
  · exact (does_track i).bind fun _ w' _ => does_force i
  · exact does_pure _

theorem does_govern (m : w.engine.Move e) (n) : Does p rule w (do setEngine e; modify (·.note .debug n); forceAll) := by
  have governed : Does p rule w (setEngine e) := does_modify (.single (.governed m))
  exact governed.bind fun _ _ _ => (does_note .debug n).bind fun _ _ _ => does_forceAll

theorem does_clear (tool) : Does p rule w (clear tool) :=
  .get (.accept fun _ ok => does_govern (.cleared ok) _)

theorem does_restart : Does p rule w restart :=
  .get (.accept fun _ ok => does_govern (.restarted ok) _)

theorem does_setEvents (tool events) : Does p rule w (setEvents tool events) := by
  refine .get (.accept fun r ok => ?_)
  obtain ⟨given, _ | e⟩ := r
  · exact does_pure _
  · exact does_govern (.events ok) _

theorem does_clearTool (tool) : Does p rule w (clearTool tool) := by
  refine .accept fun _ _ => .get ?_
  split
  · exact does_clear tool
  · exact does_pure _

theorem does_freeTool (tool) : Does p rule w (freeTool tool) := by
  have released : ∀ w : World, Does p rule w
      (modify fun w => { w with engine := w.engine.modifyTool tool fun t => { t with name := none } }) :=
    fun w => does_modify (.single (.named tool none))
  refine .accept fun _ _ => .get ?_
  split
  · exact (does_clear tool).bind fun _ w' _ => released w'
  · exact released w

theorem does_useTool (tool name) : Does p rule w (useTool tool name) := by
  refine .get (.accept fun e ok => ?_)
  unfold Engine.useTool at ok
  obtain ⟨_, -, ok⟩ := Engine.bind_ok ok
  split at ok
  next =>
    obtain ⟨_, refused, -⟩ := Engine.bind_ok ok
    cases refused
  next =>
    cases ok
    exact does_modify (.single (.named tool (some name)))

theorem does_register (ok : p.permits (.register tool events callback)) :
    Does p rule w (register tool events callback) := by
  refine .get (.accept fun r went => ?_)
  obtain ⟨e, previous⟩ := r
  have set : Does p rule w (setEngine e) := does_modify (.single (.registered ok went))
  exact set.bind fun _ _ _ => does_pure _

theorem does_install (ok : p.permits (.install tool name events callback)) :
    Does p rule w (install tool name events callback) := by
  refine (does_useTool tool name).bind fun _ w' _ => ?_
  refine (does_forM (fun event _ w => ?_) w').bind fun _ _ _ => does_setEvents tool events
  exact (does_register (p.install ok event)).bind fun _ _ _ => does_pure _

theorem effects_force_after (n) (one : i < w.codes.size → ∀ changes, w.Effect p rule (w.modifyState i fun _ =>
      { (w.engine.force (w.entry i).code (f (w.entry i).state)).1 with changes })) :
    World.Effects p rule w (exec (force i) ((w.modifyState i f).note .debug n)).2 := by
  by_cases lt : i < w.codes.size
  · obtain ⟨changes, log, ran⟩ := exec_force i ((w.modifyState i f).note .debug n)
    have entry : ((w.modifyState i f).note .debug n).entry i =
        { w.entry i with state := f (w.entry i).state } := by
      have there := w.entry_modifyState i i f
      rwa [if_pos ⟨rfl, lt⟩] at there
    rw [entry] at ran
    rw [ran]
    have twice := w.modifyState_modifyState i f fun _ =>
      { (w.engine.force (w.entry i).code (f (w.entry i).state)).1 with changes }
    have whole := congrArg (fun w' : World => { w' with log }) twice
    exact whole ▸ (one lt changes).logged log
  · rw [modifyState_of_ge (Nat.le_of_not_lt lt)]
    have noted : World.Effects p rule w (w.note .debug n) := .aside rfl rfl rfl
    exact noted.trans (does_force i)

theorem does_setLocal (i tool events) : Does p rule w (setLocal i tool events) := by
  refine .get (.accept fun events ok => (does_track i).bind fun _ w' tracks => ?_)
  have moved : w.modifyEntry i (fun x => { x with tracked := true }) = w' := congrArg Prod.snd tracks
  subst moved
  have same : ((w.modifyEntry i fun x => { x with tracked := true }).entry i).code = (w.entry i).code ∧
      ((w.modifyEntry i fun x => { x with tracked := true }).entry i).state = (w.entry i).state := by
    rw [entry_modifyEntry]
    split
    next => exact ⟨rfl, rfl⟩
    next => exact ⟨rfl, rfl⟩
  have tracked : i < (w.modifyEntry i fun x => { x with tracked := true }).codes.size →
      ((w.modifyEntry i fun x => { x with tracked := true }).entry i).tracked = true := by
    intro lt
    rw [size_modifyEntry] at lt
    rw [entry_modifyEntry, if_pos ⟨rfl, lt⟩]
  rw [← same.1] at ok
  rw [← same.2]
  dsimp only
  split
  next kept =>
    by_cases lt : i < (w.modifyEntry i fun x => { x with tracked := true }).codes.size
    · exact does_modify (.single (.restamped lt (tracked lt) ok kept))
    · refine does_modify ?_
      rw [modifyState_of_ge (Nat.le_of_not_lt lt)]
  next =>
    simp only [Does, exec_bind, exec_modify]
    exact effects_force_after _ fun lt changes => .assigned changes lt (tracked lt) ok

end Does
end Act

namespace World
variable {p : Policy} {rule : Rule} {w : World}

theorem answer_eq (w : World) (act : Act α) (reply : α → Reply) : w.answer act reply =
      ((act.exec w).2, match (act.exec w).1 with
        | .ok a => reply a
        | .error why => .failed why) := by
  unfold answer Act.exec
  rcases (act.run).run w with ⟨_ | a, w'⟩ <;> rfl

theorem effects_answer (h : act.Does p rule w) (reply : α → Reply) : Effects p rule w (w.answer act reply).1 := by
  rw [answer_eq]
  exact h

theorem effects_restartEach (n w last) : Effects p rule w (restartEach n w last).1 := by
  induction n generalizing w last with
  | zero => exact .refl
  | succ n ih =>
    have once : Effects p rule w (w.answer Act.restart fun _ => .done).1 := effects_answer does_restart _
    unfold restartEach
    split
    next ended => rwa [ended] at once
    next w' last _ went =>
      rw [went] at once
      exact once.trans (ih w' last)

theorem effects_engine_restartTimes (n) (w : World) (last : Except MonitoringError Unit) :
    Effects p rule w { w with engine := (w.engine.restartTimes n last).1 } := by
  induction n generalizing w last with
  | zero => exact .refl
  | succ n ih =>
    unfold Engine.restartTimes
    split
    next e ok =>
      have once : Effects p rule w { w with engine := e } := .single (.governed (.restarted ok))
      exact once.trans (ih { w with engine := e } (.ok ()))
    next => exact .refl

theorem effects_restartTimes (n w) : Effects p rule w (restartTimes n w).1 := by
  unfold restartTimes
  split
  · exact effects_engine_restartTimes n w (.ok ())
  · exact effects_restartEach n w .done

theorem effects_report (w : World) (i take qualname) : Effects p rule w (w.report i take qualname).1 := by
  unfold report
  split
  next there =>
    split
    · exact .single (.heard there (List.Subset.refl _))
    · exact .refl
  · exact .refl
  · exact .refl
  · exact .refl

theorem effects_control (w : World) (ok : p.permits c) : Effects p rule w (w.control c).1 := by
  cases c with
  | useTool tool name => exact effects_answer (does_useTool tool name) _
  | clearTool tool => exact effects_answer (does_clearTool tool) _
  | freeTool tool => exact effects_answer (does_freeTool tool) _
  | getTool tool => exact effects_answer (by rw [Act.Does, exec_accept]) _
  | register tool events callback => exact effects_answer (does_register ok) _
  | setEvents tool events => exact effects_answer (does_setEvents tool events) _
  | getEvents tool => exact effects_answer (by rw [Act.Does, exec_accept]) _
  | setLocal code tool events => exact effects_answer (does_setLocal code tool events) _
  | getLocal code tool =>
    have read : Act.Does p rule w (Act.getLocal code tool) := .accept fun _ _ => .get (does_pure _)
    exact effects_answer read _
  | restart times => exact effects_restartTimes times w
  | install tool name events callback => exact effects_answer (does_install ok) _
  | instrument code => exact effects_answer (does_instrument code) _
  | addCallback c => exact .single (.addCallback ok)
  | dropCode code => exact .single (.dropped code)
  | addCode spec => exact .single (.addCode spec)
  | report callback take qualname => exact effects_report w callback take qualname
  | allEvents | versions | dump _ | describe => exact .refl

theorem effects_controls (w : World) (ok : ∀ c ∈ cs, p.permits c) : Effects p rule w (w.controls cs).1 := by
  induction cs generalizing w with
  | nil => exact .refl
  | cons c rest ih =>
    exact (effects_control w (ok c List.mem_cons_self)).trans (ih _ fun c mem => ok c (List.mem_cons_of_mem _ mem))

theorem effects_call (here : w.Follows p) (i a) : Effects p rule w (w.call i a).1 := by
  unfold call
  dsimp only
  split
  · exact .refl
  next there => exact .single (.heard there (List.Subset.refl _))
  next there => exact .single (.heard there (List.Subset.refl _))
  next there => exact .single (.heard there (List.Subset.refl _))
  next l there =>
    have taken : Effects p rule w { w with callbacks := w.callbacks.setIfInBounds i (.eventLog (l.take a).1) } :=
      .single (.heard there (List.Subset.refl _))
    split
    · exact taken.trans (Effects.aside rfl rfl rfl)
    · exact taken
  next verdicts actions calls there =>
    have counted : Effects p rule w
        { w with callbacks := w.callbacks.setIfInBounds i (.scripted verdicts actions (calls + 1)) } :=
      .single (.heard there (List.drop_subset_drop_left actions (Nat.le_succ calls)))
    split
    next ops performs =>
      have due : ops ∈ actions.drop calls := List.mem_of_getElem? (i := 0) (by rwa [List.getElem?_drop])
      have permitted : ∀ c ∈ ops, p.permits c := here _ (Array.mem_of_getElem? there) ops due
      exact (counted.trans (effects_controls _ permitted)).trans (Effects.aside rfl rfl rfl)
    next => exact counted.trans (Effects.aside rfl rfl rfl)

end World

namespace Act
variable {p : Policy} {rule : Rule} {w : World}

theorem does_invoke (here : w.Follows p) (t layer slot c a) : Does p rule w (invoke t layer slot c a) := by
  refine .get ?_
  dsimp only
  have marked : World.Effects p rule w
      (w.setThread t { w.thread t with tracing := (w.thread t).tracing + 1, current := some a.event }) :=
    .aside rfl rfl rfl
  split
  next =>
    exact (marked.trans (effects_call (here.effects marked) _ a)).trans (World.Effects.aside rfl rfl rfl)
  next => exact marked.trans (World.Effects.aside rfl rfl rfl)

theorem exec_invoke {t layer slot c a w' call} (h : (invoke t layer slot c a).exec w = (.ok call, w')) :
    call.layer = layer ∧ call.slot = slot ∧ call.args = a := by
  have answered := Except.ok.inj (congrArg Prod.fst h)
  rw [← answered]
  exact ⟨rfl, rfl, rfl⟩

theorem does_settle
    (ok : c.args.code < w.codes.size → rule.allows (w.entry c.args.code).code (w.entry c.args.code).state c) :
    Does p rule w (settle c) := by
  have heeds : Does p rule w (changeState c.args.code (·.heed (w.entry c.args.code).code c)) := by
    obtain ⟨log, reported⟩ := w.reportChanges_modifyState c.args.code (·.heed (w.entry c.args.code).code c) w.log
    refine does_modify ?_
    by_cases lt : c.args.code < w.codes.size
    · exact reported ▸ (World.Effect.noted lt (ok lt)).logged log
    · have same := modifyState_of_ge (Nat.le_of_not_lt lt) fun s =>
        { s.heed (w.entry c.args.code).code c with changes := [] }
      have codes := congrArg World.codes same
      exact reported ▸ .aside rfl codes rfl
  refine .get (heeds.bind fun _ w' _ => ?_)
  split
  next => exact does_pure _
  next => exact does_throw _
  next =>
    split
    next =>
      split
      next => exact does_throw _
      next => exact does_pure _
    next =>
      have unregistered : World.Effects p rule w'
          { w' with engine := w'.engine.unregister c.args.tool c.args.event } :=
        .single (.unregistered c.args.tool c.args.event)
      exact (does_modify unregistered).bind fun _ _ _ => does_throw _

/-- Delivery brings answers to the event from the slot that fired, of what is registered at the time. -/
theorem does_deliver (here : w.Follows p)
    (ok : ∀ w₀ w₁, World.Effects p rule w w₀ → World.Effects p rule w₀ w₁ → a.code < w₁.codes.size → ∀ c : Call,
      c.layer = layer → c.slot = slot → c.args = { a with tool := c.args.tool } →
      w₀.engine.callable c.args.tool a.event = some c.callable →
      rule.allows (w₁.entry a.code).code (w₁.entry a.code).state c) : Does p rule w (deliver t layer slot a tools) := by
  induction tools generalizing w with
  | nil => exact does_pure _
  | cons tool rest ih =>
    refine .get ?_
    split
    next => exact ih here ok
    next c registered =>
      have invokes : Does p rule w (invoke t layer slot c { a with tool }) := does_invoke here ..
      refine invokes.bind fun call w₁ invoked => ?_
      obtain ⟨of_layer, of_slot, args⟩ := exec_invoke invoked
      have moved := invokes.effects invoked
      have settled : Does p rule w₁ (settle call) := by
        refine does_settle fun lt => ?_
        have answered := Except.ok.inj (congrArg Prod.fst invoked)
        have called : w.engine.callable call.args.tool a.event = some call.callable := by
          rw [← answered]
          exact registered
        have there := ok w w₁ .refl moved (by rwa [args] at lt) call of_layer of_slot (by rw [args]) called
        rwa [args]
      refine settled.bind fun _ w₂ went => ih ?_ fun w' w'' h => ok w' w'' ?_
      · exact (here.effects moved).effects (settled.effects went)
      · exact (moved.trans (settled.effects went)).trans h

theorem does_slotAt (i offset) : Does p rule w (slotAt i offset) := by
  refine .get ?_
  dsimp only
  split
  · exact does_pure _
  · exact does_throw _

theorem exec_slotAt (h : (slotAt i offset).exec w = (.ok slot, w')) : w' = w ∧ i < w.codes.size := by
  unfold slotAt at h
  simp only [exec_bind, exec_get] at h
  split at h
  next inside =>
    rw [exec_pure] at h
    refine ⟨(Prod.mk.inj h).2.symm, Nat.lt_of_not_le fun beyond => ?_⟩
    have nothing : w.entry i = default := by simp [World.entry, beyond]
    rw [nothing] at inside
    exact Nat.not_lt_zero _ inside
  next =>
    rw [exec_throw] at h
    exact absurd (Prod.mk.inj h).1 (by simp)

theorem slotAt_ok (h : exec (slotAt i offset) w = (.ok slot, w')) : slot = (w.entry i).state.slot offset := by
  unfold slotAt at h
  simp only [exec_bind, exec_get] at h
  split at h
  next =>
    rw [exec_pure] at h
    exact (Except.ok.inj (Prod.mk.inj h).1).symm
  next =>
    rw [exec_throw] at h
    cases (Prod.mk.inj h).1

theorem exec_slotAt_bind (inside : offset < (w.entry i).state.slots.size) (k : Slot → Act α) :
    exec (slotAt i offset >>= k) w = exec (k ((w.entry i).state.slot offset)) w := by
  simp only [slotAt, exec_bind, exec_get, if_pos inside, exec_pure]

/-- The first half of a step: the code object is brought up to date, then `INSTRUCTION` fires. -/
def arrive (t i offset : Nat) : Act Unit := do
  instrument i
  if (← slotAt i offset).instruction then
    let _ ← fireInstruction t i offset

/-- The second half: `LINE` fires, then the opcode's own event. -/
def proceed (t i offset : Nat) (prev : Option Nat) (taken : Bool) : Act Opcode := do
  if (← slotAt i offset).line then
    let _ ← fireLine t i offset prev
  fireOpcode t i offset prev taken

theorem step_eq (t i offset prev taken) :
    step t i offset prev taken = arrive t i offset >>= fun _ => proceed t i offset prev taken := by
  unfold step arrive
  simp only [bind_assoc]
  congr
  funext _
  congr
  funext slot
  split
  · rw [bind_assoc]
    rfl
  · rw [pure_bind]
    rfl

end Act

theorem Act.does_fireOpcode
    (fires : i < w.codes.size → ((w.entry i).state.slot offset).instrumented = true → ∀ {e reported payload},
      opcodeEvent? (w.entry i).code offset prev taken = some (e, reported, payload) →
      Does p rule w (fireFrom t e i offset reported payload)) : Does p rule w (fireOpcode t i offset prev taken) := by
  refine (does_slotAt i offset).bind fun slot w' found => ?_
  obtain ⟨rfl, lt⟩ := exec_slotAt found
  split
  next instrumented =>
    rw [slotAt_ok found] at instrumented
    refine .get ?_
    split
    next is_event => exact (fires lt instrumented is_event).bind fun _ _ _ => does_pure _
    next => exact does_pure _
  next => exact does_pure _

/-- While `inv` holds, callbacks do what is permitted and `LINE` and `INSTRUCTION` lead to answers that the rule allows. -/
structure Overlays (p : Policy) (rule : Rule) (inv : World → Prop) : Prop where
  follows : ∀ {w : World}, inv w → w.Follows p
  kept : ∀ {w w' : World}, World.Effects p rule w w' → inv w → inv w'
  line : ∀ {w : World} {t slot : Nat} {a : EventArgs} {tools : List Nat}, inv w → a.event = .line →
    Act.Does p rule w (Act.deliver t .line slot a tools)
  instruction : ∀ {w : World} {t slot : Nat} {a : EventArgs} {tools : List Nat}, inv w → a.event = .instruction →
    Act.Does p rule w (Act.deliver t .instruction slot a tools)

/-- So does everything that is reported; of all events only some are fired by hand. -/
structure Conduct (p : Policy) (rule : Rule) (loose : Event → Bool) (inv : World → Prop) : Prop
    extends Overlays p rule inv where
  opcode : ∀ {w : World} {t i offset : Nat} {prev : Option Nat} {taken : Bool} {e : Event} {reported : Nat}
    {payload : Payload}, inv w → i < w.codes.size → ((w.entry i).state.slot offset).instrumented = true →
    Act.opcodeEvent? (w.entry i).code offset prev taken = some (e, reported, payload) →
    Act.Does p rule w (Act.fireFrom t e i offset reported payload)
  fired : ∀ {w : World} {t slot : Nat} {a : EventArgs} {tools : List Nat}, inv w → loose a.event = true →
    Act.Does p rule w (Act.deliver t .opcode slot a tools)

namespace Overlays
variable {p : Policy} {rule : Rule} {inv : World → Prop} {w : World}

theorem fireLine (overlays : Overlays p rule inv) (here : inv w) (t i offset prev) :
    Act.Does p rule w (Act.fireLine t i offset prev) := by
  have last : ∀ w, Act.Does p rule w (do return (← Act.slotAt i offset).runs) := fun w =>
    (does_slotAt i offset).bind fun _ _ _ => does_pure _
  refine .get ?_
  dsimp only
  split
  next =>
    split
    next => exact (overlays.line here rfl).bind fun _ w' _ => last w'
    next => exact last w
  next => exact last w

theorem fireInstruction (overlays : Overlays p rule inv) (here : inv w) (t i offset) :
    Act.Does p rule w (Act.fireInstruction t i offset) := by
  refine (does_slotAt i offset).bind fun slot w' found => .get ?_
  obtain ⟨rfl, -⟩ := exec_slotAt found
  dsimp only
  split
  next =>
    split
    next => exact (overlays.instruction here rfl).bind fun _ _ _ => does_pure _
    next => exact does_pure _
  next => exact does_pure _

theorem arrive (overlays : Overlays p rule inv) (here : inv w) (t i offset) :
    Act.Does p rule w (Act.arrive t i offset) := by
  have aligns : Act.Does p rule w (Act.instrument i) := does_instrument i
  refine aligns.bind fun _ w₁ ran => (does_slotAt i offset).bind fun slot w₂ found => ?_
  obtain ⟨rfl, -⟩ := exec_slotAt found
  split
  next =>
    exact (overlays.fireInstruction (overlays.kept (aligns.effects ran) here) t i offset).bind fun _ _ _ => does_pure _
  next => exact does_pure _

theorem step_of (overlays : Overlays p rule inv) (here : inv w)
    (fires : ∀ {w}, inv w → Act.Does p rule w (Act.fireOpcode t i offset prev taken)) :
    Act.Does p rule w (Act.step t i offset prev taken) := by
  rw [step_eq]
  have arrives := overlays.arrive here t i offset
  refine arrives.bind fun _ w₁ ran => (does_slotAt i offset).bind fun slot w₂ found => ?_
  obtain ⟨rfl, -⟩ := exec_slotAt found
  have here := overlays.kept (arrives.effects ran) here
  have line := overlays.fireLine here t i offset prev
  split
  next => exact line.bind fun _ _ ran => fires (overlays.kept (line.effects ran) here)
  next => exact fires here

end Overlays

namespace Conduct
variable {p : Policy} {rule : Rule} {loose : Event → Bool} {inv : World → Prop} {w : World}

section
variable (conduct : Conduct p rule loose inv) (here : inv w)
include conduct here

theorem fireFrom (t i offset reported) (ok : loose e = true) (payload) :
    Act.Does p rule w (Act.fireFrom t e i offset reported payload) := by
  refine .get ?_
  split
  · exact does_pure _
  · exact conduct.fired here ok

theorem fireProtected (t i offset) (ok : loose e = true) : Act.Does p rule w (Act.fireProtected t e i offset) := by
  refine .get ?_
  dsimp only
  split
  next => exact does_throw _
  next =>
    have taken : Act.Does p rule w (modify (·.setThread t { w.thread t with pending := none })) :=
      does_modify (.aside rfl rfl rfl)
    refine taken.bind fun _ w' ran => ?_
    exact (conduct.fireFrom (conduct.kept (taken.effects ran) here) t i offset offset ok _).bind fun _ _ _ =>
      does_modify (.aside rfl rfl rfl)

theorem fireOpcode (t i offset prev taken) :
    Act.Does p rule w (Act.fireOpcode t i offset prev taken) :=
  does_fireOpcode fun lt instrumented => conduct.opcode here lt instrumented

theorem step (t i offset prev taken) :
    Act.Does p rule w (Act.step t i offset prev taken) :=
  conduct.step_of here fun here => conduct.fireOpcode here t i offset prev taken

end

end Conduct

/-- The operation fires no event by hand but some. -/
def ThreadOp.firesOnly (loose : Event → Bool) : ThreadOp → Bool
  | .fire _ event _ _ | .fireJump _ event _ _ _ | .fireProtected _ event _ => loose event
  | _ => true

mutual

/-- Whatever the operation does, no event is fired by hand but some. -/
def Operation.firesOnly (loose : Event → Bool) : Operation → Bool
  | .control _ => true
  | .thread _ op => op.firesOnly loose
  | .tracing _ ops => Operation.allFireOnly loose ops

def Operation.allFireOnly (loose : Event → Bool) : List Operation → Bool
  | [] => true
  | op :: rest => op.firesOnly loose && Operation.allFireOnly loose rest

end

mutual

theorem Operation.firesOnly_any : (op : Operation) → op.firesOnly (fun _ => true) = true
  | .control _ => rfl
  | .thread _ op => by cases op <;> rfl
  | .tracing _ ops => allFireOnly_any ops

theorem Operation.allFireOnly_any : (ops : List Operation) → Operation.allFireOnly (fun _ => true) ops = true
  | [] => rfl
  | op :: rest => by
    rw [allFireOnly, firesOnly_any op, allFireOnly_any rest]
    rfl

end

mutual

/-- The control operations that an operation performs itself. -/
def Operation.controls : Operation → List Control
  | .control c => [c]
  | .thread _ _ => []
  | .tracing _ ops => Operation.allControls ops

def Operation.allControls : List Operation → List Control
  | [] => []
  | op :: rest => op.controls ++ Operation.allControls rest

end

theorem World.effects_dispatch (h : act.Does p rule { w with dispatching := some code }) (reply : α → ThreadReply) :
    Effects p rule w (w.dispatch code act reply).1 := by
  have began : Effects p rule w { w with dispatching := some code } := .aside rfl rfl rfl
  exact (began.trans h).trans (Effects.aside rfl rfl rfl)

namespace Conduct
variable {p : Policy} {rule : Rule} {loose : Event → Bool} {inv : World → Prop} {w : World}

theorem dispatching (conduct : Conduct p rule loose inv) (here : inv w) (code) :
    inv { w with dispatching := code } := by
  have began : World.Effects p rule w { w with dispatching := code } := .aside rfl rfl rfl
  exact conduct.kept began here

theorem runPath (conduct : Conduct p rule loose inv) (t code path) (here : inv w) (prev) :
    World.Effects p rule w (w.runPath t code prev path).1 := by
  induction path generalizing w prev with
  | nil => exact .refl
  | cons place rest ih =>
    obtain ⟨offset, taken⟩ := place
    have once : World.Effects p rule w (w.dispatch code (Act.step t code offset prev taken) .opcode).1 :=
      effects_dispatch (conduct.step (conduct.dispatching here _) t code offset prev taken) _
    unfold World.runPath
    dsimp only
    split
    next => exact once
    next => exact once.trans (ih (conduct.kept once here) _)

theorem threadOp (conduct : Conduct p rule loose inv) (here : inv w) (t) (ok : op.firesOnly loose = true) :
    World.Effects p rule w (w.threadOp t op).1 := by
  have here' := fun code => conduct.dispatching here code
  cases op with
  | step code offset prev taken => exact effects_dispatch (conduct.step (here' _) t code offset prev taken) _
  | run code path =>
    unfold World.threadOp
    dsimp only
    split
    next ran => exact (congrArg Prod.fst ran) ▸ conduct.runPath t code _ here none
    next ran => exact (congrArg Prod.fst ran) ▸ conduct.runPath t code _ here none
  | fire code event offset payload =>
    exact effects_dispatch (conduct.fireFrom (here' _) t code offset offset ok payload) _
  | fireJump code event offset source dest =>
    exact effects_dispatch
      ((conduct.fireFrom (here' _) t code offset source ok _).bind fun _ _ _ => does_pure _) _
  | fireProtected code event offset =>
    have once : World.Effects p rule w (w.dispatch code (Act.fireProtected t event code offset) fun _ => .done).1 :=
      effects_dispatch (conduct.fireProtected (here' _) t code offset ok) _
    unfold World.threadOp
    dsimp only
    split
    next ended => rwa [ended] at once
    next ended => rwa [ended] at once
    next ended => rwa [ended] at once
  | fireLine code offset prev => exact effects_dispatch (conduct.fireLine (here' _) t code offset prev) _
  | fireInstruction code offset => exact effects_dispatch (conduct.fireInstruction (here' _) t code offset) _
  | setPending e => exact .aside rfl rfl rfl
  | takePending => exact .aside rfl rfl rfl
  | inspect => exact .refl
mutual

theorem perform (conduct : Conduct p rule loose inv) :
    (op : Operation) → op.firesOnly loose = true → (∀ c ∈ op.controls, p.permits c) → ∀ {w : World}, inv w →
      World.Effects p rule w (w.perform op).1
  | .control c, _, permitted, w, _ => effects_control w (permitted c (List.mem_singleton.2 rfl))
  | .thread t _, ok, _, _, here => conduct.threadOp here t ok
  | .tracing t ops, ok, permitted, w, here => by
    have marked : World.Effects p rule w (w.setThread t { w.thread t with tracing := (w.thread t).tracing + 1 }) :=
      .aside rfl rfl rfl
    exact (marked.trans (conduct.performAll ops ok permitted (conduct.kept marked here))).trans
      (World.Effects.aside rfl rfl rfl)

theorem performAll (conduct : Conduct p rule loose inv) :
    (ops : List Operation) → Operation.allFireOnly loose ops = true → (∀ c ∈ Operation.allControls ops, p.permits c) →
      ∀ {w : World}, inv w → World.Effects p rule w (w.performAll ops).1
  | [], _, _, _, _ => .refl
  | op :: rest, ok, permitted, _, here => by
    obtain ⟨first, others⟩ := Bool.and_eq_true_iff.1 ok
    have once := conduct.perform op first (fun c mem => permitted c (List.mem_append_left _ mem)) here
    exact once.trans (conduct.performAll rest others (fun c mem => permitted c (List.mem_append_right _ mem))
      (conduct.kept once here))

end

end Conduct
end MonitoredVm
