import MonitoredVm.Proofs.Histories

/-!
# Versions

Every change of the enabled events raises the version of the engine, and code objects that are behind are brought up to it.
A restart raises it twice: the version in between, which no code object can be at, divides those left behind before the
restart from those brought in line since.

Main statements: what one move keeps of all this (`Engine.Versioned.move`, `CodeState.Dated.move`, `World.Versioned.move`)
holds after any history, and a request that is refused has done nothing (`World.control_of_refused`): versions are tried out
before anything is changed.
-/

namespace MonitoredVm

namespace Engine

theorem succVersion_eq (h : succVersion v = .ok v') : v' = v + increment ∧ v' < UInt32.size := by
  unfold succVersion at h
  split at h
  next fits =>
    cases h
    exact ⟨rfl, fits⟩
  next => cases h

/-- The versions an engine keeps are in order. -/
structure Versioned (e : Engine) : Prop where
  multiple : increment ∣ e.version
  fits : e.version < UInt32.size
  restart : e.lastRestart = 0 ∨ e.lastRestart < e.version
  stamp : ∀ t, (e.tool t).stamp ≤ e.version

theorem stamp_tool (e : Engine) (t) : (e.tool t).stamp = (e.stamps[t]?).getD 0 := by
  unfold tool stamps
  rw [Vector.getElem?_map]
  cases e.tools[t]? <;> rfl

theorem stamp_clearTool {e e' : Engine} (h : e.clearTool t = .ok e') (u) :
    (e'.tool u).stamp = if u = t ∧ t < 8 then e'.version else (e.tool u).stamp := by
  rw [tool_clearTool h]
  split <;> rfl

theorem Versioned.alike {e e' : Engine} (h : e.Versioned) (same : e.Alike e') : e'.Versioned := by
  refine ⟨same.version ▸ h.multiple, same.version ▸ h.fits, ?_, fun t => ?_⟩
  · rw [same.lastRestart, same.version]
    exact h.restart
  · rw [stamp_tool, same.stamps, ← stamp_tool, same.version]
    exact h.stamp t

theorem Versioned.move {e e' : Engine} (h : e.Versioned) (m : e.Move e') : e'.Versioned := by
  have later := m.version_lt
  have earlier : e.lastRestart = 0 ∨ e.lastRestart < e'.version := h.restart.imp_right fun lt => Nat.lt_trans lt later
  have raise : ∀ {v v' : Nat}, succVersion v = .ok v' → increment ∣ v → increment ∣ v' := fun raised multiple =>
    (succVersion_eq raised).1 ▸ Nat.dvd_add multiple (Nat.dvd_refl increment)
  have kept : ∀ t, (e.tool t).stamp ≤ e'.version := fun t => Nat.le_trans (h.stamp t) (Nat.le_of_lt later)
  have same : ∀ e₁ : Engine, e₁.tools = e.tools → ∀ t, (e₁.tool t).stamp ≤ e'.version := fun e₁ tools t =>
    tool_congr e₁ e tools t ▸ kept t
  cases m with
  | events ok =>
    obtain ⟨v, raised, rfl⟩ := setEvents_ok ok
    exact ⟨raise raised h.multiple, (succVersion_eq raised).2, earlier, same _ rfl⟩
  | @cleared t _ ok =>
    obtain ⟨v₀, v, first, second, rfl⟩ := clearTool_ok ok
    have multiple : increment ∣ v₀ := by
      obtain rfl | first := first
      · exact h.multiple
      · exact raise first h.multiple
    refine ⟨raise second multiple, (succVersion_eq second).2, earlier, fun u => ?_⟩
    rw [stamp_clearTool ok]
    split
    · exact Nat.le_refl v
    · exact kept u
  | restarted ok =>
    obtain ⟨v₀, v, first, second, rfl⟩ := restart_ok ok
    exact ⟨raise second (raise first h.multiple), (succVersion_eq second).2, .inr (lt_of_succVersion second), same _ rfl⟩

end Engine

namespace CodeState

/-- Per tool, the stamp under which its events on this code object were enabled. -/
def stamps (s : CodeState) : Vector Nat 8 := (s.data.getD {}).stamps

theorem has_keptOwn (s : CodeState) (e : Engine) (ev t) :
    (LocalMonitors.get (s.keptOwn e) ev).has t = ((s.own ev).has t && s.stamps[t]? == e.stamps[t]?) := by
  rw [own_eq]
  exact has_dropStale ..

theorem stamps_of_outline {s s' : CodeState} (h : s'.outline = s.outline) : s'.stamps = s.stamps := by
  have data := congrArg Outline.data h
  simp only [outline] at data
  unfold stamps
  cases hs : s.data <;> cases hs' : s'.data <;> simp_all [MonitoringData.bare]

/-- The versions a code object keeps are in order with those of the engine. -/
structure Dated (e : Engine) (s : CodeState) : Prop where
  behind : s.version ≤ e.version
  restart : e.lastRestart ≠ 0 → s.version ≠ e.lastRestart
  stamps : ∀ v ∈ s.stamps, v ≤ e.version

theorem dated_ofCode (e code) : (ofCode code).Dated e where
  behind := Nat.zero_le _
  restart restarted := restarted.symm
  stamps v there := by
    obtain ⟨i, lt, rfl⟩ := Vector.getElem_of_mem there
    simp [CodeState.stamps, ofCode]

theorem Dated.alike {e e' : Engine} {s s' : CodeState} (h : s.Dated e) (engine : e.Alike e') (state : s.Alike s') :
    s'.Dated e' := by
  obtain ⟨changes, rfl⟩ := state
  refine ⟨engine.version ▸ h.behind, ?_, engine.version ▸ h.stamps⟩
  rw [engine.lastRestart]
  exact h.restart

/-- After a change of the events a code object is behind, and before the restart if it was one. -/
theorem Dated.govern {e e' : Engine} {s : CodeState} (h : s.Dated e) (m : e.Move e') : s.Dated e' := by
  have later := m.version_lt
  have stamps : ∀ v ∈ s.stamps, v ≤ e'.version := fun v there => Nat.le_trans (h.stamps v there) (Nat.le_of_lt later)
  refine ⟨Nat.le_trans h.behind (Nat.le_of_lt later), ?_, stamps⟩
  cases m with
  | events ok =>
    obtain ⟨v, -, rfl⟩ := Engine.setEvents_ok ok
    exact h.restart
  | cleared ok =>
    obtain ⟨v₀, v, -, -, rfl⟩ := Engine.clearTool_ok ok
    exact h.restart
  | restarted ok =>
    obtain ⟨v₀, v, first, -, rfl⟩ := Engine.restart_ok ok
    exact fun _ => Nat.ne_of_lt (Nat.lt_of_le_of_lt h.behind (Engine.lt_of_succVersion first))

/-- Bringing a code object in line leaves its stamps alone, and its version or sets it to the engine's. -/
theorem force_stamps (e : Engine) {s : CodeState} (formed : s.Formed code) : (e.force code s).1.stamps = s.stamps ∧
      ((e.force code s).1.version = s.version ∨ (e.force code s).1.version = e.version) := by
  cases monitored : code.noMonitoring with
  | true =>
    rw [Engine.force, if_pos monitored]
    exact ⟨rfl, .inl rfl⟩
  | false =>
    rw [force_eq e monitored]
    split
    · exact ⟨rfl, .inl rfl⟩
    · split
      · exact ⟨rfl, .inr rfl⟩
      · have outline := (cell_update rfl (sized_prepared e formed.sized) (s.alignment e)).1
        have stamps : ((s.prepared e code).update code (s.alignment e)).stamps = (s.prepared e code).stamps :=
          stamps_of_outline outline
        exact ⟨stamps, .inr rfl⟩

theorem Dated.force {e : Engine} {s : CodeState} (h : s.Dated e) (engine : e.Versioned) (formed : s.Formed code) :
    (e.force code s).1.Dated e := by
  obtain ⟨stamps, version⟩ := force_stamps e formed
  refine ⟨?_, fun restarted => ?_, stamps ▸ h.stamps⟩
  · obtain same | raised := version
    · exact same ▸ h.behind
    · exact Nat.le_of_eq raised
  · obtain same | raised := version
    · exact same ▸ h.restart restarted
    · exact raised ▸ Nat.ne_of_gt (engine.restart.resolve_left restarted)

theorem Dated.preset {e : Engine} {s : CodeState} (h : s.Dated e) (engine : e.Versioned) (own) {stamps}
    (known : s.Stamps e stamps) : (s.preset own stamps).Dated e := by
  refine ⟨h.behind, h.restart, fun v there => ?_⟩
  obtain old | ⟨t, rfl⟩ := known v there
  · exact h.stamps v old
  · exact engine.stamp t

theorem stamps_heed (s : CodeState) (code c) : (s.heed code c).stamps = s.stamps :=
  stamps_of_outline (s := { s with history := .answered c :: s.history }) (outline_heed s code c)

theorem Dated.move {e : Engine} {s s' : CodeState} (h : s.Dated e) (engine : e.Versioned) (formed : s.Formed code)
    (m : s.Move rule e code s') : s'.Dated e := by
  cases m with
  | forced => exact h.force engine formed
  | stamped stamps known => exact h.preset engine _ known
  | localSet own stamps known => exact (h.preset engine own known).force engine (formed.preset own stamps)
  | @answered c =>
    refine ⟨version_heed s code c ▸ h.behind, ?_, stamps_heed s code c ▸ h.stamps⟩
    rw [version_heed]
    exact h.restart

end CodeState

namespace World

/-- All versions in a world are in order. -/
structure Versioned (w : World) : Prop where
  engine : w.engine.Versioned
  dated : w.All fun e _ s => s.Dated e

theorem Versioned.move {w w' : World} (h : w.Versioned) (sound : w.All Sound) (m : Move rule w w') : w'.Versioned := by
  cases m with
  | quiet engine codes =>
    refine ⟨h.engine.alike engine, fun i lt => ?_⟩
    exact (h.dated i (codes.size ▸ lt)).alike engine (codes.entry i).state
  | govern moved codes =>
    refine ⟨h.engine.move moved, fun i lt => ?_⟩
    exact ((h.dated i (codes.size ▸ lt)).govern moved).alike (.refl _) (codes.entry i).state
  | @change _ i s lt moved engine codes =>
    refine ⟨engine ▸ h.engine, fun j j_lt => ?_⟩
    have alike := (codes.entry j).state
    rw [entry_modifyState] at alike
    rw [engine]
    split at alike
    · exact ((h.dated i lt).move h.engine (sound i lt).formed moved).alike (.refl _) alike
    · rw [codes.size, size_modifyState] at j_lt
      exact (h.dated j j_lt).alike (.refl _) alike
  | addCode spec =>
    refine ⟨h.engine, fun i lt => ?_⟩
    rw [entry_addCode]
    split
    · exact CodeState.dated_ofCode _ _
    · rw [size_addCode] at lt
      exact h.dated i (by omega)

theorem Versioned.moves (h : w.Versioned) (begun : w.engine.Begun) (sound : w.All Sound) (moved : Moves rule w w') :
    w'.Versioned := by
  induction moved with
  | refl => exact h
  | tail before m ih => exact ih.move ((invariant_sound rule).moves before begun sound).2 m

theorem Moves.version_le (moved : Moves rule w w') : w.engine.version ≤ w'.engine.version := by
  induction moved with
  | refl => exact Nat.le_refl _
  | tail _ m ih =>
    refine Nat.le_trans ih ?_
    cases m with
    | quiet engine _ => exact Nat.le_of_eq engine.version.symm
    | govern moved _ => exact Nat.le_of_lt moved.version_lt
    | change _ _ engine _ => exact Nat.le_of_eq (congrArg Engine.version engine.symm)
    | addCode spec => exact Nat.le_refl _

theorem versioned_new (callbacks) (log : Log MonitoringNote) : World.Versioned { callbacks, log } := by
  have fits : 0 < UInt32.size := by decide
  refine ⟨⟨Nat.dvd_zero _, fits, .inl rfl, fun t => ?_⟩, fun i lt => absurd lt (Nat.not_lt_zero i)⟩
  exact Nat.le_of_eq (congrArg Tool.stamp (Engine.tool_start t))

theorem versioned_after (specs callbacks threshold ops) : (after specs callbacks threshold ops).Versioned := by
  have sound : ({ callbacks := callbacks.toArray, log := { threshold } } : World).All Sound :=
    fun i lt => absurd lt (Nat.not_lt_zero i)
  have begun : Engine.Begun {} := fun _ ev => Monitors.mask_none _
  have moved : Moves .any _ (after specs callbacks threshold ops) :=
    moves_after specs callbacks threshold (Operation.allFireOnly_any ops)
  exact (versioned_new _ _).moves begun sound moved

end World

/-! ## Requests that are refused -/

namespace Act
variable {α β : Type}

/-- The operation may fault but is never refused. -/
def Granted (x : Act α) : Prop := ∀ w e w', x.exec w ≠ (.error (.refused e), w')

/-- The operation is refused before it has done anything. -/
def Guarded (x : Act α) : Prop := ∀ w e w', x.exec w = (.error (.refused e), w') → w' = w

theorem granted_pure (a : α) : Granted (pure a) := fun w e w' refused => by cases refused

theorem granted_modify (f : World → World) : Granted (modify f) := fun w e w' refused => by cases refused

theorem Granted.bind (first : Granted x) (rest : ∀ a, Granted (f a)) : Granted (x >>= f) := by
  intro w e w' refused
  rw [exec_bind] at refused
  rcases ran : x.exec w with ⟨why | a, w₁⟩
  · rw [ran] at refused
    obtain ⟨refused, -⟩ := Prod.mk.inj refused
    exact first w e w₁ (Except.error.inj refused ▸ ran)
  · rw [ran] at refused
    exact rest a w₁ e w' refused

theorem Granted.get (h : ∀ w, Granted (f w)) : Granted (get >>= f) := fun w => h w w

theorem granted_forM {l : List α} {f : α → Act Unit} (h : ∀ a, Granted (f a)) : Granted (l.forM f) := by
  induction l with
  | nil => exact granted_pure _
  | cons a rest ih => exact (h a).bind fun _ => ih

theorem granted_force (i) : Granted (force i) := by
  intro w e w' refused
  obtain ⟨changes, log, ran⟩ := exec_force i w
  rw [ran] at refused
  have failed := (Prod.mk.inj refused).1
  cases outcome : (w.engine.force (w.entry i).code (w.entry i).state).2 with
  | ok r =>
    rw [outcome] at failed
    cases failed
  | error why =>
    rw [outcome] at failed
    obtain rfl : why = .refused e := Except.error.inj failed
    unfold Engine.force at outcome
    split at outcome
    · cases outcome
    · split at outcome
      · cases outcome
      · dsimp only at outcome
        split at outcome <;> cases outcome

theorem granted_forceAll : Granted forceAll := by
  refine .get fun w => granted_forM fun i => .get fun w => ?_
  split
  · exact granted_force i
  · exact granted_pure _

theorem Guarded.get (h : ∀ w, Guarded (f w)) : Guarded (get >>= f) := fun w => h w w

/-- What comes before a check that is passed does nothing, what comes after it is not refused. -/
theorem Guarded.accept (h : ∀ a, Guarded (f a)) : Guarded (accept r >>= f) := by
  intro w e w' refused
  cases r with
  | error why => exact (Prod.mk.inj refused).2.symm
  | ok a => exact h a w e w' refused

theorem Granted.guarded (h : Granted x) : Guarded x := fun w e w' refused => absurd refused (h w e w')

theorem Guarded.bind (first : Guarded x) (rest : ∀ a, Granted (f a)) : Guarded (x >>= f) := by
  intro w e w' refused
  rw [exec_bind] at refused
  rcases ran : x.exec w with ⟨why | a, w₁⟩
  · rw [ran] at refused
    obtain ⟨failed, same⟩ := Prod.mk.inj refused
    exact same ▸ first w e w₁ (Except.error.inj failed ▸ ran)
  · rw [ran] at refused
    exact absurd refused (rest a w₁ e w')

theorem granted_govern (e n) : Granted (do setEngine e; modify (·.note .debug n); forceAll) :=
  (granted_modify _).bind fun _ => (granted_modify _).bind fun _ => granted_forceAll

theorem guarded_clear (tool) : Guarded (clear tool) :=
  .get fun _ => .accept fun e => (granted_govern e _).guarded

theorem guarded_clearTool (tool) : Guarded (clearTool tool) := by
  refine .accept fun _ => .get fun w => ?_
  split
  · exact guarded_clear tool
  · exact (granted_pure _).guarded

theorem guarded_freeTool (tool) : Guarded (freeTool tool) := by
  refine .accept fun _ => .get fun w => ?_
  split
  · exact (guarded_clear tool).bind fun _ => granted_modify _
  · exact (granted_modify _).guarded

theorem guarded_useTool (tool name) : Guarded (useTool tool name) :=
  .get fun _ => .accept fun _ => (granted_modify _).guarded

theorem guarded_register (tool events callback) : Guarded (register tool events callback) :=
  .get fun _ => .accept fun _ => ((granted_modify _).bind fun _ => granted_pure _).guarded

theorem guarded_setEvents (tool events) : Guarded (setEvents tool events) := by
  refine .get fun w => .accept fun r => ?_
  obtain ⟨given, _ | e⟩ := r
  · exact (granted_pure _).guarded
  · exact (granted_govern e _).guarded

theorem guarded_setLocal (i tool events) : Guarded (setLocal i tool events) := by
  refine .get fun w => .accept fun events => (Granted.bind (granted_modify _) fun _ => ?_).guarded
  dsimp only
  split
  · exact granted_modify _
  · exact (granted_modify _).bind fun _ => (granted_modify _).bind fun _ => granted_force i

theorem guarded_restart : Guarded restart :=
  .get fun _ => .accept fun e => (granted_govern e _).guarded

theorem granted_instrument (i) : Granted (instrument i) := by
  refine .get fun w => ?_
  split
  · exact (granted_modify _).bind fun _ => granted_force i
  · exact granted_pure _

end Act

/-- The operation is one request: installing a tool and restarting several times are several. -/
def Control.isRequest : Control → Bool
  | .install .. => false
  | .restart times => decide (times ≤ 1)
  | _ => true

namespace World
variable {w : World} {e : MonitoringError}

theorem answer_of_refused (guarded : act.Guarded) (answers : ∀ a why, reply a ≠ .failed why)
    (refused : (w.answer act reply).2 = .failed (.refused e)) : (w.answer act reply).1 = w := by
  rw [answer_eq] at refused ⊢
  rcases ran : act.exec w with ⟨why | a, w'⟩
  · rw [ran] at refused
    exact guarded w e w' (Reply.failed.inj refused ▸ ran)
  · rw [ran] at refused
    exact absurd refused (answers a _)

theorem restartTimes_of_refused (once : times ≤ 1) (refused : (restartTimes times w).2 = .failed (.refused e)) :
    (restartTimes times w).1 = w := by
  obtain rfl | rfl := Nat.le_one_iff_eq_zero_or_eq_one.1 once
  · unfold restartTimes at refused
    split at refused <;> cases refused
  · unfold restartTimes at refused ⊢
    split
    next alone =>
      rw [if_pos alone] at refused
      unfold Engine.restartTimes at refused ⊢
      cases restarted : w.engine.restart with
      | ok e' =>
        rw [restarted] at refused
        cases refused
      | error why => rfl
    next tracked =>
      rw [if_neg tracked] at refused
      have once : (w.answer Act.restart fun _ => .done).2 = .failed (.refused e) →
          (w.answer Act.restart fun _ => .done).1 = w :=
        answer_of_refused Act.guarded_restart fun _ _ same => by cases same
      revert refused
      unfold restartEach
      split
      next => exact fun refused => by cases refused
      next answered =>
        rw [answered] at once
        exact once

theorem control_of_refused (single : c.isRequest = true) (refused : (w.control c).2 = .failed (.refused e)) :
    (w.control c).1 = w := by
  have accepted : ∀ {α : Type} (r : Except MonitoringError α), (Act.accept r).Guarded := fun r w e w' failed => by
    cases r with
    | error why => exact (Prod.mk.inj failed).2.symm
    | ok a => cases failed
  cases c with
  | useTool tool name => exact answer_of_refused (Act.guarded_useTool tool name) (fun _ _ same => by cases same) refused
  | clearTool tool => exact answer_of_refused (Act.guarded_clearTool tool) (fun _ _ same => by cases same) refused
  | freeTool tool => exact answer_of_refused (Act.guarded_freeTool tool) (fun _ _ same => by cases same) refused
  | getTool tool => exact answer_of_refused (accepted _) (fun _ _ same => by cases same) refused
  | register tool events callback =>
    exact answer_of_refused (Act.guarded_register tool events callback) (fun _ _ same => by cases same) refused
  | setEvents tool events =>
    exact answer_of_refused (Act.guarded_setEvents tool events) (fun _ _ same => by cases same) refused
  | getEvents tool => exact answer_of_refused (accepted _) (fun _ _ same => by cases same) refused
  | setLocal code tool events =>
    exact answer_of_refused (Act.guarded_setLocal code tool events) (fun _ _ same => by cases same) refused
  | getLocal code tool =>
    have guarded : (Act.getLocal code tool).Guarded := .accept fun _ => .get fun w => (Act.granted_pure _).guarded
    exact answer_of_refused guarded (fun _ _ same => by cases same) refused
  | restart times => exact restartTimes_of_refused (of_decide_eq_true single) refused
  | install tool name events callback => cases single
  | instrument code =>
    exact answer_of_refused (Act.granted_instrument code).guarded (fun _ _ same => by cases same) refused
  | addCallback _ | dropCode _ | addCode _ | report _ _ _ | allEvents | versions | dump _ | describe => cases refused

end World

/-- After any history the version is a multiple of the increment that fits in 32 bits, and it never falls. The version of the
last restart is below it and no code object is at it; no stamp and no code object is ahead. And a request that is refused, for
whatever reason and whenever it is made, leaves the engine, the callbacks and the code objects as they were. -/
theorem version_protocol (specs : List CodeSpec) (callbacks : List Callback) (threshold : Level) (ops : List Operation) :
    let w := World.after specs callbacks threshold ops
    (Engine.increment ∣ w.engine.version ∧ w.engine.version < UInt32.size ∧
        ∀ later, w.engine.version ≤ (w.performAll later).1.engine.version) ∧
      (w.engine.lastRestart = 0 ∨ w.engine.lastRestart < w.engine.version) ∧
      (∀ t, (w.engine.tool t).stamp ≤ w.engine.version) ∧
      (∀ i < w.codes.size, (w.entry i).state.version ≤ w.engine.version ∧
        (∀ v ∈ (w.entry i).state.stamps, v ≤ w.engine.version) ∧
        (w.engine.lastRestart ≠ 0 → (w.entry i).state.version ≠ w.engine.lastRestart)) ∧
      ∀ (now : World) (c : Control) (e : MonitoringError), c.isRequest = true →
        (now.control c).2 = .failed (.refused e) → (now.control c).1 = now := by
  intro w
  have versioned : w.Versioned := World.versioned_after specs callbacks threshold ops
  refine ⟨⟨versioned.engine.multiple, versioned.engine.fits, fun later => ?_⟩, versioned.engine.restart,
    versioned.engine.stamp, fun i lt => ?_, fun now c e => World.control_of_refused⟩
  · have moved : World.Moves .any w (w.performAll later).1 := World.moves_performAll w later (Operation.allFireOnly_any later)
    exact moved.version_le
  · have dated := versioned.dated i lt
    exact ⟨dated.behind, dated.stamps, dated.restart⟩

/-- A tool watches calls in one code object, which is stepped over, and events are restarted. -/
def restartedOnce : List Operation :=
  [.control (.useTool 0 "tool"), .control (.setEvents 0 (EventSet.single .call)), .thread 0 (.step 0 1 none false),
    .control (.restart 1)]

def callRestarted : World :=
  World.after [{ steps := [.emit .resume (.literal 0), .emit .call (.literal 0)] }] [] .error restartedOnce

/-- The code object is not at the version of the restart, and the tool id is not given away twice. -/
theorem version_protocol_restarted :
    callRestarted.engine.lastRestart = 0x200 ∧
      (callRestarted.entry 0).state.version ≠ callRestarted.engine.lastRestart ∧
      (callRestarted.control (.useTool 0 "other")).1 = callRestarted := by
  have taken : (callRestarted.engine.tool 0).name.isSome = true := by decide +kernel
  have refused : callRestarted.engine.useTool 0 "other" = .error (.toolInUse 0) := by
    rw [Engine.useTool, if_pos taken]
    rfl
  have answer : (callRestarted.control (.useTool 0 "other")).2 = .failed (.refused (.toolInUse 0)) := by
    rw [World.control, World.answer_eq, Act.useTool, Act.exec_bind, Act.exec_get]
    dsimp only
    rw [refused]
    rfl
  have protocol := version_protocol [{ steps := [.emit .resume (.literal 0), .emit .call (.literal 0)] }] [] .error restartedOnce
  rw [← callRestarted] at protocol
  obtain ⟨-, -, -, codes, requests⟩ := protocol
  refine ⟨by decide +kernel, ?_, requests callRestarted (.useTool 0 "other") _ rfl answer⟩
  exact (codes 0 (by decide +kernel)).2.2 (by decide +kernel)

end MonitoredVm
