import MonitoredVm.Proofs.OpcodeCalls
import MonitoredVm.Proofs.Registrations
import MonitoredVm.Proofs.Restart
import MonitoredVm.Proofs.Versions

/-!
# Clearing tools

A tool that is cleared loses its callbacks and its events for all code at once. Its own events live in the code objects and
are dropped as these are brought in line, which shows in the stamps: own events are only enabled on code objects that the
engine keeps in line, and under the stamp that their tool has at the time (`CodeEntry.Booked`).

Main statement: what clearing takes away, also where it happens within an operation, and what it leaves to the other tools.
On code that is not monitored nothing is ever brought in line, and own events stay there.
-/

namespace MonitoredVm

open ToolMask CodeState

theorem Event.exists_id {id} (lt : id < 19) : ∃ e : Event, e.id = id := by
  have all : ∀ id < 19, ((Event.ofId? id).map Event.id) = some id := by decide
  obtain ⟨e, -, same⟩ := Option.map_eq_some_iff.1 (all id lt)
  exact ⟨e, same⟩

namespace Engine

theorem getElem?_stamps (e : Engine) (lt : t < 8) : e.stamps[t]? = some (e.tool t).stamp := by
  simp [stamps, tool, lt]

theorem Alike.force_eq {e e' : Engine} (same : e.Alike e') (code s) : e'.force code s = e.force code s := by
  unfold force
  rw [same.globals, same.stamps, same.version, same.lastRestart]

end Engine

namespace CodeState

theorem eventsOf_eq_iff {s s' : CodeState} :
    s'.eventsOf t = s.eventsOf t ↔ ∀ ev, (s'.own ev).has t = (s.own ev).has t := by
  rw [eventsOf, eventsOf, Monitors.eventsFor_eq_iff (by decide) (by decide)]
  refine ⟨fun same ev => ?_, fun same id => ?_⟩
  · rw [own_eq, own_eq]
    exact same ev.id
  · by_cases lt : id < 11
    · obtain ⟨ev, rfl⟩ := Event.exists_id (Nat.lt_trans lt (by decide))
      have there := same ev
      rwa [own_eq, own_eq] at there
    · rw [Monitors.mask_of_ge _ (Nat.le_of_not_lt lt), Monitors.mask_of_ge _ (Nat.le_of_not_lt lt)]

theorem eventsOf_eq_zero {s : CodeState} (none_there : ∀ ev, (s.own ev).has t = false) : s.eventsOf t = 0 := by
  refine Monitors.eventsFor_eq_zero fun id => ?_
  by_cases lt : id < 11
  · obtain ⟨ev, rfl⟩ := Event.exists_id (Nat.lt_trans lt (by decide))
    have there := none_there ev
    rwa [own_eq] at there
  · rw [Monitors.mask_of_ge _ (Nat.le_of_not_lt lt)]
    exact has_zero t

/-- Of its own events a code object that is brought in line keeps those under the engine's stamps. -/
theorem Formed.own_force (h : s.Formed code) (grid : code.OnGrid) (monitored : code.noMonitoring = false) (e : Engine)
    (ev) : (e.force code s).1.own ev = LocalMonitors.get (s.keptOwn e) ev := by
  rcases force_cases e monitored grid h.sized h.lined with ⟨-, r⟩ | ⟨-, f⟩
  · exact r.own ev
  · exact f.own ev

end CodeState

/-- Own events are enabled on code objects that are kept in line, and on one that is up to date under the stamps that their
tools have. -/
structure CodeEntry.Booked (e : Engine) (x : CodeEntry) : Prop where
  tracked : x.tracked = false → ∀ ev, x.state.own ev = 0
  stamped : x.code.noMonitoring = false → x.state.version = e.version → ∀ t ev, (x.state.own ev).has t = true →
    x.state.stamps[t]? = e.stamps[t]?

namespace CodeEntry.Booked
variable {e e' : Engine} {x : CodeEntry}

theorem unwatched (e) (none_there : ∀ ev, x.state.own ev = 0) : x.Booked e where
  tracked _ := none_there
  stamped _ _ t ev has := by
    rw [none_there ev] at has
    simp at has

theorem alike (h : x.Booked e) (same : e.Alike e') : x.Booked e' where
  tracked := h.tracked
  stamped monitored current t ev has := by
    rw [same.stamps]
    exact h.stamped monitored (current.trans same.version) t ev has

theorem govern (h : x.Booked e) (m : e.Move e') (behind : x.state.version ≤ e.version) : x.Booked e' where
  tracked := h.tracked
  stamped _ current := by
    have raised := m.version_lt
    omega

theorem force {s changes} (formed : s.Formed x.code) (grid : x.code.OnGrid)
    (tracked : x.tracked = false → ∀ ev, s.own ev = 0) :
    { x with state := { (e.force x.code s).1 with changes } }.Booked e := by
  cases monitored : x.code.noMonitoring with
  | true =>
    refine ⟨fun untracked ev => ?_, fun watched => ?_⟩
    · rw [Engine.force, if_pos monitored]
      exact tracked untracked ev
    · cases monitored.symm.trans watched
  | false =>
    have own : ∀ ev, (e.force x.code s).1.own ev = LocalMonitors.get (s.keptOwn e) ev := formed.own_force grid monitored e
    refine ⟨fun untracked ev => (own ev).trans ?_, fun _ _ t ev has => ?_⟩
    · apply ext_has
      intro t
      rw [has_keptOwn, tracked untracked ev]
      simp
    · have kept : (LocalMonitors.get (s.keptOwn e) ev).has t = true := (own ev).symm ▸ has
      rw [has_keptOwn] at kept
      have stamps : (e.force x.code s).1.stamps = s.stamps := (force_stamps e formed).1
      exact (congrArg (·[t]?) stamps).trans (beq_iff_eq.1 (Bool.and_eq_true_iff.1 kept).2)

theorem restamped (h : x.Booked e) (tracked : x.tracked = true) (t) :
    { x with state := x.state.restamped e t }.Booked e where
  tracked untracked := nomatch tracked.symm.trans untracked
  stamped monitored current u ev has := by
    have own : (x.state.restamped e t).own ev = x.state.own ev := by
      rw [own_eq, own_eq]
      rfl
    have stamps : (x.state.restamped e t).stamps = x.state.stamps.setIfInBounds t (e.tool t).stamp := rfl
    rw [own] at has
    rw [stamps, Vector.getElem?_setIfInBounds]
    have lt := lt_of_has has
    split
    next same =>
      subst same
      rw [if_pos lt, Engine.getElem?_stamps _ lt]
    next => exact h.stamped monitored current u ev has

theorem heed (h : x.Booked e) (c) {changes} : { x with state := { x.state.heed x.code c with changes } }.Booked e where
  tracked untracked ev := (own_heed ..).trans (h.tracked untracked ev)
  stamped monitored current t ev has := by
    have own := own_heed x.state x.code c ev
    have stamps := stamps_heed x.state x.code c
    have version := version_heed x.state x.code c
    exact (congrArg (·[t]?) stamps).trans (h.stamped monitored (version.symm.trans current) t ev (own ▸ has))

end CodeEntry.Booked

namespace World
variable {p : Policy} {rule : Rule} {w w' : World}

/-- Own events are in order on every code object. -/
def Booked (w : World) : Prop := ∀ i, (w.entry i).Booked w.engine

theorem Booked.modifyState (h : w.Booked) (here : i < w.codes.size → { w.entry i with state := s }.Booked w.engine) :
    (w.modifyState i fun _ => s).Booked := by
  intro j
  rw [entry_modifyState]
  split
  next there => exact here there.2
  next => exact h j

theorem Booked.modifyEntry (h : w.Booked) (i : Nat)
    (kept : (w.entry i).Booked w.engine → (f (w.entry i)).Booked w.engine) : (w.modifyEntry i f).Booked := by
  intro j
  rw [entry_modifyEntry]
  split
  next => exact kept (h i)
  next => exact h j

theorem Booked.effect (h : w.Booked) (versioned : w.Versioned) (sound : w.All Sound) (one : w.Effect p rule w') :
    w'.Booked := by
  have alike : ∀ {e : Engine}, w.engine.Alike e → Booked { w with engine := e } := fun same i => (h i).alike same
  cases one with
  | aside engine codes =>
    intro i
    have same : w'.entry i = w.entry i := by rw [entry, entry, codes]
    rw [engine, same]
    exact h i
  | heard | addCallback => exact h
  | named t name => exact alike (w.engine.alike_named t name)
  | registered _ ok => exact alike (Engine.alike_register ok)
  | unregistered t event => exact alike (w.engine.alike_unregister t event)
  | governed m =>
    intro i
    refine (h i).govern m ?_
    by_cases lt : i < w.codes.size
    · exact (versioned.dated i lt).behind
    · rw [entry_of_ge (Nat.le_of_not_lt lt)]
      exact Nat.zero_le _
  | addCode spec =>
    intro i
    rw [entry_addCode]
    split
    next => exact .unwatched _ fun _ => rfl
    next => exact h i
  | tracked i =>
    refine h.modifyEntry i fun booked => ⟨fun untracked => ?_, booked.stamped⟩
    cases untracked
  | dropped i => exact h.modifyEntry i fun booked => ⟨booked.tracked, booked.stamped⟩
  | forced changes lt =>
    exact h.modifyState fun _ => .force (sound _ lt).formed (sound _ lt).grid (h _).tracked
  | restamped _ tracked => exact h.modifyState fun _ => (h _).restamped tracked _
  | assigned changes lt tracked =>
    refine h.modifyState fun _ => .force ((sound _ lt).formed.preset _ _) (sound _ lt).grid fun untracked => ?_
    cases tracked.symm.trans untracked
  | noted => exact h.modifyState fun _ => (h _).heed _

/-- The world comes up in a history, between operations or while one is under way. -/
def Arises (w : World) : Prop := ∃ callbacks log, Effects .any Rule.any { callbacks, log } w

namespace Arises

theorem effects (h : w.Arises) (more : Effects .any Rule.any w w') : w'.Arises := by
  obtain ⟨callbacks, log, before⟩ := h
  exact ⟨callbacks, log, before.trans more⟩

theorem versioned (h : w.Arises) : w.Versioned := by
  obtain ⟨callbacks, log, effects⟩ := h
  exact (versioned_new callbacks log).moves (fun _ ev => Monitors.mask_none _) (fun i lt => absurd lt (Nat.not_lt_zero i))
    effects.moves

theorem codes (h : w.Arises) : w.All fun e code s => Sound e code s ∧ s.Hushed code := by
  obtain ⟨callbacks, log, effects⟩ := h
  exact ((invariant_hushed _).moves effects.moves (fun _ ev => Monitors.mask_none _)
    fun i lt => absurd lt (Nat.not_lt_zero i)).2

theorem booked (h : w.Arises) : w.Booked := by
  obtain ⟨callbacks, log, effects⟩ := h
  induction effects with
  | refl => exact fun i => .unwatched _ fun _ => rfl
  | tail before one ih =>
    have there : Arises _ := ⟨callbacks, log, before⟩
    exact ih.effect there.versioned (fun i lt => (there.codes i lt).1) one

end Arises

theorem Reached.arises (reached : w.Reached fun _ => true) : w.Arises := by
  obtain ⟨specs, callbacks, threshold, ops, loose, rfl⟩ := reached
  have started : Effects .any Rule.any _ (start specs callbacks threshold) := effects_start specs callbacks threshold
  exact ⟨_, _, started.trans (Discipline.any.conduct.performAll ops loose (fun _ _ => trivial) trivial)⟩

end World

/-- The tool `t` is gone from the engine but for its name; the other tools are as they were. -/
structure Engine.Clears (t : Nat) (e e' : Engine) : Prop where
  version : e.version < e'.version
  lastRestart : e'.lastRestart = e.lastRestart
  mask : ∀ id, e'.globals.mask id = (e.globals.mask id).without (ToolMask.single t)
  stamp : (e'.tool t).stamp = e'.version
  callable : ∀ ev, e'.callable t ev = none
  others : ∀ u, u ≠ t → e'.tool u = e.tool u

theorem Engine.clears_of_clearTool {e : Engine} (ok : e.clearTool t = .ok e') (lt : t < 8) : e.Clears t e' := by
  have tool := tool_clearTool ok
  have gone := tool t
  rw [if_pos ⟨rfl, lt⟩] at gone
  refine ⟨(Move.cleared ok).version_lt, ?_, fun id => ?_, ?_, fun ev => ?_, fun u other => ?_⟩
  · obtain ⟨v₀, v, -, -, rfl⟩ := clearTool_ok ok
    rfl
  · obtain ⟨v₀, v, -, -, rfl⟩ := clearTool_ok ok
    exact Monitors.mask_setEvents_zero ..
  · rw [gone]
  · rw [callable, gone]
    exact Tool.callback_blank ..
  · rw [tool u, if_neg fun same => other same.1]

theorem Engine.Clears.named {e e' : Engine} (h : e.Clears t e') (name) :
    e.Clears t (e'.modifyTool t fun tool => { tool with name }) := by
  have tool := e'.tool_modifyTool t
  refine ⟨h.version, h.lastRestart, h.mask, ?_, fun ev => ?_, fun u other => ?_⟩
  · rw [tool]
    split
    · exact h.stamp
    · exact h.stamp
  · rw [Engine.callable, tool]
    split
    · exact h.callable ev
    · exact h.callable ev
  · rw [tool, if_neg fun same => other same.1]
    exact h.others u other

namespace Act

theorem exec_clear_ok (ok : (clear t).exec w = (.ok (), w')) :
    ∃ e log, w.engine.clearTool t = .ok e ∧ Forced w'.trackedCodes { w with engine := e, log } w' := by
  unfold clear at ok
  rw [exec_bind, exec_get] at ok
  obtain ⟨e, w₁, accepted, governed⟩ := exec_bind_ok ok
  obtain ⟨cleared, rfl⟩ := exec_accept_ok accepted
  obtain ⟨log, forced⟩ := exec_govern_ok governed
  exact ⟨e, log, cleared, forced⟩

end Act

namespace World
variable {w w' : World} {t : Nat}

/-- The tool `t` is cleared: every code object that is alive and kept in line is brought in line with what is left. -/
structure Clears (t : Nat) (w w' : World) : Prop where
  engine : w.engine.Clears t w'.engine
  code : ∀ c, (w'.entry c).code = (w.entry c).code
  untouched : ∀ c, ¬ ((w.entry c).tracked = true ∧ w.isAlive c = true) → (w'.entry c).state = (w.entry c).state
  forced : ∀ c, (w.entry c).tracked = true → w.isAlive c = true →
    (∃ r, (w'.engine.force (w.entry c).code (w.entry c).state).2 = .ok r) ∧
      (w'.engine.force (w.entry c).code (w.entry c).state).1.Alike (w'.entry c).state

theorem lt_of_tracked (tracked : (w.entry c).tracked = true) : c < w.codes.size :=
  Nat.lt_of_not_le fun beyond => by
    rw [entry_of_ge beyond] at tracked
    cases tracked

theorem mem_trackedCodes : c ∈ w.trackedCodes ↔ (w.entry c).tracked = true ∧ w.isAlive c = true := by
  rw [trackedCodes, List.mem_filter, List.mem_range, Bool.and_eq_true]
  exact and_iff_right_of_imp fun here => lt_of_tracked here.1

theorem clears_of_exec (versioned : w.Versioned) (lt : t < 8) (ok : (Act.clear t).exec w = (.ok (), w')) : w.Clears t w' := by
  obtain ⟨e, log, cleared, forced⟩ := Act.exec_clear_ok ok
  have engine : w'.engine = e := forced.engine
  have clears := Engine.clears_of_clearTool cleared lt
  have tracked : w'.trackedCodes = w.trackedCodes := forced.trackedCodes_eq
  refine ⟨engine ▸ clears, forced.code, fun c other => forced.others c ?_, fun c here alive => ?_⟩
  · rwa [tracked, mem_trackedCodes]
  · have mem : c ∈ w'.trackedCodes := by
      rw [tracked]
      exact mem_trackedCodes.2 ⟨here, alive⟩
    have there := lt_of_tracked here
    rw [engine]
    refine forced.state c mem there fun current => ?_
    have behind := (versioned.dated c there).behind
    exact Nat.not_le_of_lt clears.version (current ▸ behind)

theorem clears_of_done (versioned : w.Versioned) (inUse : (w.engine.tool t).name.isSome = true)
    (clears : op = .clearTool t ∨ op = .freeTool t) (done : w.control op = (w', .done)) : t < 6 ∧ w.Clears t w' := by
  have checked : ∀ {w₁}, (Act.accept (Engine.checkTool t)).exec w = (.ok (), w₁) → t < 6 ∧ w₁ = w := by
    intro w₁ accepted
    obtain ⟨valid, rfl⟩ := Act.exec_accept_ok accepted
    unfold Engine.checkTool at valid
    split at valid
    · exact ⟨‹_›, rfl⟩
    · cases valid
  obtain rfl | rfl := clears
  · have ok : (Act.clearTool t).exec w = (.ok (), w') := exec_of_answer_done done
    obtain ⟨_, w₁, accepted, rest⟩ := Act.exec_bind_ok ok
    obtain ⟨lt, rfl⟩ := checked accepted
    rw [Act.exec_bind, Act.exec_get] at rest
    dsimp only at rest
    rw [if_pos inUse] at rest
    exact ⟨lt, clears_of_exec versioned (Nat.lt_trans lt (by decide)) rest⟩
  · have ok : (Act.freeTool t).exec w = (.ok (), w') := exec_of_answer_done done
    obtain ⟨_, w₁, accepted, rest⟩ := Act.exec_bind_ok ok
    obtain ⟨lt, rfl⟩ := checked accepted
    rw [Act.exec_bind, Act.exec_get] at rest
    dsimp only at rest
    rw [if_pos inUse] at rest
    obtain ⟨_, w₂, cleared, released⟩ := Act.exec_bind_ok rest
    obtain ⟨-, rfl⟩ := Prod.mk.inj released
    have clears := clears_of_exec versioned (Nat.lt_trans lt (by decide)) cleared
    refine ⟨lt, clears.engine.named none, clears.code, clears.untouched, fun c tracked alive => ?_⟩
    rw [(w₂.engine.alike_named t none).force_eq]
    exact clears.forced c tracked alive

end World

namespace Engine.Clears
variable {e e' : Engine} {t u : Nat}

theorem has_mask (h : e.Clears t e') (id u) :
    (e'.globals.mask id).has u = ((e.globals.mask id).has u && decide (u ≠ t)) := by
  rw [h.mask, has_without, has_single]
  cases has : (e.globals.mask id).has u with
  | false => rfl
  | true =>
    have lt := lt_of_has has
    by_cases same : u = t
    · subst same
      simp [lt]
    · simp [same, Ne.symm same]

variable {code : Code} {s : CodeState}

theorem has_keptOwn_self (h : e.Clears t e') (dated : s.Dated e) (ev) :
    (LocalMonitors.get (s.keptOwn e') ev).has t = false := by
  rw [has_keptOwn]
  cases has : (s.own ev).has t with
  | false => rfl
  | true =>
    have lt := lt_of_has has
    rw [Engine.getElem?_stamps _ lt, h.stamp, Vector.getElem?_eq_getElem lt]
    have before := dated.stamps _ (Vector.getElem_mem lt)
    have later := h.version
    simp only [Bool.true_and, beq_eq_false_iff_ne, ne_eq, Option.some.injEq]
    omega

theorem has_keptOwn (h : e.Clears t e') (other : u ≠ t) (ev) :
    (LocalMonitors.get (s.keptOwn e') ev).has u = (LocalMonitors.get (s.keptOwn e) ev).has u := by
  rw [CodeState.has_keptOwn, CodeState.has_keptOwn]
  cases has : (s.own ev).has u with
  | false => rfl
  | true =>
    have lt := lt_of_has has
    rw [Engine.getElem?_stamps _ lt, Engine.getElem?_stamps _ lt, h.others u other]

theorem has_active (h : e.Clears t e') (other : u ≠ t) (r : s.Realigned e' code s') (isLocal : ev.isLocal = true) :
    (s'.active ev).has u =
      ((GlobalMonitors.get e.globals ev).has u || (LocalMonitors.get (s.keptOwn e) ev).has u) := by
  rw [r.active, after_alignment s e' isLocal, has_or, h.has_keptOwn other, GlobalMonitors.get, h.has_mask]
  simp [other, GlobalMonitors.get]

end Engine.Clears

theorem CodeEntry.Booked.has_keptOwn {e : Engine} {x : CodeEntry} (h : x.Booked e)
    (monitored : x.code.noMonitoring = false) (current : x.state.version = e.version) (u ev) :
    (LocalMonitors.get (x.state.keptOwn e) ev).has u = (x.state.own ev).has u := by
  rw [CodeState.has_keptOwn]
  cases has : (x.state.own ev).has u with
  | false => rfl
  | true =>
    rw [h.stamped monitored current u ev has]
    simp

namespace Engine.Clears
variable {e e' : Engine} {t u : Nat} {x : CodeEntry}

/-- A code object that is brought in line after the clearing has of another tool the own events that it has when it is
brought up to date without. -/
theorem has_own (h : e.Clears t e') (other : u ≠ t) (sound : Sound e x.code x.state) (booked : x.Booked e)
    (monitored : x.code.noMonitoring = false) (lines : (LineTable.build x.code).isSome = true) (ev) :
    ((e'.force x.code x.state).1.own ev).has u = ((x.state.upToDate e x.code).own ev).has u := by
  obtain ⟨-, r'⟩ := sound.formed.force_realigned sound.grid monitored lines e'
  rw [r'.own, h.has_keptOwn other]
  obtain ⟨current, same⟩ | ⟨-, -, same, r⟩ := sound.upToDate monitored lines
  · rw [same, booked.has_keptOwn monitored current]
  · rw [same, r.own]

theorem has_stepTools (h : e.Clears t e') (other : u ≠ t) (versioned : e.Versioned) (sound : Sound e x.code x.state)
    (hushed : x.state.Hushed x.code) (booked : x.Booked e) (monitored : x.code.noMonitoring = false)
    (lines : (LineTable.build x.code).isSome = true) (event : x.code.eventAt .opcode i = some ev) :
    ((e'.force x.code x.state).1.stepTools e'.globals .opcode i ev).has u =
      ((x.state.upToDate e x.code).stepTools e.globals .opcode i ev).has u := by
  have isLocal := Code.isLocal_eventAt event
  obtain ⟨-, r'⟩ := sound.formed.force_realigned sound.grid monitored lines e'
  rw [r'.has_stepTools sound.formed hushed e.globals e'.globals event, h.has_active other r' isLocal, h.lastRestart]
  obtain ⟨current, same⟩ | ⟨-, -, same, r⟩ := sound.upToDate monitored lines
  · -- nothing was restarted since, and of other tools nothing becomes active or stops being so
    have going_on : ¬ x.state.version < e.lastRestart := by
      have restart := versioned.restart
      omega
    have enabled : (x.state.active ev).has u =
        ((GlobalMonitors.get e.globals ev).has u || (LocalMonitors.get (x.state.keptOwn e) ev).has u) := by
      rw [sound.step.active monitored current (fun _ => lines) ev isLocal, CodeState.enabled, has_or,
        booked.has_keptOwn monitored current]
    have tame := (sound.formed.tame event).calls_le (t := u)
    rw [← x.state.stepTools_opcode e.globals i isLocal] at tame
    rw [same, ← enabled, decide_eq_false going_on]
    cases called : (x.state.stepTools e.globals .opcode i ev).has u with
    | true => simp [tame called]
    | false => simp
  · rw [same, r.has_stepTools sound.formed hushed e.globals e.globals event, r.active,
      after_alignment x.state e isLocal, has_or]

end Engine.Clears

namespace World

theorem getEvents_eq (w : World) (t) : (w.control (.getEvents t)).2 =
    if t < 6 then .events (w.engine.globals.eventsFor t) else .failed (.refused (.invalidTool t)) := by
  rw [control, answer_eq, Act.exec_accept, Engine.events, Engine.checkTool]
  by_cases lt : t < Engine.reservedFrom
  · rw [if_pos lt, if_pos (show t < 6 from lt)]
    rfl
  · rw [if_neg lt, if_neg (show ¬ t < 6 from lt)]
    rfl

theorem getLocal_eq (w : World) (c t) : (w.control (.getLocal c t)).2 =
    if t < 6 then .events ((w.entry c).state.eventsOf t) else .failed (.refused (.invalidTool t)) := by
  have read : ((w.entry c).state.data.map (·.own.eventsFor t)).getD 0 = (w.entry c).state.eventsOf t := by
    cases data : (w.entry c).state.data with
    | none =>
      refine (Monitors.eventsFor_eq_zero fun id => ?_).symm
      simp [data]
    | some d => simp [CodeState.eventsOf, data]
  rw [control, answer_eq, Act.getLocal, Act.exec_bind, Act.exec_accept, Engine.checkTool]
  by_cases lt : t < Engine.reservedFrom
  · rw [if_pos lt, if_pos (show t < 6 from lt), ← read]
    rfl
  · rw [if_neg lt, if_neg (show ¬ t < 6 from lt)]

namespace Clears
variable {w w' : World} {t u c : Nat}

theorem getEvents_self (h : w.Clears t w') (valid : t < 6) : (w'.control (.getEvents t)).2 = .events 0 := by
  rw [getEvents_eq, if_pos valid, Monitors.eventsFor_eq_zero fun id => ?_]
  rw [h.engine.has_mask]
  simp

theorem getEvents_other (h : w.Clears t w') (other : u ≠ t) :
    (w'.control (.getEvents u)).2 = (w.control (.getEvents u)).2 := by
  have same : w'.engine.globals.eventsFor u = w.engine.globals.eventsFor u := by
    rw [Monitors.eventsFor_eq_iff (by decide) (by decide)]
    intro id
    rw [h.engine.has_mask]
    simp [other]
  rw [getEvents_eq, getEvents_eq, same]

theorem getLocal_self (h : w.Clears t w') (arises : w.Arises) (valid : t < 6) (alive : w.isAlive c = true)
    (monitored : (w.entry c).code.noMonitoring = false) : (w'.control (.getLocal c t)).2 = .events 0 := by
  rw [getLocal_eq, if_pos valid, eventsOf_eq_zero fun ev => ?_]
  by_cases tracked : (w.entry c).tracked = true
  · have lt := lt_of_tracked tracked
    have sound := (arises.codes c lt).1
    obtain ⟨-, changes, same⟩ := h.forced c tracked alive
    have own := sound.formed.own_force sound.grid monitored w'.engine ev
    rw [same]
    exact (congrArg (ToolMask.has · t) own).trans (h.engine.has_keptOwn_self (arises.versioned.dated c lt) ev)
  · rw [h.untouched c fun both => tracked both.1, (arises.booked c).tracked (Bool.eq_false_iff.2 tracked) ev]
    exact has_zero t

theorem getLocal_unmonitored (h : w.Clears t w') (unmonitored : (w.entry c).code.noMonitoring = true) :
    (w'.control (.getLocal c u)).2 = (w.control (.getLocal c u)).2 := by
  have same : (w.entry c).state.Alike (w'.entry c).state := by
    by_cases kept : (w.entry c).tracked = true ∧ w.isAlive c = true
    · have forced := (h.forced c kept.1 kept.2).2
      rwa [Engine.force, if_pos unmonitored] at forced
    · rw [h.untouched c kept]
      exact .refl _
  obtain ⟨changes, same⟩ := same
  rw [getLocal_eq, getLocal_eq, same]
  rfl

theorem upToDate (h : w.Clears t w') (arises : w.Arises) (lt : c < w.codes.size)
    (monitored : (w.entry c).code.noMonitoring = false) (lines : (LineTable.build (w.entry c).code).isSome = true) :
    (w'.engine.force (w.entry c).code (w.entry c).state).1.Alike
      ((w'.entry c).state.upToDate w'.engine (w'.entry c).code) := by
  have sound := (arises.codes c lt).1
  unfold CodeState.upToDate
  by_cases kept : (w.entry c).tracked = true ∧ w.isAlive c = true
  · obtain ⟨-, changes, same⟩ := h.forced c kept.1 kept.2
    have r := (sound.formed.force_realigned sound.grid monitored lines w'.engine).2
    rw [same, if_pos r.version]
    exact ⟨changes, rfl⟩
  · have behind : (w.entry c).state.version ≠ w'.engine.version :=
      Nat.ne_of_lt (Nat.lt_of_le_of_lt sound.step.behind h.engine.version)
    rw [h.untouched c kept, h.code, if_neg behind]
    exact .refl _

/-- A code object that is brought up to date is the same for another tool as without the clearing. -/
theorem instrument_other (h : w.Clears t w') (arises : w.Arises) (arises' : w'.Arises) (other : u ≠ t)
    (lt : c < w.codes.size) (lt' : c < w'.codes.size) (monitored : (w.entry c).code.noMonitoring = false)
    (lines : (LineTable.build (w.entry c).code).isSome = true) :
    ∃ v v', (Act.instrument c).exec w = (.ok (), v) ∧ (Act.instrument c).exec w' = (.ok (), v') ∧
      (v'.control (.getLocal c u)).2 = (v.control (.getLocal c u)).2 ∧
      ∀ i ev, (w.entry c).code.eventAt .opcode i = some ev →
        ((v'.entry c).state.stepTools w'.engine.globals .opcode i ev).has u =
          ((v.entry c).state.stepTools w.engine.globals .opcode i ev).has u := by
  obtain ⟨sound, hushed⟩ := arises.codes c lt
  obtain ⟨v, ran, -, -, -, changes, state⟩ := Act.exec_instrument lt sound monitored lines
  obtain ⟨v', ran', -, -, -, changes', state'⟩ := Act.exec_instrument lt' (arises'.codes c lt').1
    (h.code c ▸ monitored) (h.code c ▸ lines)
  obtain ⟨changes₁, brought⟩ := h.upToDate arises lt monitored lines
  rw [brought] at state'
  refine ⟨v, v', ran, ran', ?_, fun i ev event => ?_⟩
  · have same : (v'.entry c).state.eventsOf u = (v.entry c).state.eventsOf u := by
      rw [eventsOf_eq_iff]
      intro ev
      rw [state, state']
      exact h.engine.has_own other sound (arises.booked c) monitored lines ev
    rw [getLocal_eq, getLocal_eq, same]
  · rw [state, state']
    exact h.engine.has_stepTools other arises.versioned.engine sound hushed (arises.booked c) monitored lines event

end Clears

/-- Clearing or freeing a tool in use, at any point of a history, takes away its callbacks and its events: for all code, and
on every code object that is alive and monitored. From then on nothing is called for the tool but what is registered for it
anew, by later operations or by callbacks, also in a delivery that is under way. The other tools keep their callbacks and
events, and code objects that are brought up to date have the same own events of theirs and call them for the same opcode
events as without the clearing. On code that is not monitored all own events stay, those of the cleared tool too. -/
theorem tool_cleared {w w' : World} (arises : w.Arises) {t : Nat} (inUse : (w.engine.tool t).name.isSome = true)
    {op : Control} (clears : op = .clearTool t ∨ op = .freeTool t) (done : w.control op = (w', .done)) :
    (∀ ev, w'.engine.callable t ev = none) ∧ (w'.control (.getEvents t)).2 = .events 0 ∧
      (∀ c, w.isAlive c = true → (w.entry c).code.noMonitoring = false → (w'.control (.getLocal c t)).2 = .events 0) ∧
      (∀ c u, (w.entry c).code.noMonitoring = true →
        (w'.control (.getLocal c u)).2 = (w.control (.getLocal c u)).2) ∧
      (∀ later, w'.CallsSince (w'.performAll later).1 fun call => call.args.tool = t →
        (t, call.callable.callback) ∈ w'.registrations ++ Operation.registrations later) ∧
      (∀ later th layer slot a tools, w'.CallsSince ((Act.deliver th layer slot a tools).exec (w'.controls later).1).2
        fun call => call.args.tool = t →
          (t, call.callable.callback) ∈ w'.registrations ++ later.flatMap Control.registrations) ∧
      ∀ u, u ≠ t → w'.engine.tool u = w.engine.tool u ∧
        (∀ ev, (GlobalMonitors.get w'.engine.globals ev).has u = (GlobalMonitors.get w.engine.globals ev).has u) ∧
        (w'.control (.getEvents u)).2 = (w.control (.getEvents u)).2 ∧
        ∀ c < w.codes.size, (w.entry c).code.noMonitoring = false → (LineTable.build (w.entry c).code).isSome = true →
          ∃ v v', (Act.instrument c).exec w = (.ok (), v) ∧ (Act.instrument c).exec w' = (.ok (), v') ∧
            (v'.control (.getLocal c u)).2 = (v.control (.getLocal c u)).2 ∧
            ∀ i ev, (w.entry c).code.eventAt .opcode i = some ev →
              ((v'.entry c).state.stepTools w'.engine.globals .opcode i ev).has u =
                ((v.entry c).state.stepTools w.engine.globals .opcode i ev).has u := by
  obtain ⟨valid, h⟩ := clears_of_done arises.versioned inUse clears done
  have went : Effects .any Rule.any w (w.control op).1 := effects_control w trivial
  rw [done] at went
  have unheard : w'.Unheard t := h.engine.callable
  refine ⟨h.engine.callable, h.getEvents_self valid, fun c => h.getLocal_self arises valid,
    fun c u => h.getLocal_unmonitored, unheard.performAll, unheard.deliver, fun u other => ?_⟩
  refine ⟨h.engine.others u other, fun ev => ?_, h.getEvents_other other, fun c lt => ?_⟩
  · rw [GlobalMonitors.get, h.engine.has_mask]
    simp [other, GlobalMonitors.get]
  · exact h.instrument_other arises (arises.effects went) other lt (went.moves.code_eq lt).1

end World

/-- Two tools watch `CALL`, the first one for two code objects alone, of which the second is not monitored. -/
def callsWatched : World :=
  World.after
    [{ steps := [.emit .resume (.literal 0), .emit .call (.literal 0)] },
      { noMonitoring := true, steps := [.emit .resume (.literal 0), .emit .call (.literal 0)] }]
    [.scripted [] [] 0, .scripted [] [] 0] .error
    [.control (.useTool 0 "first"), .control (.useTool 1 "second"),
      .control (.register 0 (EventSet.single .call) (some 0)), .control (.register 1 (EventSet.single .call) (some 0)),
      .control (.setLocal 0 0 (EventSet.single .call)), .control (.setLocal 1 0 (EventSet.single .call)),
      .control (.setEvents 1 (EventSet.single .call)), .thread 0 (.step 0 1 none false)]

def callsCleared : World := (callsWatched.control (.clearTool 0)).1

/-- It asks for `CALL` again, with another callback. -/
def watchAgain : List Operation :=
  [.control (.register 0 (EventSet.single .call) (some 1)), .control (.setEvents 0 (EventSet.single .call)),
    .thread 0 (.step 0 1 none false)]

/-- The cleared tool keeps its own events on the code that is not monitored only. When it watches again, its new callback is
called for it and the old one is not; the other tool is still called. -/
theorem tool_cleared_calls :
    (callsCleared.control (.getLocal 0 0)).2 = .events 0 ∧
      (callsCleared.control (.getLocal 1 0)).2 = .events (EventSet.single .call) ∧
      (callsCleared.CallsSince (callsCleared.performAll watchAgain).1 fun c => c.args.tool = 0 → c.callable.callback = 1) ∧
      ((((Act.instrument 0).exec callsCleared).2.entry 0).state.stepTools callsCleared.engine.globals .opcode 1 .call).has
        1 = true := by
  have arises : callsWatched.Arises := World.Reached.arises ⟨_, _, _, _, by decide, rfl⟩
  have done : callsWatched.control (.clearTool 0) = (callsCleared, .done) := Prod.ext rfl (by decide +kernel)
  -- what the first code object is like, and the second
  obtain ⟨alive, monitored, there, lines, event⟩ : callsWatched.isAlive 0 = true ∧
      (callsWatched.entry 0).code.noMonitoring = false ∧ 0 < callsWatched.codes.size ∧
      (LineTable.build (callsWatched.entry 0).code).isSome = true ∧
      (callsWatched.entry 0).code.eventAt .opcode 1 = some .call := by decide +kernel
  obtain ⟨exempt, kept⟩ : (callsWatched.entry 1).code.noMonitoring = true ∧
      (callsWatched.entry 1).state.eventsOf 0 = EventSet.single .call := by decide +kernel
  obtain ⟨-, -, own, unmonitored, later, -, others⟩ := World.tool_cleared arises (by decide +kernel) (.inl rfl) done
  refine ⟨own 0 alive monitored, ?_, fun i => ?_, ?_⟩
  · rw [unmonitored 1 0 exempt, World.getLocal_eq, if_pos (by decide), kept]
  · obtain ⟨more, grown, called⟩ := later watchAgain i
    refine ⟨more, grown, fun c mem is_first => ?_⟩
    have listed := called c mem is_first
    have all : callsCleared.registrations ++ Operation.registrations watchAgain = [(0, 1)] := by decide +kernel
    rw [all] at listed
    simpa using listed
  · obtain ⟨-, -, -, brought⟩ := others 1 (by decide)
    obtain ⟨v, v', ran, ran', -, tools⟩ := brought 0 there monitored lines
    have before : ((((Act.instrument 0).exec callsWatched).2.entry 0).state.stepTools callsWatched.engine.globals .opcode 1
        .call).has 1 = true := by decide +kernel
    rw [ran] at before
    rw [ran']
    exact (tools 1 .call event).trans before

end MonitoredVm
