import MonitoredVm.Proofs.Histories

/-!
# Restarts

After a restart a code object is as if it had been built anew and instrumented once: nothing is left of what was
disabled, nor of the order in which tables were made.
-/

namespace MonitoredVm

open List

namespace CodeState

/-- In every layer exactly the active tools are called, at every slot that has an event. -/
structure Canonical (e : Engine) (code : Code) (s : CodeState) : Prop where
  formed : s.Formed code
  active : ∀ ev : Event, ev.isLocal = true → s.active ev = s.enabled e ev
  cell : ∀ {l i ev}, code.eventAt l i = some ev → (s.cell l i).Exact (s.active ev) 0

theorem Realigned.canonical (formed : s.Formed code) (r : Realigned e code s s') (stale : s.version < e.lastRestart) :
    s'.Canonical e code where
  formed := formed.realigned r
  active ev isLocal := by rw [r.active, after_alignment s e isLocal, enabled, r.own]
  cell {l i ev} event := by
    have tame := formed.tame event
    rw [← before_alignment s e] at tame
    rw [r.cell l i ev event, r.active]
    exact tame.align_restarted (decide_eq_true stale)

namespace Canonical
variable {e : Engine} {code : Code} {s : CodeState}

theorem stepTools_eq (h : s.Canonical e code) (event : code.eventAt l i = some ev) :
    s.stepTools e.globals l i ev = s.enabled e ev := by
  have isLocal := Code.isLocal_eventAt event
  have same := h.active ev isLocal
  rw [CodeState.stepTools_eq same isLocal, (h.cell event).calls_eq, same]
  exact ToolMask.without_zero _

theorem armed_iff (h : s.Canonical e code) (l : Layer) (i) :
    l.armed (s.slot i) = true ↔ ∃ ev, code.eventAt l i = some ev ∧ s.enabled e ev ≠ 0 := by
  cases event : code.eventAt l i with
  | none =>
    have off : l.armed (s.slot i) = false := h.formed.idle event
    simp [off]
  | some ev =>
    have armed : l.armed (s.slot i) = true ↔ (s.active ev).without 0 ≠ 0 := (h.cell event).armed
    rw [h.active ev (Code.isLocal_eventAt event)] at armed
    simpa using armed

theorem slot_eq {s' : CodeState} (h : s.Canonical e code) (h' : s'.Canonical e code) (own : ∀ ev, s'.own ev = s.own ev)
    (i) : s'.slot i = s.slot i := by
  have enabled : ∀ ev, s'.enabled e ev = s.enabled e ev := fun ev => by simp only [CodeState.enabled, own]
  have armed : ∀ l : Layer, l.armed (s'.slot i) = l.armed (s.slot i) := by
    intro l
    rw [Bool.eq_iff_iff, h.armed_iff, h'.armed_iff]
    simp only [enabled]
  have base := (h'.formed.base i).trans (h.formed.base i).symm
  have opcode : (s'.slot i).instrumented = (s.slot i).instrumented := armed .opcode
  have line : (s'.slot i).line = (s.slot i).line := armed .line
  have instruction : (s'.slot i).instruction = (s.slot i).instruction := armed .instruction
  calc s'.slot i
    _ = ⟨(s'.slot i).base, (s'.slot i).instrumented, (s'.slot i).line, (s'.slot i).instruction⟩ := rfl
    _ = s.slot i := by rw [base, opcode, line, instruction]

theorem linable (h : s.Canonical e code) : s.Linable e code := by
  intro enabled
  rw [← h.active .line rfl] at enabled
  obtain ⟨t, there⟩ := Option.isSome_iff_exists.1 (h.formed.lined.there enabled)
  rw [h.formed.lined.built t there]
  rfl

theorem reported (h : s.Canonical e code) (changes) : ({ s with changes } : CodeState).Canonical e code :=
  ⟨h.formed.noted s.history changes, h.active, h.cell⟩

end Canonical

/-- A new copy of the code, instrumented once with these events of its own. -/
def freshCopy (e : Engine) (code : Code) (own : LocalMonitors) : CodeState :=
  (e.force code ((ofCode code).preset own e.stamps)).1

theorem keptOwn_preset (s : CodeState) (e : Engine) (own) : (s.preset own e.stamps).keptOwn e = own := by
  have none_stale : (List.range 8).filter (fun t => e.stamps[t]? != e.stamps[t]?) = [] := by simp
  simp only [keptOwn, preset, dropStale, Option.getD_some, none_stale, foldl_nil]

/-- A new copy with the events of a canonical code object is canonical too, and has the same ones enabled. -/
theorem Canonical.freshCopy {e : Engine} {code : Code} {s : CodeState} (h : s.Canonical e code) (grid : code.OnGrid)
    (monitored : code.noMonitoring = false) (begun : 0 < e.lastRestart) :
    (freshCopy e code (s.data.getD {}).own).Canonical e code ∧
      ∀ ev, (CodeState.freshCopy e code (s.data.getD {}).own).own ev = s.own ev := by
  have formed := (formed_ofCode code).preset (s.data.getD {}).own e.stamps
  rcases force_cases e monitored grid formed.sized formed.lined with ⟨-, r⟩ | ⟨-, f⟩
  · refine ⟨r.canonical formed begun, fun ev => ?_⟩
    have kept := r.own ev
    rwa [keptOwn_preset, ← own_eq] at kept
  · have enabled := f.enabled
    rw [after_alignment _ e rfl, keptOwn_preset, ← own_eq] at enabled
    have built := h.linable enabled
    rw [f.unbuilt] at built
    cases built

end CodeState

namespace Act

/-- Code objects brought in line, each on its own. -/
structure Forced (cs : List Nat) (w w' : World) : Prop where
  engine : w'.engine = w.engine
  dispatching : w'.dispatching = w.dispatching
  size : w'.codes.size = w.codes.size
  code : ∀ c, (w'.entry c).code = (w.entry c).code
  held : ∀ c, (w'.entry c).held = (w.entry c).held
  tracked : ∀ c, (w'.entry c).tracked = (w.entry c).tracked
  others : ∀ c, c ∉ cs → (w'.entry c).state = (w.entry c).state
  state : ∀ c ∈ cs, c < w.codes.size → (w.entry c).state.version ≠ w.engine.version →
    (∃ r, (w.engine.force (w.entry c).code (w.entry c).state).2 = .ok r) ∧
      (w.engine.force (w.entry c).code (w.entry c).state).1.Alike (w'.entry c).state

theorem Forced.refl (cs) (current : ∀ c ∈ cs, c < w.codes.size → (w.entry c).state.version = w.engine.version) :
    Forced cs w w :=
  ⟨rfl, rfl, rfl, fun _ => rfl, fun _ => rfl, fun _ => rfl, fun _ _ => rfl,
    fun c mem lt stale => absurd (current c mem lt) stale⟩

theorem forced_modifyState (changes) (log : Log MonitoringNote)
    (s_eq : (w.engine.force (w.entry c).code (w.entry c).state).1 = s)
    (ok : ∃ r, (w.engine.force (w.entry c).code (w.entry c).state).2 = .ok r) :
    Forced [c] w { w.modifyState c fun _ => { s with changes } with log } := by
  have entry : ∀ j, ({ w.modifyState c fun _ => { s with changes } with log } : World).entry j =
      if j = c ∧ c < w.codes.size then { w.entry c with state := { s with changes } } else w.entry j :=
    fun j => w.entry_modifyState c j fun _ => { s with changes }
  refine ⟨rfl, rfl, by simp, fun j => ?_, fun j => ?_, fun j => ?_, fun j other => ?_, fun j mem lt _ => ?_⟩
  · rw [entry]
    split
    next here => rw [here.1]
    next => rfl
  · rw [entry]
    split
    next here => rw [here.1]
    next => rfl
  · rw [entry]
    split
    next here => rw [here.1]
    next => rfl
  · rw [entry, if_neg fun here => other (mem_singleton.2 here.1)]
  · obtain rfl := mem_singleton.1 mem
    refine ⟨ok, ?_⟩
    rw [entry, if_pos ⟨rfl, lt⟩, s_eq]
    exact ⟨changes, rfl⟩

theorem forced_forceIfStale (ok : (forceIfStale c).exec w = (.ok (), w')) : Forced [c] w w' := by
  unfold forceIfStale at ok
  rw [exec_bind, exec_get] at ok
  dsimp only at ok
  split at ok
  next stale =>
    obtain ⟨changes, log, ran⟩ := exec_force c w
    rw [ran] at ok
    obtain ⟨outcome, rfl⟩ := Prod.mk.inj ok
    refine forced_modifyState changes log rfl ?_
    cases force : (w.engine.force (w.entry c).code (w.entry c).state).2 with
    | ok r => exact ⟨r, rfl⟩
    | error why => rw [force] at outcome; cases outcome
  next fresh =>
    obtain ⟨-, rfl⟩ := Prod.mk.inj ok
    refine .refl [c] fun j mem _ => ?_
    rw [mem_singleton.1 mem]
    exact Decidable.not_not.1 fresh

theorem Forced.cons (fresh : c ∉ cs) (first : Forced [c] w w₁) (rest : Forced cs w₁ w') : Forced (c :: cs) w w' where
  engine := rest.engine.trans first.engine
  dispatching := rest.dispatching.trans first.dispatching
  size := rest.size.trans first.size
  code j := (rest.code j).trans (first.code j)
  held j := (rest.held j).trans (first.held j)
  tracked j := (rest.tracked j).trans (first.tracked j)
  others j other := by
    obtain ⟨not_c, not_cs⟩ := not_or.1 (mt mem_cons.2 other)
    exact (rest.others j not_cs).trans (first.others j (mt mem_singleton.1 not_c))
  state j mem lt stale := by
    rcases mem_cons.1 mem with rfl | mem
    · obtain ⟨ok, alike⟩ := first.state j (mem_singleton.2 rfl) lt stale
      exact ⟨ok, (rest.others j fresh).symm ▸ alike⟩
    · have same : (w₁.entry j).state = (w.entry j).state :=
        first.others j fun here => fresh (mem_singleton.1 here ▸ mem)
      have later := rest.state j mem (first.size ▸ lt)
      rw [same, first.code, first.engine] at later
      exact later stale

theorem forced_forM (nodup : cs.Nodup) (ok : (cs.forM forceIfStale).exec w = (.ok (), w')) : Forced cs w w' := by
  induction cs generalizing w with
  | nil =>
    obtain ⟨-, rfl⟩ := Prod.mk.inj ok
    exact .refl [] nofun
  | cons c rest ih =>
    obtain ⟨fresh, nodup⟩ := nodup_cons.1 nodup
    have stepwise : ((forceIfStale c >>= fun _ => rest.forM forceIfStale).exec w) = (.ok (), w') := ok
    rw [exec_bind] at stepwise
    rcases first : (forceIfStale c).exec w with ⟨_ | ⟨⟩, w₁⟩
    · rw [first] at stepwise
      cases (Prod.mk.inj stepwise).1
    · rw [first] at stepwise
      exact (forced_forceIfStale first).cons fresh (ih nodup stepwise)

theorem Forced.trackedCodes_eq (h : Forced cs w w') : w'.trackedCodes = w.trackedCodes := by
  simp only [World.trackedCodes, World.isAlive, h.size, h.dispatching, h.held, h.tracked]

theorem exec_govern_ok (ok : (do setEngine e; modify (·.note .debug n); forceAll : Act Unit).exec w = (.ok (), w')) :
    ∃ log, Forced w'.trackedCodes { w with engine := e, log } w' := by
  have logged : ∃ log, forceAll.exec { w with engine := e, log } = (.ok (), w') := ⟨_, ok⟩
  obtain ⟨log, ok⟩ := logged
  have all := forced_forM (nodup_range.filter _) ok
  exact ⟨log, all.trackedCodes_eq ▸ all⟩

theorem exec_restart_ok (ok : restart.exec w = (.ok (), w')) : ∃ e log, w.engine.restart = .ok e ∧
      Forced w'.trackedCodes { w with engine := e, log } w' := by
  unfold restart at ok
  rw [exec_bind, exec_get] at ok
  dsimp only at ok
  rw [exec_bind, exec_accept] at ok
  cases restarted : w.engine.restart with
  | error why =>
    rw [restarted] at ok
    cases (Prod.mk.inj ok).1
  | ok e =>
    rw [restarted] at ok
    obtain ⟨log, forced⟩ := exec_govern_ok ok
    exact ⟨e, log, rfl, forced⟩

end Act

namespace World

theorem exec_of_answer_done {act : Act Unit} {w w' : World} (done : (w.answer act fun _ => .done) = (w', .done)) :
    act.exec w = (.ok (), w') := by
  rw [answer_eq] at done
  obtain ⟨left, reply⟩ := Prod.mk.inj done
  rcases outcome : act.exec w with ⟨_ | ⟨⟩, w₁⟩
  · rw [outcome] at reply
    cases reply
  · rw [outcome] at left
    rw [← left]

theorem restartEach_done (done : restartEach (n + 1) w last = (w', .done)) :
    ∃ w₀, Moves rule w w₀ ∧ Act.restart.exec w₀ = (.ok (), w') := by
  induction n generalizing w last with
  | zero =>
    unfold restartEach at done
    split at done
    next => cases (Prod.mk.inj done).2
    next w₁ reply _ went =>
      have ended : (w₁, reply) = (w', .done) := done
      exact ⟨w, .refl, exec_of_answer_done (went.trans ended)⟩
  | succ n ih =>
    unfold restartEach at done
    split at done
    next => cases (Prod.mk.inj done).2
    next w₁ reply _ went =>
      obtain ⟨w₀, moved, ok⟩ := ih done
      have first : Moves rule w (w.answer Act.restart fun _ => .done).1 := moves_answer Act.within_restart _
      rw [went] at first
      exact ⟨w₀, first.trans moved, ok⟩

/-- A restart that is done brought every code object still tracked in line, if there is any. -/
theorem restart_done (done : w.control (.restart (n + 1)) = (w', .done)) (tracked : c ∈ w'.trackedCodes) :
    ∃ w₀, Moves rule w w₀ ∧ Act.restart.exec w₀ = (.ok (), w') := by
  have times : restartTimes (n + 1) w = (w', .done) := done
  unfold restartTimes at times
  split at times
  next alone =>
    -- nothing is tracked then, before or after
    have none_tracked := isEmpty_iff.1 (Bool.and_eq_true_iff.1 alone).1
    have same : w'.trackedCodes = w.trackedCodes := by
      rw [← (Prod.mk.inj times).1]
      rfl
    rw [same, none_tracked] at tracked
    cases tracked
  next => exact restartEach_done times

theorem canonical_of_restart {w : World} (reached : w.Reached fun _ => true) {w' : World}
    (done : w.control (.restart (n + 1)) = (w', .done)) (tracked : c ∈ w'.trackedCodes)
    (monitored : (w'.entry c).code.noMonitoring = false) :
    (w'.entry c).state.Canonical w'.engine (w'.entry c).code ∧ (w'.entry c).code.OnGrid ∧
      0 < w'.engine.lastRestart := by
  have invariant := invariant_sound Discipline.any
  obtain ⟨begun, all⟩ := invariant.reached reached
  obtain ⟨w₀, moved, ok⟩ : ∃ w₀, Moves Discipline.any w w₀ ∧ Act.restart.exec w₀ = (.ok (), w') :=
    restart_done done tracked
  obtain ⟨-, all⟩ := invariant.moves moved begun all
  obtain ⟨e, log, restarted, forced⟩ := Act.exec_restart_ok ok
  obtain ⟨v₀, v, first, second, rfl⟩ := Engine.restart_ok restarted
  have raised := Engine.lt_of_succVersion first
  have raised_again := Engine.lt_of_succVersion second
  have lt : c < w₀.codes.size := by
    have inside := mem_range.1 (mem_filter.1 tracked).1
    rwa [forced.size] at inside
  have sound := all c lt
  have behind := sound.step.behind
  have stale : (w₀.entry c).state.version ≠ v := by omega
  obtain ⟨⟨r, went⟩, changes, alike⟩ := forced.state c tracked lt stale
  rw [forced.code] at monitored ⊢
  rw [forced.engine, alike]
  refine ⟨?_, sound.grid, Nat.lt_of_le_of_lt (Nat.zero_le _) raised⟩
  rcases CodeState.force_cases _ monitored sound.grid sound.formed.sized sound.formed.lined with
    ⟨-, realigned⟩ | ⟨fault, -⟩
  · exact (realigned.canonical sound.formed (Nat.lt_of_le_of_lt behind raised)).reported changes
  · cases went.symm.trans fault

end World

/-- After a restart every code object that is tracked and monitored has, from the first traceable offset on, the slots
of a new copy instrumented once with the same events, and steps over them call the same tools. An instruction is
instrumented exactly if its event is enabled, carries the line overlay exactly if it starts a line and `LINE` is enabled,
and the instruction overlay exactly if it can and `INSTRUCTION` is enabled; the tools called are those that have the
event enabled. -/
theorem restart_canonical {w : World} (reached : w.Reached fun _ => true) {n : Nat} {w' : World}
    (done : w.control (.restart (n + 1)) = (w', .done)) {c : Nat} (tracked : c ∈ w'.trackedCodes) {code : Code}
    {s : CodeState} (code_eq : (w'.entry c).code = code) (state_eq : (w'.entry c).state = s)
    (monitored : code.noMonitoring = false) {i : Nat} (mem : i ∈ code.offsetsFrom code.firstTraceable) :
    s.slot i = (CodeState.freshCopy w'.engine code (s.data.getD {}).own).slot i ∧
      (∀ l e, code.eventAt l i = some e →
        s.stepTools w'.engine.globals l i e =
            (CodeState.freshCopy w'.engine code (s.data.getD {}).own).stepTools w'.engine.globals l i e ∧
          s.stepTools w'.engine.globals l i e = s.enabled w'.engine e) ∧
      ((s.slot i).instrumented = true ↔
        ∃ e, (code.opcodeAt i).event? (code.oparg i) = some e ∧ s.enabled w'.engine e ≠ 0) ∧
      ((s.slot i).line = true ↔
        (LineTable.build code).any (·.startsLine i) = true ∧ s.enabled w'.engine .line ≠ 0) ∧
      ((s.slot i).instruction = true ↔
        (code.opcodeAt i).skipsInstructionOverlay = false ∧ s.enabled w'.engine .instruction ≠ 0) := by
  subst code_eq state_eq
  obtain ⟨canonical, grid, begun⟩ := World.canonical_of_restart reached done tracked monitored
  obtain ⟨fresh, own⟩ := canonical.freshCopy grid monitored begun
  have same : ∀ e, (CodeState.freshCopy w'.engine (w'.entry c).code
      ((w'.entry c).state.data.getD {}).own).enabled w'.engine e = (w'.entry c).state.enabled w'.engine e :=
    fun e => by simp only [CodeState.enabled, own]
  refine ⟨fresh.slot_eq canonical (fun e => (own e).symm) i, fun l e event => ⟨?_, canonical.stepTools_eq event⟩,
    ?_, ?_, ?_⟩
  · rw [canonical.stepTools_eq event, fresh.stepTools_eq event, same]
  · simpa [Layer.armed, Code.eventAt, mem] using canonical.armed_iff .opcode i
  · simpa [Layer.armed, Code.eventAt, mem, and_assoc] using canonical.armed_iff .line i
  · simpa [Layer.armed, Code.eventAt, mem, and_assoc] using canonical.armed_iff .instruction i

instance decidableDone (r : Reply) : Decidable (r = .done) :=
  match r with
  | .done => isTrue rfl
  | .failed _ | .toolName _ | .previous _ | .events _ | .enabled _ | .versions _ _ _ | .dump _ | .index _ | .assembled _
  | .text _ | .report _ => isFalse nofun

/-- Two tools watch `CALL`, and the first one disables it where it is called. -/
def beforeRestart : World :=
  World.after [{ steps := [.emit .resume (.literal 0), .emit .call (.literal 0)] }] [.scripted [.disable] [] 0] .error
    [.control (.useTool 0 "first"), .control (.useTool 1 "second"),
      .control (.register 0 (EventSet.single .call) (some 0)), .control (.setEvents 0 (EventSet.single .call)),
      .control (.setEvents 1 (EventSet.single .call)), .thread 0 (.step 0 1 none false)]

/-- After a restart both are called again. -/
theorem restart_canonical_call :
    ((beforeRestart.control (.restart 1)).1.entry 0).state.stepTools
        (beforeRestart.control (.restart 1)).1.engine.globals .opcode 1 .call =
      ToolMask.single 0 ||| ToolMask.single 1 := by
  have done : beforeRestart.control (.restart 1) = ((beforeRestart.control (.restart 1)).1, .done) :=
    Prod.ext rfl (by decide +kernel)
  have canonical := restart_canonical ⟨_, _, _, _, by decide, rfl⟩ done (c := 0) (by decide +kernel) rfl rfl
    (by decide +kernel) (i := 1) (by decide +kernel)
  exact (canonical.2.1 .opcode .call (by decide +kernel)).2.trans (by decide +kernel)

end MonitoredVm
