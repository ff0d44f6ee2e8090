import MonitoredVm.Proofs.Roster
import MonitoredVm.Proofs.Views

/-!
# What happens meanwhile

Code that runs in an interpreter may call natives, and these may run code in other interpreters and end them. All of
it happens on contexts of its own, which are gone in the end. So while code runs, the contexts stay where they are,
running interpreters stay running, and at most interpreters at rest, the main one aside, come to their end:
`Roster.Meanwhile`.

Main statements: entering either does nothing or is `Roster.enter` (`enter_cases`), every way to end a session is
`Roster.leave`, and an operation that enters, runs code and leaves is a visit as a whole, whatever the code does
(`visits_runCargo`, `visits_callIn`, `host_steady`).
-/

namespace MonitoredVm

open List Machine

namespace Roster

/-- What may happen to a roster while code runs: interpreters at rest, the main one aside, may end. -/
structure Meanwhile (o o' : Roster) : Prop where
  ids : o'.ids = o.ids
  places : o'.places = o.places
  handles : o'.handles = o.handles
  nextId : o'.nextId = o.nextId
  standing : ∀ id, o'.standing id = o.standing id ∨
    id ≠ 0 ∧ ∃ s, o.standing id = some s ∧ s.status = .ready ∧ o'.standing id = some { s with status := .destroyed }

namespace Meanwhile
variable {o o' o'' : Roster}

theorem refl (o) : Meanwhile o o := ⟨rfl, rfl, rfl, rfl, fun _ => .inl rfl⟩

theorem of_eq (same : o' = o) : Meanwhile o o' := same ▸ refl o

theorem trans (first : Meanwhile o o') (second : Meanwhile o' o'') : Meanwhile o o'' := by
  refine ⟨second.ids.trans first.ids, second.places.trans first.places, second.handles.trans first.handles,
    second.nextId.trans first.nextId, fun id => ?_⟩
  obtain same | ⟨other, s, there, ready, ended⟩ := first.standing id
  · rw [← same]
    exact second.standing id
  · -- what has ended is not at rest any more, so it stays as it is
    obtain same | ⟨-, s', there', ready', -⟩ := second.standing id
    · exact .inr ⟨other, s, there, ready, same.trans ended⟩
    · obtain rfl : { s with status := .destroyed } = s' := Option.some.inj (ended.symm.trans there')
      cases ready'

theorem place (step : Meanwhile o o') (c) : o'.place c = o.place c := by
  rw [Roster.place, Roster.place, step.places]

theorem standing_eq (step : Meanwhile o o') {id s} (there : o.standing id = some s) (busy : s.status ≠ .ready) :
    o'.standing id = some s := by
  obtain same | ⟨-, s', there', ready, -⟩ := step.standing id
  · exact same.trans there
  · obtain rfl : s = s' := Option.some.inj (there.symm.trans there')
    exact absurd ready busy

end Meanwhile

/-- What an operation that enters `t` and leaves it again does: `t` itself stands as before. -/
structure Visits (t : Int) (o o' : Roster) : Prop where
  meanwhile : Meanwhile o o'
  back : o'.standing t = o.standing t

theorem Visits.of_eq (same : o' = o) : Visits t o o' := ⟨.of_eq same, same ▸ rfl⟩

theorem place_enter {o : Roster} (inside : c < o.places.length) :
    (o.enter c t).place c = ⟨t, .entered t (o.place c).current⟩ := by
  rw [enter, place_move, if_pos ⟨rfl, inside⟩]
  rfl

theorem Visits.of_enter {o o' : Roster} (inside : c < o.places.length) (idle : (o.place c).stage = .idle)
    (ready : o.status? t = some .ready) (meanwhile : Meanwhile (o.enter c t) o') : Visits t o (o'.leave c) := by
  have entered : o'.place c = ⟨t, .entered t (o.place c).current⟩ := (meanwhile.place c).trans (place_enter inside)
  obtain ⟨s, there, atRest⟩ := Option.map_eq_some_iff.1 ready
  have running : (o.enter c t).standing t = some { s with status := .running } := by
    change (o.mark t .running).standing t = _
    rw [mark, standing_change, if_pos rfl, there]
    rfl
  have left : o'.leave c = (o'.rest t).move c fun _ => ⟨(o.place c).current, .idle⟩ := by
    rw [Roster.leave, entered]
  have back : ((o'.rest t).move c fun _ => ⟨(o.place c).current, .idle⟩).standing t = o.standing t := by
    change (o'.rest t).standing t = _
    rw [rest, standing_change, if_pos rfl, meanwhile.standing_eq running (by simp), there]
    obtain ⟨whence, status, refs, requires⟩ := s
    obtain rfl : status = .ready := atRest
    rfl
  rw [left]
  refine ⟨⟨meanwhile.ids, ?_, meanwhile.handles, meanwhile.nextId, fun id => ?_⟩, back⟩
  · change o'.places.modify c _ = o.places
    have back : o.move c (fun _ => ⟨(o.place c).current, .idle⟩) = o :=
      move_of_eq (by rw [← idle])
    rw [meanwhile.places]
    change (o.places.modify c _).modify c _ = _
    rw [modify_modify_eq]
    exact congrArg Roster.places back
  · by_cases here : id = t
    · exact .inl (here ▸ back)
    · have after : ((o'.rest t).move c fun _ => ⟨(o.place c).current, .idle⟩).standing id = o'.standing id := if_neg here
      have before : (o.enter c t).standing id = o.standing id := if_neg here
      rw [after, ← before]
      exact meanwhile.standing id

/-- The context is there and in no session. -/
structure Free (o : Roster) (c : Nat) : Prop where
  inside : c < o.places.length
  idle : (o.place c).stage = .idle

theorem rest_mark {o : Roster} (ready : o.status? t = some .ready) : (o.mark t .running).rest t = o := by
  obtain ⟨s, there, atRest⟩ := Option.map_eq_some_iff.1 ready
  rw [mark, rest, change_change]
  refine change_of_eq fun s' here => ?_
  obtain rfl : s = s' := Option.some.inj (there.symm.trans here)
  obtain ⟨whence, status, refs, requires⟩ := s
  obtain rfl : status = .ready := atRest
  rfl

theorem rollback {o : Roster} (ready : o.status? t = some .ready) (from_there : (o.place c).current = source) :
    ((((o.mark t .running).move c fun p => { p with current := t }).move c fun p => { p with current := source }).rest t) =
      o := by
  refine Roster.ext rfl (fun id => ?_) ?_ rfl rfl
  · change ((o.mark t .running).rest t).standing id = o.standing id
    rw [rest_mark ready]
  · have back : o.move c (fun p => { p with current := source }) = o := move_of_eq (by rw [← from_there])
    change (o.places.modify c _).modify c _ = o.places
    rw [modify_modify_eq]
    exact congrArg Roster.places back

theorem leave_enter {o : Roster} (free : o.Free c) (ready : o.status? t = some .ready) : (o.enter c t).leave c = o := by
  rw [leave, place_enter free.inside]
  refine Roster.ext rfl (fun id => ?_) ?_ rfl rfl
  · change ((o.mark t .running).rest t).standing id = o.standing id
    rw [rest_mark ready]
  · have back : o.move c (fun _ => ⟨(o.place c).current, .idle⟩) = o := move_of_eq (by rw [← free.idle])
    change (o.places.modify c _).modify c _ = o.places
    rw [modify_modify_eq]
    exact congrArg Roster.places back

theorem entering {o : Roster} (from_there : (o.place c).current = source) :
    (((o.mark t .running).move c fun p => { p with current := t }).move c fun p =>
      { p with stage := .entered t source }) = o.enter c t := by
  refine Roster.ext rfl (fun _ => rfl) (ext_getElem? fun d => ?_) rfl rfl
  change ((o.places.modify c _).modify c _)[d]? = (o.places.modify c _)[d]?
  rw [modify_modify_eq, getElem?_modify, getElem?_modify]
  by_cases here : c = d
  · subst here
    cases there : o.places[c]? with
    | none => rfl
    | some p =>
      have same : p.current = source := by simpa [place, there] using from_there
      simp [same]
  · simp [here]

theorem leaving {o : Roster} (entered : (o.place c).stage = .entered t previous) :
    (((o.move c fun p => { p with current := previous }).rest t).move c fun p => { p with stage := .idle }) =
      o.leave c := by
  rw [leave, entered]
  refine Roster.ext rfl (fun _ => rfl) ?_ rfl rfl
  change (o.places.modify c _).modify c _ = o.places.modify c _
  rw [modify_modify_eq]
  rfl

theorem leave_of_idle {o : Roster} (idle : (o.place c).stage = .idle) : o.leave c = o := by
  rw [leave, idle]

end Roster

namespace Work
variable {ε δ α β : Type} {m : Machine} {c : Nat} {t : Int}

/-! ## Work that does not show -/

/-- The work does not show on the roster. -/
def Quiet (w : Work ε α) : Prop := ∀ m, (w m).2.roster = m.roster

theorem Quiet.pure (a : α) : Quiet (pure a : Work ε α) := fun _ => rfl

theorem Quiet.throw (e : ε) : Quiet (throw e : Work ε α) := fun _ => rfl

theorem Quiet.convert (quiet : Quiet w) (f : ε → δ) : Quiet (convert f w) := quiet

theorem roster_coarse : Machine.Coarse Machine.roster where
  note m level n := m.roster_note level n
  acquire m owner := m.roster_acquire owner
  session m c s same := by
    rw [roster_setSession]
    refine Roster.move_of_eq ?_
    rw [Option.getD_some, same, ← m.stage_roster]

theorem quiet_resolve (c id restrict ready operation) :
    Quiet (resolve c id restrict ready operation) := unseen_resolve c id restrict ready operation

theorem quiet_target (c) : Quiet (target c) := unseen_target c

theorem quiet_pack (source callee args kwargs) :
    Quiet (pack source callee args kwargs) := roster_coarse.pack source callee args kwargs

theorem quiet_preserve (c name v) : Quiet (preserve c name v) :=
  roster_coarse.preserve c name v

/-! ## Entering and leaving -/

/-- How entering goes from an idle session: packing fails, the target is not ready, rebuilding fails, or the context
gets there. -/
inductive Entry (c : Nat) (t : Int) (shared : Namespace) (m : Machine) : Except CrossError Unit × Machine → Prop
  | unpacked {e m₁} (packing : packAll (m.context c).current [] shared.entries m = (.error e, m₁)) : Entry c t shared m (.error e, m₁)
  | unready {packed e m₁} (packing : packAll (m.context c).current [] shared.entries m = (.ok packed, m₁))
    (marking : m₁.setRunning t = .error e) : Entry c t shared m (.error e, m₁.letGo (Snapshot.leasesAll packed))
  | unbuilt {packed e left m₁ m₂} (packing : packAll (m.context c).current [] shared.entries m = (.ok packed, m₁))
    (marking : m₁.setRunning t = .ok m₂) (rebuilding : rebuildAll m₂.knows [] packed = .error (e, left)) :
    Entry c t shared m (.error { code := .applyNamespace, cause := some e.exception },
      (((m₂.switch c t).switch c (m.context c).current).setIdle t).letGo left)
  | inside {packed bindings m₁ m₂} (packing : packAll (m.context c).current [] shared.entries m = (.ok packed, m₁))
    (marking : m₁.setRunning t = .ok m₂) (rebuilding : rebuildAll m₂.knows [] packed = .ok bindings) :
    Entry c t shared m (.ok (), (((m₂.switch c t).bindAll t bindings).note .debug
      (.entered t (m.context c).current)).setSession c
        (some { m.session c with stage := .entered t (m.context c).current }))

theorem entry_enter (idle : (m.session c).stage = .idle) (t shared) : Entry c t shared m (enter c t shared m) := by
  rw [enter, bind_of_ok (get_apply m)]
  dsimp only
  rw [if_neg (fun engaged => engaged idle), bind_of_ok (get_apply m)]
  rcases packing : packAll (m.context c).current [] shared.entries m with ⟨e | packed, m₁⟩
  · rw [bind_of_error packing]
    exact .unpacked packing
  · rw [bind_of_ok packing, bind_of_ok (get_apply m₁)]
    cases marking : m₁.setRunning t with
    | error e => exact .unready packing marking
    | ok m₂ =>
      dsimp only
      rw [bind_of_ok (show (set m₂ : Work CrossError Unit) m₁ = (.ok (), m₂) from rfl), bind_of_ok (change_apply _ m₂),
        bind_of_ok (get_apply _)]
      cases rebuilding : rebuildAll (m₂.switch c t).knows [] packed with
      | error failure => exact .unbuilt packing marking rebuilding
      | ok bindings => exact .inside packing marking rebuilding

theorem enter_engaged (engaged : (m.session c).stage ≠ .idle) (t shared) :
    enter c t shared m = (.error (.other "session already entered"), m) := by
  rw [enter, bind_of_ok (get_apply m)]
  dsimp only
  rw [if_pos engaged]
  rfl

theorem enter_cases (c t shared) (m : Machine) :
    (∃ e m', enter c t shared m = (.error e, m') ∧ m'.roster = m.roster) ∨
    (∃ m', enter c t shared m = (.ok (), m') ∧ (m.roster.place c).stage = .idle ∧
      m.roster.status? t = some .ready ∧ m'.roster = m.roster.enter c t) := by
  by_cases idle : (m.session c).stage = .idle
  · have entry := entry_enter idle t shared
    have quiet := roster_coarse.packAll (m.context c).current shared.entries [] m
    -- once the target is marked, the context moves there
    have moves : ∀ {packed m₁ m₂}, packAll (m.context c).current [] shared.entries m = (.ok packed, m₁) →
        m₁.setRunning t = .ok m₂ → m.roster.status? t = some .ready ∧
          (m₂.switch c t).roster = (m.roster.mark t .running).move c fun p => { p with current := t } := by
      intro packed m₁ m₂ packing marking
      obtain ⟨ready, marked⟩ := roster_setRunning marking
      rw [packing] at quiet
      rw [show m₁.roster = m.roster from quiet] at ready marked
      exact ⟨ready, by rw [roster_switch, marked]⟩
    rcases outcome : enter c t shared m with ⟨result, m'⟩
    rw [outcome] at entry
    cases entry with
    | unpacked packing => exact .inl ⟨_, _, rfl, by rw [← quiet, packing]⟩
    | unready packing _ =>
      rw [packing] at quiet
      exact .inl ⟨_, _, rfl, (roster_letGo _ _).trans quiet⟩
    | unbuilt packing marking _ =>
      obtain ⟨ready, moved⟩ := moves packing marking
      refine .inl ⟨_, _, rfl, ?_⟩
      rw [roster_letGo, roster_setIdle, roster_switch, moved]
      exact Roster.rollback ready (m.current_roster c)
    | inside packing marking _ =>
      obtain ⟨ready, moved⟩ := moves packing marking
      refine .inr ⟨_, rfl, (m.stage_roster c).trans idle, ready, ?_⟩
      rw [roster_setSession, roster_note, roster_bindAll, moved]
      exact Roster.entering (m.current_roster c)
  · exact .inl ⟨_, m, enter_engaged idle t shared, rfl⟩

theorem leave_apply (c) (m : Machine) : (leave c m).1 = m.session c ∧ (leave c m).2.roster = m.roster.leave c := by
  have stage := m.stage_roster c
  cases here : (m.session c).stage with
  | idle =>
    have left : leave c m = (m.session c, m.setSession c none) := by
      rw [leave, state_bind, state_get]
      dsimp only
      rw [here]
      rfl
    rw [left]
    refine ⟨rfl, ?_⟩
    have idle : (m.roster.place c).stage = .idle := stage.trans here
    rw [roster_setSession, Roster.leave_of_idle idle]
    exact Roster.move_of_eq (by rw [← idle]; rfl)
  | entered t previous =>
    have left : leave c m =
        (m.session c, (((m.switch c previous).setIdle t).note .debug (.left t)).setSession c none) := by
      rw [leave, state_bind, state_get]
      dsimp only
      rw [here]
      rfl
    rw [left]
    refine ⟨rfl, ?_⟩
    rw [roster_setSession, roster_note, roster_setIdle, roster_switch]
    exact Roster.leaving (stage.trans here)

theorem roster_abandon (c) (m : Machine) : (abandon c m).2.roster = m.roster.leave c := by
  change ((leave c m).2.letGo _).roster = _
  rw [roster_letGo]
  exact (leave_apply c m).2

theorem roster_exit (c failure) (m : Machine) : (exit c failure m).2.roster = m.roster.leave c := by
  rw [exit, bind_of_ok (liftM_apply _ m), ← (leave_apply c m).2]
  generalize leave c m = left
  obtain ⟨session, m'⟩ := left
  dsimp only
  cases session.stage with
  | idle => rfl
  | entered t p => exact Unseen.bind (roster_coarse.handOver _ _ _) (fun _ => .pure _) m'

theorem roster_disengage (c) (outcome : Except Halt Unit) (m : Machine) :
    (disengage c outcome m).2.roster = m.roster.leave c := by
  match outcome with
  | .ok () => exact roster_exit c none m
  | .error (.raised e) => exact roster_exit c (some e) m
  | .error .exhausted => exact roster_abandon c m

section Engaging
variable {shared : Namespace} {m' : Machine}

theorem engage_of_ok (entered : enter c t shared (m.setSession c (some {})) = (.ok (), m')) :
    engage c t shared m = (.ok (), m') := by
  have entered : (enter c t shared).run (m.setSession c (some {})) = (.ok (), m') := entered
  rw [engage, bind_of_ok (change_apply _ m), bind_of_ok (liftM_apply _ _), entered]
  rfl

theorem engage_of_error (failed : enter c t shared (m.setSession c (some {})) = (.error e, m')) :
    engage c t shared m = (.error (.cross e), (abandon c m').2) := by
  have failed : (enter c t shared).run (m.setSession c (some {})) = (.error e, m') := failed
  rw [engage, bind_of_ok (change_apply _ m), bind_of_ok (liftM_apply _ _), failed]
  rfl

theorem roster_newSession (idle : (m.roster.place c).stage = .idle) : (m.setSession c (some {})).roster = m.roster := by
  rw [roster_setSession]
  exact Roster.move_of_eq (by rw [← idle]; rfl)

end Engaging

theorem engage_cases {m : Machine} (idle : (m.roster.place c).stage = .idle) (t shared) :
    (∃ e m', engage c t shared m = (.error e, m') ∧ m'.roster = m.roster) ∨
    (∃ m', engage c t shared m = (.ok (), m') ∧ m.roster.status? t = some .ready ∧
      m'.roster = m.roster.enter c t) := by
  have fresh := roster_newSession idle
  obtain ⟨e, m', failed, same⟩ | ⟨m', entered, -, ready, moved⟩ := enter_cases c t shared (m.setSession c (some {}))
  · refine .inl ⟨.cross e, (abandon c m').2, engage_of_error failed, ?_⟩
    rw [roster_abandon, same, fresh]
    exact Roster.leave_of_idle idle
  · exact .inr ⟨m', engage_of_ok entered, fresh ▸ ready, fresh ▸ moved⟩

/-- The work ends the session of a context, after what happens meanwhile. -/
def Closes (c : Nat) (w : Work ε α) : Prop :=
  ∀ m : Machine, ∃ o, m.roster.Meanwhile o ∧ (w m).2.roster = o.leave c

theorem closes_disengage (c) (outcome : Except Halt Unit) : Closes c (disengage c outcome) :=
  fun m => ⟨m.roster, .refl _, roster_disengage c outcome m⟩

/-- What the computation does may happen meanwhile. -/
def Drifts (x : StateM Machine α) : Prop := ∀ m : Machine, m.roster.Meanwhile (x m).2.roster

theorem Closes.after (rest : ∀ a, Closes c (f a)) (first : Drifts x) : Closes c ((liftM x : Work ε α) >>= f) := by
  intro m
  rw [bind_of_ok (liftM_apply x m)]
  obtain ⟨o, meanwhile, left⟩ := rest (x m).1 (x m).2
  exact ⟨o, (first m).trans meanwhile, left⟩

theorem Closes.change (quiet : ∀ m, (f m).roster = m.roster) (closes : Closes c (rest ())) :
    Closes c (Work.change f >>= rest) := by
  intro m
  rw [bind_of_ok (change_apply f m), ← quiet m]
  exact closes (f m)

theorem Closes.bind (closes : Closes c w) (rest : ∀ a, Quiet (f a)) : Closes c (w >>= f) := by
  intro m
  obtain ⟨o, meanwhile, left⟩ := closes m
  refine ⟨o, meanwhile, ?_⟩
  rcases value : w m with ⟨e | a, m'⟩
  · rw [bind_of_error value, ← left, value]
  · rw [bind_of_ok value, rest a m', ← left, value]

theorem closes_report {report : Namespace × Option Failure → α} (outcome : Except Halt Unit) :
    Closes c (do return report (← disengage c outcome)) :=
  (closes_disengage c outcome).bind fun _ => .pure _

theorem visits_engage (free : m.roster.Free c) (t shared) (closes : Closes c (rest ())) :
    m.roster.Visits t ((engage c t shared >>= rest) m).2.roster := by
  obtain ⟨e, m', failed, same⟩ | ⟨m', entered, ready, moved⟩ := engage_cases free.idle t shared
  · rw [bind_of_error failed]
    exact .of_eq same
  · rw [bind_of_ok entered]
    obtain ⟨o, meanwhile, left⟩ := closes m'
    rw [left]
    exact .of_enter free.inside free.idle ready (moved ▸ meanwhile)

/-! ## Running code -/

theorem Quiet.drifts (quiet : Quiet w) : Drifts w.run := fun m => .of_eq (quiet m)

theorem Drifts.bind {w : Work ε α} {f : α → Work ε β} (first : Drifts w.run) (rest : ∀ a, Drifts (f a).run) :
    Drifts (w >>= f).run := by
  intro m
  change m.roster.Meanwhile ((w >>= f) m).2.roster
  have moved : m.roster.Meanwhile (w m).2.roster := first m
  rcases value : w m with ⟨e | a, m'⟩
  · rw [value] at moved
    rw [bind_of_error value]
    exact moved
  · rw [value] at moved
    rw [bind_of_ok value]
    exact moved.trans (rest a m')

theorem Drifts.lift (drifts : Drifts x) : Drifts (liftM x : Work ε α).run := drifts

end Work

/-- The natives change the roster only as may happen meanwhile. -/
def Natives.Steady (h : Natives Machine) : Prop := h.Keeps fun m m' => m.roster.Meanwhile m'.roster

namespace Work
variable {ε α : Type} {m : Machine} {c : Nat} {h : Natives Machine}

theorem drifts_withGlobals {run : Namespace → Machine → α × Namespace × Machine}
    (keeps : ∀ ns (m : Machine), m.roster.Meanwhile (run ns m).2.2.roster) (id) : Drifts (withGlobals id run) := by
  intro m
  have taken : (m.modifyInterpreter id fun i => { i with globals := {} }).roster = m.roster :=
    m.roster_modifyInterpreter_of_eq id (fun _ => rfl) (fun _ => rfl)
  have put : ∀ (m : Machine) ns, (m.modifyInterpreter id fun i => { i with globals := ns }).roster = m.roster :=
    fun m _ => m.roster_modifyInterpreter_of_eq id (fun _ => rfl) (fun _ => rfl)
  change m.roster.Meanwhile ((run (m.globals id) (m.modifyInterpreter id fun i => { i with globals := {} })).2.2
    |>.modifyInterpreter id _).roster
  rw [put, ← taken]
  exact keeps _ _

theorem drifts_exec (steady : h.Steady) (c script) : Drifts (exec h c script).run := by
  refine Drifts.bind ((quiet_target c).convert _).drifts fun id => ?_
  refine Drifts.bind (Drifts.lift (drifts_withGlobals (fun ns m => steady.exec script ns m) id)) fun result => ?_
  cases result with
  | ok _ => exact (Quiet.pure _).drifts
  | error halt => exact (Quiet.throw halt).drifts

theorem drifts_call (steady : h.Steady) (c callee args kwargs) : Drifts (call h c callee args kwargs).run := by
  refine Drifts.bind ((quiet_target c).convert _).drifts fun id => ?_
  refine Drifts.bind (Drifts.lift (drifts_withGlobals (fun ns m => steady.applyValue callee args kwargs ns m) id))
    fun result => ?_
  cases result with
  | ok v => exact (Quiet.pure v).drifts
  | error halt => exact (Quiet.throw halt).drifts

theorem drifts_callPending (steady : h.Steady) (c pending) : Drifts (callPending h c pending) := by
  intro m
  rw [callPending, state_bind, state_get]
  dsimp only
  rcases pending.unpack m.knows with ⟨left, e | ⟨callee, args, kwargs⟩⟩
  · exact .refl _
  · exact drifts_call steady c callee args kwargs m

/-! ## Operations that enter and leave -/

/-- An interpreter is found by its id if it is registered and, where that is asked for, made by this library. -/
theorem resolve_cases (c n restrict ready operation) (m : Machine) :
    (∃ e, resolve c (some n) restrict ready operation m = (.error e, m) ∧
      ∀ i, m.get? n = some i → restrict = true ∧ i.whence ≠ .stdlib) ∨
    (∃ i, resolve c (some n) restrict ready operation m = (.ok i, m) ∧ m.get? n = some i ∧
      (restrict = true → i.whence = .stdlib)) := by
  rw [resolve, bind_of_ok (get_apply m)]
  dsimp only
  cases found : m.get? n with
  | none => exact .inl ⟨_, rfl, fun _ absent => by cases absent⟩
  | some i =>
    have lives : i.isReady = true := (Option.filter_eq_some_iff.1 found).2
    dsimp only
    rw [if_neg (by simp [lives])]
    by_cases foreign : restrict = true ∧ i.whence ≠ .stdlib
    · rw [if_pos (by simp [foreign])]
      exact .inl ⟨_, rfl, fun j same => Option.some.inj same ▸ foreign⟩
    · rw [if_neg (by simpa using foreign)]
      exact .inr ⟨i, rfl, rfl, fun asked => Decidable.not_not.1 fun other => foreign ⟨asked, other⟩⟩

theorem visits_resolve {rest : Interpreter → Work InterpError α} {id restrict ready operation}
    (visits : ∀ i, i.id = id → m.roster.Visits id (rest i m).2.roster) :
    m.roster.Visits id ((resolve c (some id) restrict ready operation >>= rest) m).2.roster := by
  obtain ⟨e, failed, -⟩ | ⟨i, resolved, found, -⟩ := resolve_cases c id restrict ready operation m
  · rw [bind_of_error failed]
    exact .of_eq rfl
  · rw [bind_of_ok resolved]
    exact visits i (id_of_get? found)

theorem visits_setGlobals (free : m.roster.Free c) (id updates restrict) :
    m.roster.Visits id (setGlobals c id updates restrict m).2.roster := by
  refine visits_resolve fun i here => ?_
  dsimp only
  split
  · exact .of_eq rfl
  · exact here ▸ visits_engage free i.id updates (closes_report _)

section
variable (steady : h.Steady) (free : m.roster.Free c)
include steady free

theorem visits_runCargo (id cargo shared) :
    m.roster.Visits id (runCargo h c id cargo shared m).2.roster := by
  refine visits_engage free id shared ?_
  dsimp only
  cases cargo.unload with
  | error halt => exact closes_report (.error halt)
  | ok script => exact Closes.after closes_report (drifts_exec steady c script)

theorem visits_execIn (id code shared restrict) :
    m.roster.Visits id (execIn h c id code shared restrict m).2.roster := by
  refine visits_resolve fun i here => ?_
  cases code.load "exec" with
  | error e => exact .of_eq rfl
  | ok cargo => exact here ▸ visits_runCargo steady free i.id cargo shared

theorem visits_runString (id source shared restrict) :
    m.roster.Visits id (runString h c id source shared restrict m).2.roster :=
  visits_resolve fun i here => here ▸ visits_runCargo steady free i.id _ shared

theorem visits_runFunction (id f shared restrict) :
    m.roster.Visits id (runFunction h c id f shared restrict m).2.roster := by
  refine visits_resolve fun i here => ?_
  cases (Runnable.function f).load "run_func" with
  | error e => exact .of_eq rfl
  | ok cargo => exact here ▸ visits_runCargo steady free i.id cargo shared

theorem visits_callIn (id callee args kwargs preserveExc restrict) :
    m.roster.Visits id (callIn h c id callee args kwargs preserveExc restrict m).2.roster := by
  refine visits_resolve fun i here => ?_
  rw [bind_of_ok (get_apply m)]
  have quiet := ((quiet_pack (m.context c).current callee args kwargs).convert InterpError.raised) m
  rcases packing : convert InterpError.raised (pack (m.context c).current callee args kwargs) m with ⟨e | pending, m'⟩
  · rw [bind_of_error packing, ← quiet, packing]
    exact .of_eq rfl
  · rw [packing] at quiet
    rw [bind_of_ok packing, ← show m'.roster = m.roster from quiet, ← here]
    refine visits_engage (quiet ▸ free) i.id {} (Closes.after (fun x => ?_) (drifts_callPending steady c pending))
    obtain ⟨_, (e | _) | v⟩ := x
    · dsimp only
      split
      · refine Closes.after (fun result => ?_) (quiet_preserve c "exc" (.exception e)).drifts
        cases result with
        | ok _ => exact closes_report (.error (.raised e))
        | error _ => exact Closes.change (fun m => m.roster_note _ _) (closes_report (.error (.raised e)))
      · exact closes_report (.error (.raised e))
    · dsimp only
      rw [pure_bind]
      exact closes_report (.error .exhausted)
    · refine Closes.after (fun result => ?_) (quiet_preserve c "result" v).drifts
      cases result with
      | ok _ => exact closes_report (.ok ())
      | error e => exact closes_report (.error (.raised e.exception))

end

/-- What ends an interpreter on request: it is registered, at rest and not the one the context runs in. -/
theorem destroy_cases (c id restrict) (m : Machine) :
    (destroy c id restrict m).2.roster = m.roster ∨
    (id ≠ (m.roster.place c).current ∧ m.roster.status? id = some .ready ∧
      (destroy c id restrict m).2.roster = m.roster.mark id .destroyed) := by
  obtain ⟨e, failed, -⟩ | ⟨i, resolved, found, -⟩ := resolve_cases c id restrict false "destroy" m
  · left
    rw [destroy, bind_of_error failed]
  · obtain ⟨there, lives⟩ := Option.filter_eq_some_iff.1 found
    have isAt : i.id = id := id_of_get? found
    rw [destroy, bind_of_ok resolved, bind_of_ok (get_apply m)]
    split
    · exact .inl rfl
    · next elsewhere =>
      split
      · exact .inl rfl
      · next stopped =>
        right
        refine ⟨?_, ?_, m.roster_endInterpreter id⟩
        · rw [m.current_roster, ← isAt]
          exact elsewhere
        · rw [m.status_roster, there]
          simp only [Interpreter.isRunning, Interpreter.isReady] at stopped lives
          cases here : i.status <;> simp_all

theorem meanwhile_destroy (home : (m.roster.place c).current = 0) (id restrict) :
    m.roster.Meanwhile (destroy c id restrict m).2.roster := by
  obtain same | ⟨elsewhere, ready, ended⟩ := destroy_cases c id restrict m
  · exact .of_eq same
  · rw [ended]
    obtain ⟨s, there, atRest⟩ := Option.map_eq_some_iff.1 ready
    refine ⟨rfl, rfl, rfl, rfl, fun j => ?_⟩
    rw [Roster.mark, Roster.standing_change]
    by_cases here : j = id
    · subst here
      exact .inr ⟨home ▸ elsewhere, s, there, atRest, by rw [if_pos rfl, there]; rfl⟩
    · exact .inl (if_neg here)

/-! ## Native functions -/

theorem meanwhile_onNewContext {work : Nat → Work InterpError α}
    (meanwhile : ∀ (m : Machine) c, m.roster.Free c → (m.roster.place c).current = 0 →
      m.roster.Meanwhile (work c m).2.roster) : Drifts (onNewContext work) := by
  intro m
  have grown : ({ m with contexts := m.contexts ++ [({} : Context)] } : Machine).roster =
      { m.roster with places := m.roster.places ++ [{}] } :=
    Roster.ext rfl (fun _ => rfl) map_append rfl rfl
  have last : ({ m.roster with places := m.roster.places ++ [{}] } : Roster).place m.contexts.length = {} := by
    simp [Roster.place, Machine.roster]
  have step := meanwhile { m with contexts := m.contexts ++ [({} : Context)] } m.contexts.length
    ⟨by simp [Machine.roster], by rw [grown, last]⟩ (by rw [grown, last])
  rw [grown] at step
  refine ⟨step.ids, ?_, step.handles, step.nextId, step.standing⟩
  have places := step.places
  change (List.take m.contexts.length _).map Context.place = m.roster.places
  rw [map_take]
  change List.take m.contexts.length (work m.contexts.length _).2.roster.places = _
  rw [places]
  exact take_left' (length_map ..)

theorem quiet_interpreterOf (args) : Quiet (interpreterOf args) := unseen_interpreterOf args

theorem drifts_callHost {inner} (steady : ∀ h ∈ inner, h.Steady) (f args kwargs) :
    Drifts (callHost inner f args kwargs).run := by
  cases f with
  | run =>
    unfold callHost
    dsimp only
    split
    · next source _ h =>
      have ran : ∀ id, Drifts (onNewContext fun c => runString h c id source {} false) := fun id =>
        meanwhile_onNewContext fun m c free _ => (visits_runString (steady h rfl) free id source {} false).meanwhile
      refine Drifts.bind (ran _) fun result => ?_
      cases result with
      | none => exact (Quiet.pure _).drifts
      | some failure => exact (Quiet.pure _).drifts
    · exact (Quiet.throw _).drifts
    · exact (Quiet.pure _).drifts
  | destroy =>
    have ended : Drifts (onNewContext fun c => destroy c (idArgument args) false) :=
      meanwhile_onNewContext fun m c _ home => meanwhile_destroy home _ false
    exact Drifts.bind ended fun _ => (Quiet.pure _).drifts
  | names => exact Drifts.bind (quiet_interpreterOf args).drifts fun _ => (Quiet.pure _).drifts
  | status => exact Drifts.bind (quiet_interpreterOf args).drifts fun _ => (Quiet.pure _).drifts
  | builtin | const | echo | list | object | raise | exception => exact fun m => .refl _

end Work

theorem Machine.natives_steady {inner} (steady : ∀ h ∈ inner, h.Steady) : (Machine.natives inner).Steady where
  refl m := .refl m.roster
  trans first second := first.trans second
  letGo v m := .of_eq (m.roster_letGo v.leases)
  call name args kwargs m := by
    change m.roster.Meanwhile (m.callNative inner name args kwargs).2.roster
    unfold Machine.callNative
    split
    · exact Work.drifts_callHost steady _ args kwargs m
    · exact .refl _

/-- All natives of the host are steady: the induction is on how deep code in natives may nest. -/
theorem nativesAt_steady (depth) : (nativesAt depth).Steady := by
  induction depth with
  | zero => exact natives_steady fun _ none => absurd none (Option.not_mem_none _)
  | succ depth ih => exact natives_steady fun h here => Option.some.inj here ▸ ih

theorem Machine.host_steady (m : Machine) : m.host.Steady := nativesAt_steady _

end MonitoredVm
