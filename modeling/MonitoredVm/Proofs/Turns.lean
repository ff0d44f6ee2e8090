import MonitoredVm.Proofs.Interference

/-!
# Turns

A machine is used turn by turn: a command is performed, a script is run for a value to give to a command, or the log
is read. A command is made on a context, which must be there; sessions hold their context, so other commands need it
free and the session's own need it engaged.

Main statement: every turn that is allowed is one step of the roster (`step_take`), where `Roster.Step` says all that
a turn can do to it.
-/

namespace MonitoredVm

open Work

/-- One turn in the use of a machine. -/
inductive Turn where
  | command (command : Command)
  /-- A script is run outside any interpreter, for what it binds to a name. -/
  | define (s : Script) (name : String)
  /-- A host object is made. -/
  | object (typeName : String)
  | readLog

/-- The context a command is made on, and whether a session holds it. -/
def Command.on : Command → Option (Nat × Bool)
  | .destroy c _ _ | .current c | .setGlobals c _ _ _ | .runString c _ _ _ _ | .runFunction c _ _ _ _ | .exec c _ _ _ _
  | .execScript c _ _ _ _ _ | .call c _ _ _ _ _ _ _ | .isRunning c _ _ | .getConfig c _ _ | .incref c _ _ _
  | .decref c _ _ | .setPending c _ | .capture c _ | .beginSession c => some (c, false)
  | .endSession c | .enter c _ _ | .sessionTarget c | .sessionExec c _ _ | .sessionCall c _ _ _ _ | .callPending c _
  | .getGlobal c _ | .setGlobal c _ _ | .sessionGlobals c | .preserve c _ _ | .exit c _ => some (c, true)
  | _ => none

/-- The interpreter that a command enters and leaves again, to run code in it. -/
def Command.visit : Command → Option Int
  | .setGlobals _ id _ _ | .runString _ id _ _ _ | .runFunction _ id _ _ _ | .exec _ id _ _ _ | .execScript _ id _ _ _ _
  | .call _ id _ _ _ _ _ _ => some id
  | _ => none

namespace Machine

/-- The turn can be taken: a command is made on a context that is there, held by a session or not as it has to be. -/
def allows (m : Machine) : Turn → Bool
  | .command command => command.on.all fun (c, held) => c < m.contexts.length && (m.context c).session.isSome == held
  | _ => true

def take (m : Machine) : Turn → Machine
  | .command command => (m.perform command).1
  | .define s name => (m.define s name).1
  | .object typeName => (m.newObject typeName).1
  | .readLog => { m with log := m.log.clear }

end Machine

/-- What a turn is about, as far as the roster goes. -/
inductive Turn.Kind where
  | plain
  | enters (c : Nat)
  | leaves (c : Nat)
  | increfs (id : Int) (link : Bool)
  | decrefs (id : Int)

def Turn.kind : Turn → Turn.Kind
  | .command (.enter c _ _) => .enters c
  | .command (.exit c _) | .command (.endSession c) => .leaves c
  | .command (.incref _ id link _) => .increfs id link
  | .command (.decref _ id _) => .decrefs id
  | _ => .plain

namespace Turn
variable {turn : Turn}

theorem of_leaves (leaves : turn.kind = .leaves c) :
    (∃ failure, turn = .command (.exit c failure)) ∨ turn = .command (.endSession c) := by
  unfold kind at leaves
  split at leaves <;> cases leaves
  · exact .inl ⟨_, rfl⟩
  · exact .inr rfl

theorem of_decrefs {id} (decrefs : turn.kind = .decrefs id) :
    ∃ c restrict, turn = .command (.decref c id restrict) := by
  unfold kind at decrefs
  split at decrefs <;> cases decrefs
  exact ⟨_, _, rfl⟩

end Turn

namespace Roster

/-- The interpreter is there and has not ended. -/
def Registered (o : Roster) (id : Int) : Prop := ∃ s, o.standing id = some s ∧ s.status ≠ .destroyed

/-- Every context that is in no session runs in the main interpreter. -/
def Homely (o : Roster) : Prop := ∀ c, (o.place c).stage = .idle → (o.place c).current = 0

/-- All that a turn of some kind can do. -/
inductive Step : Turn.Kind → Roster → Roster → Prop
  | meanwhile {kind o o'} : Meanwhile o o' → Step kind o o'
  | context {o} : Step .plain o { o with places := o.places ++ [{}] }
  | create {o} (whence : Whence) (link : Bool) :
    Step .plain o ((o.create whence).change o.nextId fun s => { s with requiresRefs := s.requiresRefs || link })
  | own {o} (name : String) : Step .plain o (((o.create .stdlib).addRef o.nextId true).keepHandle name ⟨o.nextId, true⟩)
  | refer {o id} (name : String) : o.Registered id →
    Step .plain o ((o.addRef id false).keepHandle name ⟨id, false⟩)
  | drop {o name h} : o.handles.get? name = some h →
    Step .plain o ({ o with handles := o.handles.erase name }.dropRef h.id h.owning)
  | incref {o id link} : o.Registered id → Step (.increfs id link) o (o.addRef id link)
  | decref {o id} : o.Registered id → Step (.decrefs id) o (o.dropRef id true)
  | enter {o c t} : o.Free c → o.status? t = some .ready → Step (.enters c) o (o.enter c t)
  | leave {o c} : Step (.leaves c) o (o.leave c)

theorem Step.of_eq (same : o' = o) : Step kind o o' := .meanwhile (.of_eq same)

theorem Step.new (whence) : Step .plain o (o.create whence) := by
  have step := Step.create (o := o) whence false
  rwa [change_of_eq fun s _ => by simp] at step

end Roster

namespace Machine
variable {m : Machine}

theorem registered_of_get? {id i} (found : m.get? id = some i) : m.roster.Registered id := by
  obtain ⟨there, lives⟩ := Option.filter_eq_some_iff.1 found
  refine ⟨i.standing, congrArg (Option.map Interpreter.standing) there, ?_⟩
  simpa [Interpreter.isReady, Interpreter.standing] using lives

theorem isSome_get?_iff (m : Machine) (id) : (m.get? id).isSome = true ↔ m.roster.Registered id := by
  constructor
  · intro found
    obtain ⟨i, found⟩ := Option.isSome_iff_exists.1 found
    exact registered_of_get? found
  · rintro ⟨s, there, lives⟩
    obtain ⟨i, found, rfl⟩ := Option.map_eq_some_iff.1 there
    rw [get?, found]
    simpa [Option.filter, Interpreter.isReady, Interpreter.standing] using lives

/-! ## The parts of commands -/

theorem answer_fst (m : Machine) (work : Work ε α) (fail : ε → Trouble) (reply : α → Response) :
    (m.answer work fail reply).1 = (work m).2 := by
  unfold answer
  rcases work m with ⟨_ | _, m'⟩ <;> rfl

theorem operate_fst (m : Machine) (work : Work InterpError α) (reply : α → Response) :
    (m.operate work reply).1 = (work m).2 := answer_fst m work _ reply

variable {kind : Turn.Kind}

theorem step_withConfig (step : ∀ config, Roster.Step kind m.roster (k config).1.roster) :
    Roster.Step kind m.roster (m.withConfig source k).1.roster := by
  unfold withConfig
  split
  · exact step none
  · split
    · exact step _
    · exact .of_eq rfl

theorem step_withTarget {target k} (step : ∀ i, Roster.Step kind m.roster (k i).1.roster) :
    Roster.Step kind m.roster (m.withTarget target k).1.roster := by
  unfold withTarget
  split
  · exact step _
  · exact .of_eq rfl

theorem step_withScript (step : ∀ s, Roster.Step kind m.roster (k s).1.roster) :
    Roster.Step kind m.roster (m.withScript source filename k).1.roster := by
  unfold withScript
  split
  · exact step _
  · exact .of_eq rfl

theorem newInterpreter_cases (config whence) (m : Machine) :
    (∃ e, Work.newInterpreter config whence m = (.error e, m)) ∨
    (∃ m', Work.newInterpreter config whence m = (.ok m.roster.nextId, m') ∧ m'.roster = m.roster.create whence) := by
  rw [Work.newInterpreter, bind_of_ok (get_apply m)]
  cases making : m.newInterpreter (config.getD Config.isolated) whence with
  | error e => exact .inl ⟨e, rfl⟩
  | ok made =>
    obtain ⟨m', id⟩ := made
    obtain ⟨made, rfl⟩ := roster_newInterpreter making
    exact .inr ⟨m', rfl, made⟩

theorem step_create (config link) (m : Machine) : Roster.Step .plain m.roster (Work.create config link m).2.roster := by
  obtain ⟨e, failed⟩ | ⟨m', made, created⟩ := newInterpreter_cases config .stdlib m
  · rw [Work.create, bind_of_error failed]
    exact .of_eq rfl
  · rw [Work.create, bind_of_ok made]
    cases link with
    | true =>
      have linked := m'.roster_modifyInterpreter m.roster.nextId (f := fun i => { i with requiresRefs := true })
        (g := fun s => { s with requiresRefs := s.requiresRefs || true }) (fun _ => rfl)
        (fun i => by simp [Interpreter.standing])
      change Roster.Step .plain m.roster (m'.modifyInterpreter m.roster.nextId _).roster
      rw [linked, created]
      exact .create .stdlib true
    | false =>
      change Roster.Step .plain m.roster m'.roster
      rw [created]
      exact .new .stdlib

theorem step_newInterpreter (config whence) (m : Machine) :
    Roster.Step .plain m.roster (Work.newInterpreter config whence m).2.roster := by
  obtain ⟨e, failed⟩ | ⟨m', made, created⟩ := newInterpreter_cases config whence m
  · rw [failed]
    exact .of_eq rfl
  · rw [made]
    exact created ▸ .new whence

theorem createOwned_cases (config) (m : Machine) :
    (∃ e, Work.createOwned config m = (.error e, m)) ∨
    (∃ m', Work.createOwned config m = (.ok ⟨m.roster.nextId, true⟩, m') ∧
      m'.roster = (m.roster.create .stdlib).addRef m.roster.nextId true) := by
  obtain ⟨e, failed⟩ | ⟨m', made, created⟩ := newInterpreter_cases config .stdlib m
  · exact .inl ⟨e, by rw [Work.createOwned, bind_of_error failed]⟩
  · refine .inr ⟨m'.addRef m.roster.nextId true, ?_, ?_⟩
    · rw [Work.createOwned, bind_of_ok made]
      rfl
    · rw [roster_addRef, created]

theorem reference_cases (id) (m : Machine) :
    (∃ e, Work.reference id m = (.error e, m)) ∨
    (∃ m', Work.reference id m = (.ok ⟨id, false⟩, m') ∧ m.roster.Registered id ∧
      m'.roster = m.roster.addRef id false) := by
  rw [Work.reference, bind_of_ok (get_apply m)]
  split
  · exact .inl ⟨_, rfl⟩
  · next found =>
    have found : (m.get? id).isSome = true := Option.isSome_iff_ne_none.2 (by simpa using found)
    exact .inr ⟨m.addRef id false, rfl, (m.isSome_get?_iff id).1 found, m.roster_addRef id false⟩

theorem step_incref (c id link restrict) (m : Machine) :
    Roster.Step (.increfs id link) m.roster (Work.incref c id link restrict m).2.roster := by
  obtain ⟨e, failed, -⟩ | ⟨i, resolved, found, -⟩ := resolve_cases c id restrict true "incref" m
  · rw [Work.incref, bind_of_error failed]
    exact .of_eq rfl
  · have registered := registered_of_get? found
    obtain rfl := id_of_get? found
    rw [Work.incref, bind_of_ok resolved]
    change Roster.Step _ m.roster (m.addRef i.id link).roster
    rw [roster_addRef]
    exact .incref registered

/-- Dropping a reference by its id: refused where the id is not registered or is not this library's to change. -/
theorem decref_cases (c id restrict) (m : Machine) :
    ((Work.decref c id restrict m).2.roster = m.roster ∧ (restrict = false → ¬ m.roster.Registered id)) ∨
    (m.roster.Registered id ∧ (restrict = true → m.roster.whence? id = some .stdlib) ∧
      (Work.decref c id restrict m).2.roster = m.roster.dropRef id true) := by
  obtain ⟨e, failed, refused⟩ | ⟨i, resolved, found, whence⟩ := resolve_cases c id restrict true "decref" m
  · left
    rw [Work.decref, bind_of_error failed]
    refine ⟨rfl, fun open_to_all registered => ?_⟩
    obtain ⟨i, found⟩ := Option.isSome_iff_exists.1 ((m.isSome_get?_iff id).2 registered)
    exact Bool.noConfusion (open_to_all.symm.trans (refused i found).1)
  · have registered := registered_of_get? found
    obtain rfl := id_of_get? found
    rw [Work.decref, bind_of_ok resolved]
    refine .inr ⟨registered, fun asked => ?_, m.roster_dropRef i.id true⟩
    rw [Roster.whence?, standing_roster, (Option.filter_eq_some_iff.1 found).1]
    exact congrArg some (whence asked)

theorem step_enter (inside : c < m.roster.places.length) (t shared) :
    Roster.Step (.enters c) m.roster (Work.enter c t shared m).2.roster := by
  obtain ⟨e, m', failed, same⟩ | ⟨m', entered, idle, ready, moved⟩ := enter_cases c t shared m
  · rw [failed]
    exact .of_eq same
  · rw [entered]
    exact moved ▸ .enter ⟨inside, idle⟩ ready

/-! ## Commands and turns -/

theorem visits_act {command id} (visit : command.visit = some id)
    (free : ∀ c, command.on = some (c, false) → m.roster.Free c) : m.roster.Visits id (m.act command).1.roster := by
  have steady := m.host_steady
  cases command with
  | setGlobals c id updates restrict =>
    cases visit
    rw [act, operate_fst]
    exact visits_setGlobals (free c rfl) id updates restrict
  | runString c id source shared restrict =>
    cases visit
    rw [act, operate_fst]
    exact visits_runString steady (free c rfl) id source shared restrict
  | runFunction c id f shared restrict =>
    cases visit
    rw [act, operate_fst]
    exact visits_runFunction steady (free c rfl) id f shared restrict
  | exec c id code shared restrict =>
    cases visit
    rw [act, operate_fst]
    exact visits_execIn steady (free c rfl) id code shared restrict
  | execScript c id source filename shared restrict =>
    cases visit
    rw [act, withScript]
    split
    · rw [operate_fst]
      exact visits_execIn steady (free c rfl) id _ shared restrict
    · exact .of_eq rfl
  | call c id callee args kwargs preserveExc restrict name =>
    cases visit
    have visits := visits_callIn steady (free c rfl) id callee args kwargs preserveExc restrict
    rw [act]
    generalize Work.callIn m.host c id callee args kwargs preserveExc restrict m = ran at visits ⊢
    obtain ⟨e | ⟨v, f⟩, m'⟩ := ran
    · exact visits
    · change m.roster.Visits id (m'.keep name v).roster
      rw [roster_keep]
      exact visits
  | _ => cases visit

theorem step_act (homely : m.roster.Homely)
    (on : ∀ c held, command.on = some (c, held) → c < m.roster.places.length ∧ (held = false → m.roster.Free c)) :
    Roster.Step (Turn.command command).kind m.roster (m.act command).1.roster := by
  have free : ∀ {c}, command.on = some (c, false) → m.roster.Free c := fun here => (on _ _ here).2 rfl
  have steady := m.host_steady
  cases command with
  | newContext =>
    have grown : ({ m with contexts := m.contexts ++ [({} : Context)] } : Machine).roster =
        { m.roster with places := m.roster.places ++ [{}] } :=
      Roster.ext rfl (fun _ => rfl) List.map_append rfl rfl
    exact grown ▸ .context
  | create config link =>
    refine step_withConfig fun config => ?_
    rw [operate_fst]
    exact step_create config link m
  | newInterpreter config whence =>
    refine step_withConfig fun config => ?_
    rw [operate_fst]
    exact step_newInterpreter config whence m
  | createOwned config name =>
    refine step_withConfig fun config => ?_
    obtain ⟨e, failed⟩ | ⟨m', made, created⟩ := createOwned_cases config m
    · rw [failed]
      exact .of_eq rfl
    · rw [made]
      change Roster.Step .plain m.roster (m'.keepHandle name _).roster
      rw [roster_keepHandle, created]
      exact .own name
  | reference id name =>
    obtain ⟨e, failed⟩ | ⟨m', made, registered, counted⟩ := reference_cases id m
    · rw [act, failed]
      exact .of_eq rfl
    · rw [act, made]
      change Roster.Step .plain m.roster (m'.keepHandle name _).roster
      rw [roster_keepHandle, counted]
      exact .refer name registered
  | dropHandle name =>
    rw [act]
    split
    · next h kept =>
      change Roster.Step .plain m.roster ({ m with handles := m.handles.erase name }.dropRef h.id h.owning).roster
      rw [roster_dropRef]
      exact .drop kept
    · exact .of_eq rfl
  | destroy c id restrict =>
    rw [act, operate_fst]
    exact .meanwhile (meanwhile_destroy (homely c (free rfl).idle) id restrict)
  | setGlobals => exact .meanwhile (visits_act rfl fun _ => free).meanwhile
  | runString => exact .meanwhile (visits_act rfl fun _ => free).meanwhile
  | runFunction => exact .meanwhile (visits_act rfl fun _ => free).meanwhile
  | exec => exact .meanwhile (visits_act rfl fun _ => free).meanwhile
  | execScript => exact .meanwhile (visits_act rfl fun _ => free).meanwhile
  | call => exact .meanwhile (visits_act rfl fun _ => free).meanwhile
  | incref c id link restrict =>
    rw [act, operate_fst]
    exact step_incref c id link restrict m
  | decref c id restrict =>
    rw [act, operate_fst]
    obtain ⟨same, -⟩ | ⟨registered, -, dropped⟩ := decref_cases c id restrict m
    · exact .of_eq same
    · exact dropped ▸ .decref registered
  | isRunning c id restrict =>
    rw [act, operate_fst]
    exact .of_eq (quiet_resolve c _ restrict _ _ m)
  | getConfig c id restrict =>
    rw [act, operate_fst]
    exact .of_eq (quiet_resolve c id restrict _ _ m)
  | setPending c e => exact .of_eq (m.roster_modifyContext_of_eq c fun _ => rfl)
  | capture c e =>
    cases e with
    | some e => exact .of_eq rfl
    | none => exact .of_eq (m.roster_modifyContext_of_eq c fun _ => rfl)
  | hold v name => exact .of_eq (m.roster_keep name v)
  | dropHeld name => exact .of_eq (m.roster_dropHeld name)
  | registerFunction name f => exact .of_eq (m.roster_register name f)
  | whence id => exact step_withTarget fun _ => .of_eq rfl
  | inspect target => exact step_withTarget fun _ => .of_eq rfl
  | repr target name => exact step_withTarget fun _ => .of_eq rfl
  | holdInterpreter id name => exact step_withTarget fun _ => .of_eq rfl
  | useTool target name =>
    refine step_withTarget fun i => ?_
    split
    · exact .of_eq (m.roster_modifyInterpreter_of_eq i.id (fun _ => rfl) (fun _ => rfl))
    · exact .of_eq rfl
  | snapshot target v full purpose name =>
    refine step_withTarget fun i => ?_
    have quiet := m.roster_snapshot i.id v full
    generalize m.snapshot i.id v full = taken at quiet ⊢
    obtain ⟨m', e | s⟩ := taken
    · exact .of_eq quiet
    · exact .of_eq ((m'.roster_useSnapshot i s purpose name).trans quiet)
  | snapshotScript target source filename purpose =>
    exact step_withTarget fun i => step_withScript fun s => .of_eq (m.roster_useSnapshot i _ purpose none)
  | pack target callee args kwargs name =>
    refine step_withTarget fun i => ?_
    have quiet := quiet_pack i.id callee args kwargs m
    generalize Work.pack i.id callee args kwargs m = packed at quiet ⊢
    obtain ⟨e | call, m'⟩ := packed
    · exact .of_eq quiet
    · exact .of_eq quiet
  | beginSession c =>
    refine .of_eq ?_
    change (m.setSession c (some {})).roster = m.roster
    rw [roster_setSession]
    exact Roster.move_of_eq (by rw [← (free rfl).idle]; rfl)
  | endSession c =>
    change Roster.Step _ m.roster (Work.abandon c m).2.roster
    rw [roster_abandon]
    exact .leave
  | enter c target shared =>
    refine step_withTarget fun i => ?_
    rw [answer_fst]
    exact step_enter (on c true rfl).1 i.id shared
  | sessionExec c source filename =>
    refine step_withScript fun s => ?_
    rw [answer_fst]
    exact .meanwhile (drifts_exec steady c s m)
  | sessionCall c callee args kwargs name =>
    have meanwhile := drifts_call steady c callee args kwargs m
    rw [act]
    change m.roster.Meanwhile (Work.call m.host c callee args kwargs m).2.roster at meanwhile
    generalize Work.call m.host c callee args kwargs m = ran at meanwhile ⊢
    obtain ⟨halt | v, m'⟩ := ran
    · exact .meanwhile meanwhile
    · exact .meanwhile (meanwhile.trans (.of_eq (m'.roster_keep name v)))
  | callPending c name =>
    exact .meanwhile (drifts_callPending steady c _ { m with calls := m.calls.erase name })
  | getGlobal c name =>
    rw [act, answer_fst]
    exact .of_eq (quiet_target c m)
  | setGlobal c name v =>
    have quiet := quiet_target c m
    rw [act]
    generalize Work.target c m = found at quiet ⊢
    obtain ⟨e | id, m'⟩ := found
    · exact .of_eq quiet
    · exact .of_eq ((m'.roster_bind id name v).trans quiet)
  | sessionGlobals c =>
    rw [act, answer_fst]
    exact .of_eq (quiet_target c m)
  | preserve c name v =>
    rw [act, answer_fst]
    exact .of_eq (quiet_preserve c name v m)
  | exit c failure =>
    rw [act, answer_fst, roster_exit]
    exact .leave
  | listAll | current | main | describe | clearCall | sessionTarget => exact .of_eq rfl

theorem roster_perform (m : Machine) (command : Command) :
    (m.perform command).1.roster = ((m.settle (Value.leasesAll command.values)).act command).1.roster := by
  change (settle (letGo ((m.settle _).act command).1 _) []).roster = _
  rw [roster_settle, roster_letGo]

theorem context_of_allows (allowed : m.allows (.command command) = true) {c held} (on : command.on = some (c, held)) :
    c < m.roster.places.length ∧ (held = false → m.roster.Free c) := by
  rw [allows, on, Option.all_some, Bool.and_eq_true_iff] at allowed
  have inside : c < m.roster.places.length := by simpa [roster] using allowed.1
  refine ⟨inside, fun free => ⟨inside, ?_⟩⟩
  have unheld : (m.context c).session = none := by simpa [free] using allowed.2
  rw [stage_roster, session, unheld]
  rfl

theorem step_take (homely : m.roster.Homely) (allowed : m.allows turn = true) :
    Roster.Step turn.kind m.roster (m.take turn).roster := by
  cases turn with
  | command command =>
    have settled := m.roster_settle (Value.leasesAll command.values)
    change Roster.Step _ m.roster (m.perform command).1.roster
    rw [roster_perform, ← settled]
    refine step_act (settled.symm ▸ homely) fun c held on => ?_
    rw [settled]
    exact context_of_allows allowed on
  | define s name =>
    have meanwhile := m.host_steady.exec s {} m
    change Roster.Step .plain m.roster (Machine.letGo (s.exec m.host {} m).2.2 _).roster
    rw [roster_letGo]
    exact .meanwhile meanwhile
  | object typeName => exact .of_eq rfl
  | readLog => exact .of_eq rfl

end Machine
end MonitoredVm
