import MonitoredVm.Proofs.Crossing
import MonitoredVm.Proofs.Interference

/-!
# Namespaces and sessions

Code reads and binds names in the namespaces of interpreters, and calls native functions: the store of a machine. A
session binds what is shared in the namespace of its target when it enters. Everything else about it, and leaving
altogether, does not show in the store.

Main statements: entering is all or nothing on the store, and it succeeds exactly for an interpreter at rest and values
that cross (`enter_store`, `engage_store`); code that runs in a session changes the namespace of the target only, if its
natives stay out of the machine (`exec_store`, `call_store`).
-/

namespace MonitoredVm

open Machine

/-- What code can reach: the namespaces of the interpreters and the native functions. -/
structure Store where
  globals : Int → Namespace
  functions : Bindings HostFunction

def Machine.store (m : Machine) : Store := ⟨m.globals, m.functions⟩

namespace Store

/-- Replaces the namespace of one interpreter. -/
def put (s : Store) (id : Int) (ns : Namespace) : Store :=
  { s with globals := fun j => if j = id then ns else s.globals j }

theorem globals_put (s : Store) (id ns) : (s.put id ns).globals id = ns := if_pos rfl

theorem globals_put_of_ne (s : Store) {id j} (other : j ≠ id) (ns) :
    (s.put id ns).globals j = s.globals j := if_neg other

theorem put_put (s : Store) (id ns ns') : (s.put id ns).put id ns' = s.put id ns' := by
  unfold put
  congr 1
  funext j
  dsimp only
  split <;> rfl

theorem put_globals (s : Store) (id) : s.put id (s.globals id) = s := by
  have same : (fun j => if j = id then s.globals id else s.globals j) = s.globals := by
    funext j
    split
    · next here => rw [here]
    · rfl
  unfold put
  rw [same]

end Store

namespace Machine
variable {m m' : Machine} {id : Int}

/-! ## What shows in the store -/

theorem store_modifyInterpreter_of_eq (m : Machine) (id) (same : ∀ i, (f i).id = i.id)
    (globals : ∀ i, (f i).globals = i.globals) : (m.modifyInterpreter id f).store = m.store := by
  have unchanged : (m.modifyInterpreter id f).globals = m.globals := by
    funext j
    rw [Machine.globals, Machine.globals, m.find?_modifyInterpreter id j same, Option.map_map]
    congr 2
    funext i
    dsimp only [Function.comp]
    split
    · exact globals i
    · rfl
  rw [store, unchanged]
  rfl

theorem store_modifyInterpreter (there : (m.roster.standing id).isSome = true) {f : Interpreter → Interpreter}
    {g : Namespace → Namespace} (same : ∀ i, (f i).id = i.id) (globals : ∀ i, (f i).globals = g i.globals) :
    (m.modifyInterpreter id f).store = m.store.put id (g (m.globals id)) := by
  obtain ⟨s, there⟩ := Option.isSome_iff_exists.1 there
  obtain ⟨i, found, -⟩ := Option.map_eq_some_iff.1 there
  have changed : (m.modifyInterpreter id f).globals = fun j => if j = id then g (m.globals id) else m.globals j := by
    funext j
    rw [Machine.globals, m.find?_modifyInterpreter id j same]
    split
    · next here =>
      subst here
      rw [Machine.globals, found]
      exact globals i
    · rw [Option.map_id']
      rfl
  rw [store, changed]
  rfl

theorem store_coarse : Coarse store where
  note _ _ _ := rfl
  acquire m owner := by
    unfold acquire
    dsimp only
    split
    · exact store_modifyInterpreter_of_eq _ owner (fun _ => rfl) (fun _ => rfl)
    · rfl
  session _ _ _ _ := rfl

theorem knows_of_store (same : m'.store = m.store) : m'.knows = m.knows := by
  funext name
  unfold knows
  rw [show m'.functions = m.functions from congrArg Store.functions same]

theorem store_setIdle (m : Machine) (id) : (m.setIdle id).store = m.store := by
  refine store_modifyInterpreter_of_eq m id (fun i => ?_) (fun i => ?_)
  · split <;> rfl
  · split <;> rfl

theorem store_setRunning (marked : m.setRunning id = .ok m') : m'.store = m.store := by
  unfold setRunning at marked
  split at marked
  · cases marked
    exact store_modifyInterpreter_of_eq m id (fun _ => rfl) (fun _ => rfl)
  · cases marked
  · cases marked

theorem not_ready_of_setRunning (failed : m.setRunning id = .error e) : m.roster.status? id ≠ some .ready := by
  rw [status_roster]
  intro ready
  unfold setRunning at failed
  rw [ready] at failed
  cases failed

theorem store_bind (there : (m.roster.standing id).isSome = true) (name v) :
    (m.bind id name v).store = m.store.put id ((m.globals id).insert name v) := by
  unfold bind
  dsimp only
  rw [store_coarse.letGo]
  exact store_modifyInterpreter there (g := fun ns => ns.insert name v) (fun _ => rfl) fun _ => rfl

theorem store_bindAll (there : (m.roster.standing id).isSome = true) (bindings) :
    (m.bindAll id bindings).store = m.store.put id ((m.globals id).insertAll bindings) := by
  rw [bindAll, Bindings.insertAll]
  induction bindings generalizing m with
  | nil => exact (m.store.put_globals id).symm
  | cons b rest ih =>
    have bound := store_bind there b.1 b.2
    have shows : (m.bind id b.1 b.2).globals id = (m.globals id).insert b.1 b.2 := by
      change (m.bind id b.1 b.2).store.globals id = _
      rw [bound, Store.globals_put]
    rw [List.foldl_cons, List.foldl_cons]
    refine (ih (by rw [roster_bind]; exact there)).trans ?_
    rw [bound, Store.put_put, shows]

/-- The machine with this namespace in an interpreter. -/
def install (m : Machine) (id : Int) (ns : Namespace) : Machine :=
  m.modifyInterpreter id fun i => { i with globals := ns }

theorem roster_install (m : Machine) (id ns) : (m.install id ns).roster = m.roster :=
  m.roster_modifyInterpreter_of_eq id (fun _ => rfl) (fun _ => rfl)

theorem store_install (there : (m.roster.standing id).isSome = true) (ns) :
    (m.install id ns).store = m.store.put id ns :=
  store_modifyInterpreter there (g := fun _ => ns) (fun _ => rfl) fun _ => rfl

end Machine

namespace Work
variable {ε α : Type} {m : Machine} {c : Nat} {t : Int}

/-! ## Leaving -/

theorem store_leave (c) (m : Machine) : (leave c m).2.store = m.store := by
  rw [leave, state_bind, state_get]
  dsimp only
  cases (m.session c).stage with
  | idle => rfl
  | entered t previous => exact (m.switch c previous).store_setIdle t

theorem store_abandon (c) (m : Machine) : (abandon c m).2.store = m.store := by
  change ((leave c m).2.letGo _).store = _
  rw [store_coarse.letGo]
  exact store_leave c m

theorem store_exit (c failure) : Unseen Machine.store (exit c failure) := by
  refine Unseen.bind (.lift (store_leave c)) fun session => ?_
  cases session.stage with
  | idle => exact .throw _
  | entered t p => exact (store_coarse.handOver _ _ _).bind fun _ => .pure _

theorem store_disengage (c) (outcome : Except Halt Unit) : Unseen Machine.store (disengage c outcome) := by
  match outcome with
  | .ok () => exact (store_exit c none).convert _
  | .error (.raised e) => exact (store_exit c (some e)).convert _
  | .error .exhausted => exact Unseen.bind (.lift (store_abandon c)) fun _ => .throw _

/-! ## Entering -/

/-- A context can enter the interpreter with these values: it is at rest, and they cross. -/
structure Enterable (t : Int) (shared : Namespace) (m : Machine) : Prop where
  ready : m.roster.status? t = some .ready
  crosses : ∀ e ∈ shared.entries, e.2.Crosses m.knows

/-- Packing, marking and moving do not show in the store; binding does, as the target is still there. -/
theorem store_bound {shared : Namespace} {m₁ m₂ : Machine}
    (packing : packAll (m.context c).current [] shared.entries m = (.ok packed, m₁))
    (marking : m₁.setRunning t = .ok m₂) (bindings) :
    ((m₂.switch c t).bindAll t bindings).store = m.store.put t ((m.globals t).insertAll bindings) := by
  have kept := store_coarse.packAll (m.context c).current shared.entries [] m
  rw [packing] at kept
  obtain ⟨ready, marked⟩ := roster_setRunning marking
  have store : m₂.store = m.store := (store_setRunning marking).trans kept
  have there : ((m₂.switch c t).roster.standing t).isSome = true := by
    rw [roster_switch, marked]
    change (((m₁.roster.mark t .running).standing t).isSome) = true
    obtain ⟨s, there, -⟩ := Option.map_eq_some_iff.1 ready
    rw [Roster.mark, Roster.standing_change, if_pos rfl, there]
    rfl
  rw [store_bindAll there]
  change m₂.store.put t ((m₂.store.globals t).insertAll bindings) = _
  rw [store]
  rfl

theorem enter_store (idle : (m.session c).stage = .idle) (t) (shared : Namespace) :
    (Enterable t shared m ∧ ∃ bindings m', enter c t shared m = (.ok (), m') ∧ shared.ArriveAs bindings ∧
      m'.store = m.store.put t ((m.globals t).insertAll bindings)) ∨
    (¬ Enterable t shared m ∧ ∃ e m', enter c t shared m = (.error e, m') ∧ m'.store = m.store) := by
  have entry := entry_enter idle t shared
  have kept := store_coarse.packAll (m.context c).current shared.entries [] m
  have quiet := roster_coarse.packAll (m.context c).current shared.entries [] m
  rcases outcome : enter c t shared m with ⟨result, after⟩
  rw [outcome] at entry
  cases entry with
  | unpacked packing =>
    obtain ⟨e, inside, blocked⟩ := packAll_error packing
    rw [packing] at kept
    refine .inr ⟨fun open_ => ?_, _, _, rfl, kept⟩
    rw [(open_.crosses e inside).shareable] at blocked
    cases blocked
  | @unready packed e m₁ packing marking =>
    rw [packing] at kept quiet
    refine .inr ⟨fun open_ => not_ready_of_setRunning marking ?_, _, _, rfl, ?_⟩
    · rw [show m₁.roster = m.roster from quiet]
      exact open_.ready
    · rw [store_coarse.letGo]
      exact kept
  | @unbuilt packed e left m₁ m₂ packing marking rebuilding =>
    obtain ⟨e', inside, unknown⟩ := rebuildAll_error (packAll_ok packing).2 rebuilding
    rw [packing] at kept
    have store : m₂.store = m.store := (store_setRunning marking).trans kept
    refine .inr ⟨fun open_ => unknown ?_, _, _, rfl, ?_⟩
    · rw [knows_of_store store]
      exact (open_.crosses e' inside).known
    · rw [store_coarse.letGo, store_setIdle]
      exact store
  | @inside packed bindings m₁ m₂ packing marking rebuilding =>
    obtain ⟨shareable, holds⟩ := packAll_ok packing
    obtain ⟨known, arrive⟩ := rebuildAll_ok holds rebuilding
    obtain ⟨ready, -⟩ := roster_setRunning marking
    rw [packing] at kept quiet
    rw [show m₁.roster = m.roster from quiet] at ready
    have store : m₂.store = m.store := (store_setRunning marking).trans kept
    rw [knows_of_store store] at known
    refine .inl ⟨⟨ready, fun e inside => ⟨shareable e inside, known e inside⟩⟩, bindings, _, rfl, arrive, ?_⟩
    exact store_bound packing marking bindings

theorem engage_store (idle : (m.roster.place c).stage = .idle) (t) (shared : Namespace) :
    (Enterable t shared m ∧ ∃ bindings m', engage c t shared m = (.ok (), m') ∧ shared.ArriveAs bindings ∧
      m'.roster = m.roster.enter c t ∧ m'.store = m.store.put t ((m.globals t).insertAll bindings)) ∨
    (¬ Enterable t shared m ∧ ∃ e m', engage c t shared m = (.error e, m') ∧ m'.roster = m.roster ∧
      m'.store = m.store) := by
  have fresh := roster_newSession idle
  have started : ((m.setSession c (some {})).session c).stage = .idle := by
    rw [← stage_roster, fresh, idle]
  have same : Enterable t shared (m.setSession c (some {})) ↔ Enterable t shared m :=
    ⟨fun open_ => ⟨fresh ▸ open_.ready, open_.crosses⟩, fun open_ => ⟨fresh.symm ▸ open_.ready, open_.crosses⟩⟩
  have rosters := engage_cases idle t shared
  obtain ⟨open_, bindings, m', entered, arrive, store⟩ | ⟨closed, e, m', failed, store⟩ := enter_store started t shared
  · have engaged := engage_of_ok entered
    rw [engaged] at rosters
    obtain ⟨e, m'', wrong, -⟩ | ⟨m'', here, -, moved⟩ := rosters
    · cases congrArg Prod.fst wrong
    · obtain rfl : m' = m'' := congrArg Prod.snd here
      exact .inl ⟨same.1 open_, bindings, m', engaged, arrive, moved, store⟩
  · have refused := engage_of_error failed
    rw [refused] at rosters
    obtain ⟨e', m'', here, back⟩ | ⟨m'', wrong, -⟩ := rosters
    · obtain rfl : (abandon c m').2 = m'' := congrArg Prod.snd here
      exact .inr ⟨fun open_ => closed (same.2 open_), _, _, refused, back, (store_abandon c m').trans store⟩
    · cases congrArg Prod.fst wrong

end Work

/-! ## Running code -/

/-- Where these native functions are registered, the natives stay out of the machine: they neither move contexts, nor
change how interpreters stand, nor bind names. -/
def Natives.Aloof (h : Natives Machine) (functions : Bindings HostFunction) : Prop :=
  h.Keeps fun m m' => m.functions = functions → m'.roster = m.roster ∧ m'.store = m.store

namespace Work
variable {α : Type} {m : Machine} {c : Nat} {t p : Int} {h : Natives Machine}

theorem target_apply (entered : (m.roster.place c).stage = .entered t p) : target c m = (.ok t, m) := by
  rw [stage_roster] at entered
  rw [target, bind_of_ok (get_apply m), entered]
  rfl

/-- What runs with the namespace taken out changes that namespace only, if it stays out of the machine. -/
theorem withGlobals_store (there : (m.roster.standing t).isSome = true)
    (run : Namespace → Machine → α × Namespace × Machine)
    (aloof : (run (m.globals t) (m.install t {})).2.2.roster = (m.install t {}).roster ∧
      (run (m.globals t) (m.install t {})).2.2.store = (m.install t {}).store) :
    (withGlobals t run m).2.roster = m.roster ∧
      (withGlobals t run m).2.store = m.store.put t (run (m.globals t) (m.install t {})).2.1 := by
  have unfolded : (withGlobals t run m).2 =
      (run (m.globals t) (m.install t {})).2.2.install t (run (m.globals t) (m.install t {})).2.1 := rfl
  rw [unfolded]
  generalize run (m.globals t) (m.install t {}) = out at aloof
  obtain ⟨a, ns, m'⟩ := out
  obtain ⟨roster, store⟩ := aloof
  dsimp only at roster store ⊢
  have back : m'.roster = m.roster := roster.trans (m.roster_install t {})
  refine ⟨(m'.roster_install t ns).trans back, ?_⟩
  rw [store_install (by rw [back, there]), store, store_install there, Store.put_put]

section
variable (aloof : h.Aloof m.functions) (entered : (m.roster.place c).stage = .entered t p) (there : (m.roster.standing t).isSome = true)
include aloof entered there

/-- Running a script in a session: the namespace of the target is what the script makes of it. -/
theorem exec_store (script : Script) :
    ((exec h c script).run m).2.roster = m.roster ∧
      ((exec h c script).run m).2.store = m.store.put t (script.exec h (m.globals t) (m.install t {})).2.1 := by
  have found := convert_of_ok (target_apply entered) fun e => Halt.raised e.exception
  have ran := withGlobals_store there (fun globals m => script.exec h globals m)
    (aloof.exec script (m.globals t) (m.install t {}) rfl)
  change (exec h c script m).2.roster = m.roster ∧ (exec h c script m).2.store = _
  rw [exec, bind_of_ok found, bind_of_ok (liftM_apply _ m)]
  generalize withGlobals t (fun globals m => script.exec h globals m) m = out at ran ⊢
  obtain ⟨_ | _, m'⟩ := out
  · exact ran
  · exact ran

theorem call_store (callee args kwargs) :
    (call h c callee args kwargs m).2.roster = m.roster ∧ (call h c callee args kwargs m).2.store = m.store := by
  have found := convert_of_ok (target_apply entered) fun e => Halt.raised e.exception
  have ran := withGlobals_store there (fun globals m =>
    ((applyValue h callee args kwargs globals m).1, globals, (applyValue h callee args kwargs globals m).2))
    (aloof.applyValue callee args kwargs (m.globals t) (m.install t {}) rfl)
  rw [show m.store.put t (m.globals t) = m.store from m.store.put_globals t] at ran
  rw [call, bind_of_ok found, bind_of_ok (liftM_apply _ m)]
  dsimp only at ran ⊢
  generalize withGlobals t _ m = out at ran ⊢
  obtain ⟨_ | v, m'⟩ := out
  · exact ran
  · exact ran

theorem callPending_store (pending) :
    (callPending h c pending m).2.roster = m.roster ∧ (callPending h c pending m).2.store = m.store := by
  rw [callPending, state_bind, state_get]
  dsimp only
  rcases pending.unpack m.knows with ⟨left, e | ⟨callee, args, kwargs⟩⟩
  · exact ⟨rfl, rfl⟩
  · exact call_store aloof entered there callee args kwargs

end

end Work
end MonitoredVm
