import MonitoredVm.Proofs.Namespaces

/-!
# Isolation

An operation on another interpreter takes a context there, binds what is shared, executes code and takes the context
back. Something may fail at every step, and whatever fails, everything but the namespace of the target is as before.

Main statement: `execution_isolation`, for all operations at once (`Errand`). It is put together from what entering,
running and leaving do to the roster and to the store. What statements do to a namespace is told by `Executes`: they are
completed one after the other up to the first that fails or returns.
-/

namespace MonitoredVm

open Work

/-! ## Statements up to the first that stops -/

theorem eq_of_pure (ran : (pure a : ExceptT ε (StateM S) α) r = (.ok b, s)) :
    b = a := (Except.ok.inj (congrArg Prod.fst ran)).symm

def Stmt.binds? : Stmt → Option String
  | .act _ (.assign name _) => some name
  | .act _ (.delete name) => some name
  | .act _ _ => none
  | .define _ f => some f.name

section Blocks
variable {σ : Type} {h : Natives σ}

/-- A statement that ends well leaves all names but its own alone, and one that returns leaves all of them. -/
theorem Stmt.exec_frame {ns ns' : Namespace} {stmt : Stmt} (ran : stmt.exec h K globals ns r = (.ok (flow, ns'), r')) :
    (∀ name, stmt.binds? ≠ some name → ns'.get? name = ns.get? name) ∧ ∀ v, flow = .returned v → ns' = ns := by
  have kept : ns' = ns → (∀ name, stmt.binds? ≠ some name → ns'.get? name = ns.get? name) ∧
      ∀ v, flow = .returned v → ns' = ns := by
    rintro rfl
    exact ⟨fun _ _ => rfl, fun _ _ => rfl⟩
  match stmt with
  | .act _ .pass => exact kept (congrArg Prod.snd (eq_of_pure ran))
  | .act _ (.assign name e) =>
    obtain ⟨v, r₁, -, ran⟩ := ok_of_bind ran
    obtain ⟨_, r₂, -, ran⟩ := ok_of_bind ran
    obtain ⟨rfl, rfl⟩ := Prod.mk.inj (eq_of_pure ran)
    refine ⟨fun other differs => ?_, fun _ wrong => by cases wrong⟩
    rw [Bindings.get?_insert_any, if_neg fun same => differs (congrArg some same)]
  | .act _ (.delete name) =>
    rw [Stmt.exec] at ran
    split at ran
    · obtain ⟨_, r₂, -, ran⟩ := ok_of_bind ran
      obtain ⟨rfl, rfl⟩ := Prod.mk.inj (eq_of_pure ran)
      refine ⟨fun other differs => ?_, fun _ wrong => by cases wrong⟩
      exact Bindings.get?_erase_of_ne ns fun same => differs (congrArg some same)
    · cases congrArg Prod.fst ran
  | .act _ (.raise type none) => cases congrArg Prod.fst ran
  | .act _ (.raise type (some e)) =>
    obtain ⟨v, r₁, -, ran⟩ := ok_of_bind ran
    cases congrArg Prod.fst ran
  | .act _ (.ret e) =>
    obtain ⟨v, r₁, -, ran⟩ := ok_of_bind ran
    exact kept (congrArg Prod.snd (eq_of_pure ran))
  | .act _ (.eval e) =>
    obtain ⟨v, r₁, -, ran⟩ := ok_of_bind ran
    exact kept (congrArg Prod.snd (eq_of_pure ran))
  | .define _ f =>
    obtain ⟨_, r₁, -, ran⟩ := ok_of_bind ran
    obtain ⟨rfl, rfl⟩ := Prod.mk.inj (eq_of_pure ran)
    refine ⟨fun other differs => ?_, fun _ wrong => by cases wrong⟩
    rw [Bindings.get?_insert_any, if_neg fun same => differs (congrArg some same)]

/-- Statements at module level, each executed to its end: from a namespace and a run to what they lead to. -/
inductive Completes (h : Natives σ) : List Stmt → Namespace × Run σ → Namespace × Run σ → Prop
  | nil (here : Namespace × Run σ) : Completes h [] here here
  | cons {s rest ns ns' r r' last} (first : s.exec h (callValue h callBudget) none ns r = (.ok (.next, ns'), r'))
    (others : Completes h rest (ns', r') last) : Completes h (s :: rest) (ns, r) last

/-- Executing statements leads to this namespace: they are completed up to one that fails or returns, or all of them
are. -/
def Executes (h : Natives σ) (body : List Stmt) (ns : Namespace) (r : Run σ) (last : Namespace) : Prop :=
  ∃ done rest stopped, body = done ++ rest ∧ Completes h done (ns, r) (last, stopped) ∧
    ∀ s ∈ rest.head?, ¬ ∃ next, Completes h [s] (last, stopped) next

theorem Completes.get? (completes : Completes h body start last) (free : ∀ s ∈ body, s.binds? ≠ some name) :
    last.1.get? name = start.1.get? name := by
  induction completes with
  | nil => rfl
  | cons first _ ih =>
    obtain ⟨here, others⟩ := List.forall_mem_cons.1 free
    exact (ih others).trans ((Stmt.exec_frame first).1 name here)

theorem Executes.get? (executes : Executes h body ns r last) (free : ∀ s ∈ body, s.binds? ≠ some name) :
    last.get? name = ns.get? name := by
  obtain ⟨done, rest, stopped, rfl, completes, -⟩ := executes
  exact completes.get? (List.forall_mem_append.1 free).1

theorem Executes.eq_of_nil (executes : Executes h [] ns r last) : last = ns := by
  obtain ⟨done, rest, stopped, split, completes, -⟩ := executes
  obtain ⟨rfl, rfl⟩ := List.append_eq_nil_iff.1 split.symm
  cases completes
  rfl

theorem Executes.nil (h : Natives σ) (ns) (r : Run σ) : Executes h [] ns r ns :=
  ⟨[], [], r, rfl, .nil _, fun _ wrong => absurd wrong (Option.not_mem_none _)⟩

theorem Executes.stop (stops : ∀ ns' r', s.exec h (callValue h callBudget) none ns r ≠ (.ok (.next, ns'), r')) (rest) :
    Executes h (s :: rest) ns r ns := by
  refine ⟨[], s :: rest, r, rfl, .nil _, fun s' here completed => ?_⟩
  obtain rfl : s = s' := Option.some.inj here
  obtain ⟨next, completed⟩ := completed
  cases completed with
  | cons first _ => exact stops _ _ first

/-- A block is executed up to the first statement that fails or returns. The induction is on the statements left. -/
theorem executes_block (h : Natives σ) (filename scope body ns) (r : Run σ) :
    Executes h body ns r (execBlock h (callValue h callBudget) none filename scope body ns r).1.2 := by
  induction body generalizing ns r with
  | nil => exact .nil h ns r
  | cons s rest ih =>
    rw [execBlock_cons]
    rcases ran : s.exec h (callValue h callBudget) none ns r with ⟨halt | ⟨flow, ns'⟩, r'⟩
    · refine .stop (fun _ _ completed => ?_) rest
      rw [ran] at completed
      cases congrArg Prod.fst completed
    · cases flow with
      | returned v =>
        obtain rfl : ns' = ns := (Stmt.exec_frame ran).2 v rfl
        refine .stop (fun _ _ completed => ?_) rest
        rw [ran] at completed
        cases congrArg Prod.fst completed
      | next =>
        obtain ⟨done, left, stopped, split, completes, stops⟩ := ih ns' r'
        exact ⟨s :: done, left, stopped, congrArg (s :: ·) split, .cons ran completes, stops⟩

end Blocks

theorem executes_script (h : Natives Machine) (script : Script) (ns host) :
    Executes h script.body ns { host } (script.exec h ns host).2.1 :=
  executes_block h script.filename "<module>" script.body ns { host }

/-! ## From entering to leaving -/

/-- How an operation on the interpreter `t` ends that shares values and executes statements there. Unless it `gets` there
it fails and leaves everything as it was. Otherwise what is shared is bound and the statements are executed, with the
namespace taken out of the machine; in the end it is put back, and everything else is as it was. -/
inductive Excursion (h : Natives Machine) (c : Nat) (t : Int) (shared : Namespace) (body : List Stmt) (gets : Prop)
    (m : Machine) {α : Type} : Except InterpError α × Machine → Prop
  | refused {e after} (closed : ¬ gets) (roster : after.roster = m.roster) (store : after.store = m.store) : Excursion h c t shared body gets m (.error e, after)
  | made {result after inside bindings last} (open_ : gets) (arrive : shared.ArriveAs bindings)
    (entered : inside.roster = m.roster.enter c t) (taken : inside.store = m.store.put t {})
    (executes : Executes h body ((m.globals t).insertAll bindings) { host := inside } last)
    (roster : after.roster = m.roster) (store : after.store = m.store.put t last) :
    Excursion h c t shared body gets m (result, after)

namespace Excursion
variable {h : Natives Machine} {c : Nat} {t : Int} {shared : Namespace} {body : List Stmt} {gets gets' : Prop}
  {m m' : Machine} {α : Type} {out : Except InterpError α × Machine}

theorem iff (excursion : Excursion h c t shared body gets m out) (same : gets' ↔ gets) :
    Excursion h c t shared body gets' m out := by
  rw [show gets' = gets from propext same]
  exact excursion

theorem after (excursion : Excursion h c t shared body gets m' out) (roster : m'.roster = m.roster)
    (store : m'.store = m.store) : Excursion h c t shared body gets m out := by
  have globals : m'.globals t = m.globals t := congrFun (congrArg Store.globals store) t
  cases excursion with
  | refused closed back kept => exact .refused closed (back.trans roster) (kept.trans store)
  | made open_ arrive entered taken executes back kept =>
    rw [roster] at entered back
    rw [store] at taken kept
    rw [globals] at executes
    exact .made open_ arrive entered taken executes back kept

end Excursion

namespace Work
variable {h : Natives Machine} {c : Nat} {t : Int} {shared : Namespace} {body : List Stmt} {m : Machine} {α β : Type}

/-- The work ends the session of a context and does not show in the store. -/
def Settles (c : Nat) (w : Work InterpError α) : Prop :=
  ∀ m : Machine, (w m).2.roster = m.roster.leave c ∧ (w m).2.store = m.store

theorem settles_report {report : Namespace × Option Failure → α} (outcome : Except Halt Unit) :
    Settles c (do return report (← disengage c outcome)) := by
  intro m
  refine ⟨?_, (store_disengage c outcome).bind (fun _ => .pure _) m⟩
  have left := roster_disengage c outcome m
  rcases value : disengage c outcome m with ⟨e | a, m'⟩
  · rw [value] at left
    rw [bind_of_error value]
    exact left
  · rw [value] at left
    rw [bind_of_ok value]
    exact left

theorem Settles.after {x : StateM Machine α} {f : α → Work InterpError β} (settles : ∀ a, Settles c (f a))
    (first : ∀ m, (x m).2.roster = m.roster ∧ (x m).2.store = m.store) :
    Settles c ((liftM x : Work InterpError α) >>= f) := by
  intro m
  rw [bind_of_ok (liftM_apply x m), ← (first m).1, ← (first m).2]
  exact settles _ _

/-- What the work does to a machine whose context has entered `t`: it executes the statements and leaves. -/
def Runs (h : Natives Machine) (c : Nat) (t : Int) (body : List Stmt) (w : Work InterpError α) (m : Machine) : Prop :=
  (w m).2.roster = m.roster.leave c ∧ ∃ last, Executes h body (m.globals t) { host := m.install t {} } last ∧
    (w m).2.store = m.store.put t last

theorem Settles.runs (settles : Settles c w) (m) : Runs h c t [] w m :=
  ⟨(settles m).1, m.globals t, .nil h _ _, (settles m).2.trans (m.store.put_globals t).symm⟩

theorem Runs.after {x : StateM Machine α} {f : α → Work InterpError β} (settles : ∀ a, Settles c (f a))
    {last : Namespace} (executes : Executes h body (m.globals t) { host := m.install t {} } last)
    (ran : (x m).2.roster = m.roster ∧ (x m).2.store = m.store.put t last) :
    Runs h c t body ((liftM x : Work InterpError α) >>= f) m := by
  rw [Runs, bind_of_ok (liftM_apply x m), ← ran.1]
  exact ⟨(settles _ _).1, last, executes, (settles _ _).2.trans ran.2⟩

theorem standing_enter {o : Roster} (ready : o.status? t = some .ready) :
    ((o.enter c t).standing t).isSome = true := by
  obtain ⟨s, there, -⟩ := Option.map_eq_some_iff.1 ready
  change ((o.mark t .running).standing t).isSome = true
  rw [Roster.mark, Roster.standing_change, if_pos rfl, there]
  rfl

section Inside
variable {e : Machine}

theorem stage_entered (free : m.roster.Free c) (entered : e.roster = m.roster.enter c t) :
    (e.roster.place c).stage = .entered t (m.roster.place c).current := by
  rw [entered, Roster.place_enter free.inside]

theorem runs_script {f : Except Halt Unit → Work InterpError α} (settles : ∀ a, Settles c (f a))
    (aloof : h.Aloof e.functions) (free : m.roster.Free c) (ready : m.roster.status? t = some .ready)
    (entered : e.roster = m.roster.enter c t) (script : Script) :
    Runs h c t script.body (liftM (exec h c script).run >>= f) e :=
  .after settles (executes_script h script (e.globals t) (e.install t {}))
    (exec_store aloof (stage_entered free entered) (entered ▸ standing_enter ready) script)

theorem runs_pending {f : PendingCall × Except Halt Value → Work InterpError α} (settles : ∀ a, Settles c (f a))
    (aloof : h.Aloof e.functions) (free : m.roster.Free c) (ready : m.roster.status? t = some .ready)
    (entered : e.roster = m.roster.enter c t) (pending) : Runs h c t [] (liftM (callPending h c pending) >>= f) e := by
  obtain ⟨roster, store⟩ :=
    callPending_store aloof (stage_entered free entered) (entered ▸ standing_enter ready) pending
  exact .after settles (.nil h _ _) ⟨roster, store.trans (e.store.put_globals t).symm⟩

end Inside

theorem excursion_engage {rest : Unit → Work InterpError α} (free : m.roster.Free c)
    (runs : ∀ e : Machine, e.roster = m.roster.enter c t → m.roster.status? t = some .ready →
      e.functions = m.functions → Runs h c t body (rest ()) e) :
    Excursion h c t shared body (Enterable t shared m) m ((engage c t shared >>= rest) m) := by
  obtain ⟨open_, bindings, e, engaged, arrive, entered, bound⟩ | ⟨closed, e, m', failed, roster, store⟩ :=
    engage_store free.idle t shared
  · rw [bind_of_ok engaged]
    have there := standing_enter (c := c) open_.ready
    rw [← entered] at there
    have globals : e.globals t = (m.globals t).insertAll bindings := by
      change e.store.globals t = _
      rw [bound, Store.globals_put]
    obtain ⟨left, last, executes, kept⟩ := runs e entered open_.ready (congrArg Store.functions bound)
    rw [globals] at executes
    -- leaving undoes entering on the roster; in the store only what the statements left is seen
    rw [entered, Roster.leave_enter free open_.ready] at left
    rw [bound, Store.put_put] at kept
    refine .made open_ arrive ((e.roster_install t {}).trans entered) ?_ executes left kept
    rw [Machine.store_install there, bound, Store.put_put]
  · rw [bind_of_error failed]
    exact .refused closed roster store

theorem whence_of_find (found : m.find? t = some i) : m.roster.whence? t = some i.whence := by
  rw [Roster.whence?, m.standing_roster, found]
  rfl

theorem resolve_of_ready (ready : m.roster.status? t = some .ready)
    (allowed : restrict = true → m.roster.whence? t = some .stdlib) (operation) :
    ∃ i, resolve c (some t) restrict true operation m = (.ok i, m) ∧ i.id = t := by
  obtain ⟨e, -, foreign⟩ | ⟨i, resolved, found, -⟩ := resolve_cases c t restrict true operation m
  · rw [m.status_roster] at ready
    obtain ⟨i, there, atRest⟩ := Option.map_eq_some_iff.1 ready
    have lives : m.get? t = some i := Option.filter_eq_some_iff.2 ⟨there, by rw [Interpreter.isReady, atRest]; rfl⟩
    obtain ⟨asked, other⟩ := foreign i lives
    exact absurd (Option.some.inj ((whence_of_find there).symm.trans (allowed asked))) other
  · exact ⟨i, resolved, Machine.id_of_get? found⟩

theorem excursion_resolve (ready : gets → m.roster.status? t = some .ready)
    (allowed : gets → restrict = true → m.roster.whence? t = some .stdlib)
    (made : ∀ i : Interpreter, i.id = t → (restrict = true → m.roster.whence? t = some .stdlib) →
      Excursion h c t shared body gets m (rest i m)) :
    Excursion h c t shared body gets m ((resolve c (some t) restrict true operation >>= rest) m) := by
  obtain ⟨e, failed, -⟩ | ⟨i, resolved, found, made_here⟩ := resolve_cases c t restrict true operation m
  · rw [bind_of_error failed]
    refine .refused (fun inside => ?_) rfl rfl
    obtain ⟨i, resolved, -⟩ := resolve_of_ready (c := c) (ready inside) (allowed inside) operation
    cases failed.symm.trans resolved
  · rw [bind_of_ok resolved]
    refine made i (Machine.id_of_get? found) fun asked => ?_
    rw [whence_of_find (Option.filter_eq_some_iff.1 found).1, made_here asked]

end Work

/-- The statements that code brings along; text that cannot be compiled brings none. -/
def Cargo.body (cargo : Cargo) : List Stmt := cargo.unload.toOption.elim [] Script.body

/-! ## Operations -/

/-- What a context can have done in another interpreter. -/
inductive Errand where
  | setGlobals (updates : Namespace)
  | exec (code : Runnable) (shared : Namespace)
  | runString (source : String) (shared : Namespace)
  | runFunction (f : Value) (shared : Namespace)
  | call (callee : Value) (args : List Value) (kwargs : Namespace) (preserveExc : Bool)

namespace Errand

def Answer : Errand → Type
  | .setGlobals _ => Unit
  | .call _ _ _ _ => Value × Option Failure
  | _ => Option Failure

/-- Has it done in the interpreter `id`. -/
def perform (h : Natives Machine) (c : Nat) (id : Int) (restrict : Bool) : (act : Errand) → Work InterpError act.Answer
  | .setGlobals updates => Work.setGlobals c id updates restrict
  | .exec code shared => Work.execIn h c id code shared restrict
  | .runString source shared => Work.runString h c id source shared restrict
  | .runFunction f shared => Work.runFunction h c id f shared restrict
  | .call callee args kwargs preserveExc => Work.callIn h c id callee args kwargs preserveExc restrict

/-- The values bound in the target at first. -/
def shared : Errand → Namespace
  | .setGlobals updates => updates
  | .exec _ shared | .runString _ shared | .runFunction _ shared => shared
  | .call _ _ _ _ => {}

/-- The statements to execute in the namespace of the target. -/
def body : Errand → List Stmt
  | .exec code _ => (code.load "exec").toOption.elim [] Cargo.body
  | .runString source _ => (Cargo.source source).body
  | .runFunction f _ => ((Runnable.function f).load "run_func").toOption.elim [] Cargo.body
  | .setGlobals _ | .call _ _ _ _ => []

/-- What it is about is fit to be brought to another interpreter. -/
def Fit (c : Nat) (m : Machine) : Errand → Prop
  | .setGlobals updates => updates.isEmpty = false
  | .exec code _ => (code.load "exec").isOk = true
  | .runString _ _ => True
  | .runFunction f _ => ((Runnable.function f).load "run_func").isOk = true
  | .call callee args kwargs _ => (Work.pack (m.context c).current callee args kwargs m).1.isOk = true

/-- The context gets into the target with it. -/
structure Enters (act : Errand) (c : Nat) (id : Int) (restrict : Bool) (m : Machine) : Prop where
  ready : m.roster.status? id = some .ready
  allowed : restrict = true → m.roster.whence? id = some .stdlib
  fit : act.Fit c m
  crosses : ∀ e ∈ act.shared.entries, e.2.Crosses m.knows

section Cases
variable {h : Natives Machine} {c : Nat} {id : Int} {restrict : Bool} {m : Machine} {act : Errand}

theorem enters_iff (allowed : restrict = true → m.roster.whence? id = some .stdlib) (fit : act.Fit c m) :
    act.Enters c id restrict m ↔ Work.Enterable id act.shared m :=
  ⟨fun enters => ⟨enters.ready, enters.crosses⟩, fun open_ => ⟨open_.ready, allowed, fit, open_.crosses⟩⟩

theorem excursion_runCargo (aloof : h.Aloof m.functions) (free : m.roster.Free c) (cargo : Cargo) (shared) :
    Excursion h c id shared cargo.body (Work.Enterable id shared m) m (Work.runCargo h c id cargo shared m) := by
  refine excursion_engage free fun e entered ready functions => ?_
  unfold Cargo.body
  dsimp only
  cases cargo.unload with
  | error halt => exact (settles_report (.error halt)).runs e
  | ok script => exact runs_script settles_report (functions ▸ aloof) free ready entered script

theorem excursion_load (act : Errand) (aloof : h.Aloof m.functions) (free : m.roster.Free c)
    {loaded : Except Exception Cargo} (fit : act.Fit c m ↔ loaded.isOk = true)
    (body : act.body = loaded.toOption.elim [] Cargo.body)
    (allowed : restrict = true → m.roster.whence? id = some .stdlib)
    (fails : ∀ e, loaded = .error e → w = throw (.raised e))
    (runs : ∀ cargo, loaded = .ok cargo → w = Work.runCargo h c id cargo act.shared) :
    Excursion h c id act.shared act.body (act.Enters c id restrict m) m (w m) := by
  cases loaded with
  | error e =>
    rw [fails e rfl]
    exact .refused (fun enters => by cases fit.1 enters.fit) rfl rfl
  | ok cargo =>
    rw [body, runs cargo rfl]
    exact (excursion_runCargo aloof free cargo act.shared).iff (enters_iff allowed (fit.2 rfl))

theorem excursion_setGlobals (free : m.roster.Free c) (updates) :
    Excursion h c id updates [] ((Errand.setGlobals updates).Enters c id restrict m) m
      (Work.setGlobals c id updates restrict m) := by
  refine excursion_resolve Enters.ready Enters.allowed fun i here allowed => ?_
  dsimp only
  split
  · next empty =>
    refine .refused (fun enters => ?_) rfl rfl
    have nonempty : updates.isEmpty = false := enters.fit
    rw [empty] at nonempty
    cases nonempty
  · next nonempty =>
    have fit : (Errand.setGlobals updates).Fit c m := Bool.eq_false_iff.2 nonempty
    rw [here]
    exact (excursion_engage free fun e _ _ _ => (settles_report (.ok ())).runs e).iff (enters_iff allowed fit)

theorem excursion_callIn (aloof : h.Aloof m.functions) (free : m.roster.Free c) (callee args kwargs preserveExc) :
    Excursion h c id {} [] ((Errand.call callee args kwargs preserveExc).Enters c id restrict m) m
      (Work.callIn h c id callee args kwargs preserveExc restrict m) := by
  refine excursion_resolve Enters.ready Enters.allowed fun i here allowed => ?_
  rw [bind_of_ok (get_apply m)]
  have roster := roster_coarse.pack (m.context c).current callee args kwargs m
  have store := Machine.store_coarse.pack (m.context c).current callee args kwargs m
  have fits : (Errand.call callee args kwargs preserveExc).Fit c m ↔
      (Work.pack (m.context c).current callee args kwargs m).1.isOk = true := Iff.rfl
  rcases packing : Work.pack (m.context c).current callee args kwargs m with ⟨e | pending, m'⟩
  · rw [packing] at roster store fits
    rw [bind_of_error (convert_of_error packing _)]
    exact .refused (fun enters => by cases fits.1 enters.fit) roster store
  · rw [packing] at roster store fits
    have same : m'.roster = m.roster := roster
    have functions : m'.functions = m.functions := congrArg Store.functions store
    -- packing only keeps the books, so the context enters from here exactly if it does from `m`
    have nothing : ∀ m, ∀ e ∈ ({} : Namespace).entries, e.2.Crosses (Machine.knows m) :=
      fun _ _ inside => absurd inside List.not_mem_nil
    have open_ : (Errand.call callee args kwargs preserveExc).Enters c id restrict m ↔ Work.Enterable id {} m' := by
      rw [enters_iff allowed (fits.2 rfl)]
      exact ⟨fun open_ => ⟨same ▸ open_.ready, nothing m'⟩, fun open_ => ⟨same ▸ open_.ready, nothing m⟩⟩
    rw [bind_of_ok (convert_of_ok packing _), here]
    refine Excursion.after (Excursion.iff (excursion_engage (same ▸ free) fun e entered ready kept => ?_) open_)
      same store
    refine runs_pending (fun x => ?_) (kept.trans functions ▸ aloof) (same ▸ free) ready entered pending
    have preserves : ∀ name v m, ((Work.preserve c name v).run m).2.roster = m.roster ∧
        ((Work.preserve c name v).run m).2.store = m.store := fun name v m =>
      ⟨roster_coarse.preserve c name v m, Machine.store_coarse.preserve c name v m⟩
    obtain ⟨_, (e | _) | v⟩ := x
    · have raised : ∀ {report : Namespace × Option Failure → Value × Option Failure},
        Work.Settles c (do return report (← Work.disengage c (.error (.raised e)))) := settles_report _
      dsimp only
      split
      · refine Work.Settles.after (fun result => ?_) (preserves "exc" (.exception e))
        cases result with
        | ok _ => exact raised
        | error failure => exact fun m => raised (m.note .debug (.notPreserved failure))
      · exact raised
    · dsimp only
      rw [pure_bind]
      exact settles_report (.error .exhausted)
    · refine Work.Settles.after (fun result => ?_) (preserves "result" v)
      cases result with
      | ok _ => exact settles_report (.ok ())
      | error e => exact settles_report (.error (.raised e.exception))

theorem excursion_perform (aloof : h.Aloof m.functions) (free : m.roster.Free c) (act : Errand) :
    Excursion h c id act.shared act.body (act.Enters c id restrict m) m (act.perform h c id restrict m) := by
  match act with
  | .setGlobals updates => exact excursion_setGlobals free updates
  | .exec code shared =>
    refine excursion_resolve Enters.ready Enters.allowed fun i here allowed => ?_
    refine excursion_load (.exec code shared) aloof free Iff.rfl rfl allowed (fun e failed => ?_) fun cargo loaded => ?_
    · rw [failed]
    · rw [loaded, here]
      rfl
  | .runString source shared =>
    refine excursion_resolve Enters.ready Enters.allowed fun i here allowed => ?_
    rw [here]
    exact (excursion_runCargo aloof free (.source source) shared).iff (enters_iff allowed trivial)
  | .runFunction f shared =>
    refine excursion_resolve Enters.ready Enters.allowed fun i here allowed => ?_
    refine excursion_load (.runFunction f shared) aloof free Iff.rfl rfl allowed (fun e failed => ?_)
      fun cargo loaded => ?_
    · rw [failed]
    · rw [loaded, here]
      rfl
  | .call callee args kwargs preserveExc => exact excursion_callIn aloof free callee args kwargs preserveExc

end Cases
end Errand

/-! ## The natives of a machine -/

/-- The function neither runs code in an interpreter nor ends one. -/
def HostFunction.staysOut : HostFunction → Bool
  | .run | .destroy => false
  | _ => true

theorem Work.callHost_aloof (inner : Option (Natives Machine)) (stays : f.staysOut = true) (args kwargs) (m : Machine) :
    (callHost inner f args kwargs m).2.roster = m.roster ∧ (callHost inner f args kwargs m).2.store = m.store := by
  cases f with
  | run | destroy => cases stays
  | names | status =>
    exact ⟨(unseen_interpreterOf args).bind (fun _ => .pure _) m, (unseen_interpreterOf args).bind (fun _ => .pure _) m⟩
  | builtin | const | echo | list | object | raise | exception => exact ⟨rfl, rfl⟩

theorem Machine.natives_aloof (inner : Option (Natives Machine)) {functions}
    (stay : ∀ name f, functions.get? name = some f → f.staysOut = true) : (Machine.natives inner).Aloof functions where
  refl _ _ := ⟨rfl, rfl⟩
  trans first second same := by
    obtain ⟨roster, store⟩ := first same
    obtain ⟨roster', store'⟩ := second ((congrArg Store.functions store).trans same)
    exact ⟨roster'.trans roster, store'.trans store⟩
  letGo v m _ := ⟨m.roster_letGo v.leases, store_coarse.letGo v.leases m⟩
  call name args kwargs m same := by
    change (m.callNative inner name args kwargs).2.roster = m.roster ∧
      (m.callNative inner name args kwargs).2.store = m.store
    unfold Machine.callNative
    split
    · next f found => exact callHost_aloof inner (stay name f (same ▸ found)) args kwargs m
    · exact ⟨rfl, rfl⟩

theorem Machine.host_aloof (m : Machine) (stay : ∀ name f, m.functions.get? name = some f → f.staysOut = true) :
    m.host.Aloof m.functions := natives_aloof _ stay

/-! ## Isolation -/

theorem Machine.registered_roster (m : Machine) (j) :
    (m.get? j).isSome = (m.roster.status? j).any (· != .destroyed) := by
  rw [m.status_roster, Machine.get?]
  cases m.find? j with
  | none => rfl
  | some i =>
    rw [Option.filter_some, Option.map_some, Option.any_some]
    unfold Interpreter.isReady
    cases i.status <;> rfl

theorem Machine.seen_of_roster {m after : Machine} (roster : after.roster = m.roster) :
    (∀ d, (after.context d).current = (m.context d).current) ∧
      (∀ j, (after.get? j).isSome = (m.get? j).isSome) ∧
      ∀ j, (after.find? j).map Interpreter.status = (m.find? j).map Interpreter.status := by
  refine ⟨fun d => ?_, fun j => ?_, fun j => ?_⟩
  · rw [← current_roster, roster, current_roster]
  · rw [registered_roster, roster, registered_roster]
  · rw [← status_roster, roster, status_roster]

/-- An operation on another interpreter leaves everything but the namespace of its target alone, whether it succeeds or
fails: where the contexts are, which interpreters are registered, how they stand, and every other namespace. If the context
does not get into the target, the operation fails and that namespace is as it was too, and so it is after a call. Otherwise
it is what it was with the shared values bound in it, and then what the statements up to the first that fails or returns
make of that. -/
theorem execution_isolation {h : Natives Machine} {m : Machine} {c : Nat} (aloof : h.Aloof m.functions)
    (free : m.roster.Free c) (act : Errand) (id : Int) (restrict : Bool) :
    ∃ result after, act.perform h c id restrict m = (result, after) ∧
      (∀ d, (after.context d).current = (m.context d).current) ∧
      (∀ j, (after.get? j).isSome = (m.get? j).isSome) ∧
      (∀ j, (after.find? j).map Interpreter.status = (m.find? j).map Interpreter.status) ∧
      (∀ j, j ≠ id → after.globals j = m.globals j) ∧
      (∀ callee args kwargs preserveExc, act = .call callee args kwargs preserveExc → after.globals id = m.globals id) ∧
      (¬ act.Enters c id restrict m → (∃ e, result = .error e) ∧ after.globals id = m.globals id) ∧
      (act.Enters c id restrict m → ∃ bindings inside, act.shared.ArriveAs bindings ∧
        inside.roster = m.roster.enter c id ∧ inside.store = m.store.put id {} ∧
        Executes h act.body ((m.globals id).insertAll bindings) { host := inside } (after.globals id) ∧
        ∀ name, (∀ s ∈ act.body, s.binds? ≠ some name) →
          (after.globals id).get? name = ((m.globals id).insertAll bindings).get? name) := by
  have excursion : Excursion h c id act.shared act.body (act.Enters c id restrict m) m
      (act.perform h c id restrict m) := Errand.excursion_perform aloof free act
  rcases performed : act.perform h c id restrict m with ⟨result, after⟩
  rw [performed] at excursion
  refine ⟨result, after, rfl, ?_⟩
  cases excursion with
  | refused closed roster store =>
    have globals : after.globals = m.globals := congrArg Store.globals store
    obtain ⟨current, registered, status⟩ := Machine.seen_of_roster roster
    refine ⟨current, registered, status, fun j _ => by rw [globals], fun _ _ _ _ _ => by rw [globals],
      fun _ => ⟨⟨_, rfl⟩, by rw [globals]⟩, fun enters => absurd enters closed⟩
  | @made _ _ inside bindings last enters arrive entered taken executes roster store =>
    obtain ⟨current, registered, status⟩ := Machine.seen_of_roster roster
    obtain rfl : after.globals id = last := by
      change after.store.globals id = last
      rw [store, Store.globals_put]
    refine ⟨current, registered, status, fun j other => ?_, fun callee args kwargs preserveExc call => ?_,
      fun closed => absurd enters closed,
      fun _ => ⟨bindings, inside, arrive, entered, taken, executes, fun _ => executes.get?⟩⟩
    · change after.store.globals j = m.store.globals j
      rw [store, Store.globals_put_of_ne _ other]
    · subst call
      cases arrive
      exact executes.eq_of_nil

/-- A machine with one interpreter besides the main one. -/
def pairedMachine : Machine where
  interpreters := [default, { id := 1, whence := .stdlib, config := Config.isolated }]
  nextId := 2

/-- Code that shares a number and fails in its second statement. -/
def stoppingErrand : Errand :=
  .exec (.script ⟨"stopping", [.act 1 (.assign "pair" (.tuple [.name "n", .name "n"])), .act 2 (.delete "absent"),
    .act 3 (.assign "late" (.name "n"))]⟩) (Bindings.ofList [("n", .int 5)])

/-- The shared number and the pair made of it are there afterwards; what follows the failure was not executed. -/
theorem execution_isolation_stopped :
    pairedMachine.roster.Free 0 ∧ stoppingErrand.Enters 0 1 true pairedMachine ∧
      ∃ result after, stoppingErrand.perform pairedMachine.host 0 1 true pairedMachine = (result, after) ∧
        (after.context 0).current = 0 ∧ after.globals 0 = pairedMachine.globals 0 ∧
        (∃ bindings inside, Executes pairedMachine.host stoppingErrand.body
          ((pairedMachine.globals 1).insertAll bindings) { host := inside } (after.globals 1)) ∧
        (after.globals 1).names = ["__name__", "n", "pair"] := by
  have free : pairedMachine.roster.Free 0 := ⟨by decide, rfl⟩
  have enters : stoppingErrand.Enters 0 1 true pairedMachine := by
    refine ⟨by decide +kernel, fun _ => by decide +kernel, rfl, ?_⟩
    exact List.forall_mem_singleton.2 ⟨rfl, fun _ inside => absurd inside List.not_mem_nil⟩
  have aloof : pairedMachine.host.Aloof pairedMachine.functions := by
    have stay : ∀ e ∈ pairedMachine.functions.entries, e.2.staysOut = true := by decide +kernel
    refine pairedMachine.host_aloof fun name f found => ?_
    obtain ⟨e, inside, rfl⟩ := Bindings.mem_of_lookup found
    exact stay e inside
  obtain ⟨result, after, performed, current, -, -, others, -, -, made⟩ :=
    execution_isolation aloof free stoppingErrand 1 true
  obtain ⟨bindings, inside, -, -, -, executes, -⟩ := made enters
  refine ⟨free, enters, result, after, performed, current 0, others 0 (by decide), ⟨bindings, inside, executes⟩, ?_⟩
  obtain rfl : (stoppingErrand.perform pairedMachine.host 0 1 true pairedMachine).2 = after :=
    congrArg Prod.snd performed
  decide +kernel

end MonitoredVm
