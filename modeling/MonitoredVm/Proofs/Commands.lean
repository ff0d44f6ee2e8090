import MonitoredVm.Proofs.Operations

/-!
# Commands and the books

Every command keeps the books of a machine in order, whether it succeeds or fails, and so does every turn.

Main statements: `keeps_act`, with one case for each command; a command as a whole settles before and after
(`Balanced.aftermath`), and the machines that are reached are balanced (`balanced_takeAll`), provided that the values
commands are given stand on leases that have not ended (`Machine.grants`).
-/

namespace MonitoredVm

open List Work

namespace Machine

/-! ## Interpreters and references -/

section Interpreters
variable {m m' : Machine} {id : Int}

theorem find?_append {new next i} (there : m.find? id = some i) :
    ({ m with interpreters := m.interpreters ++ [new], nextId := next } : Machine).find? id = some i := by
  rw [find?] at there
  rw [find?, List.find?_append, there]
  rfl

/-- An interpreter that is added has lent nothing: either there was none with its id before, or it is not found. -/
theorem follows_append (h : m.Balanced []) (new : Interpreter) (next) (unlent : new.exports = 0)
    (stands : new.globals.Each (·.leases ⊆ m.leases)) :
    m.Follows { m with interpreters := m.interpreters ++ [new], nextId := next } := by
  have has : ∀ {j}, m.Has j → ({ m with interpreters := m.interpreters ++ [new], nextId := next } : Machine).Has j := by
    intro j there
    obtain ⟨i, there⟩ := Option.isSome_iff_exists.1 there
    exact Option.isSome_of_eq_some (find?_append there)
  refine ⟨h.carry rfl rfl has ?_ ?_ h.contexts { h.standsOn with globals := ?_ }, List.Subset.refl _, has, rfl⟩
  · intro j i found
    obtain ⟨found, ready⟩ := Option.filter_eq_some_iff.1 found
    cases there : m.find? j with
    | some i' =>
      obtain rfl : i' = i := Option.some.inj ((find?_append there).symm.trans found)
      exact h.counted (Option.filter_eq_some_iff.2 ⟨there, ready⟩)
    | none =>
      have made : i.exports = 0 := by
        rw [find?] at there
        rw [find?, List.find?_append, there, Option.none_or, List.find?_singleton] at found
        split at found
        · exact Option.some.inj found ▸ unlent
        · cases found
      -- the owner of a lease is there, so none is of this id
      rw [made, eq_comm, lent, countP_eq_zero, append_nil]
      intro l inside owner
      have owned := h.owners l inside
      rw [Has, beq_iff_eq.1 owner, there] at owned
      cases owned
  · intro r inside j blames
    obtain ⟨there, gone⟩ := h.blamed r inside j blames
    refine ⟨has there, ?_⟩
    obtain ⟨i, there⟩ := Option.isSome_iff_exists.1 there
    rw [get?, there] at gone
    rw [get?, find?_append there]
    exact gone
  · intro i inside
    obtain there | rfl : i ∈ m.interpreters ∨ i = new := by simpa using inside
    · exact h.standsOn.globals i there
    · exact stands

theorem fresh_globals (S) : (Bindings.ofList [("__name__", .str "__main__")] : Namespace).Each (·.leases ⊆ S) :=
  .insertAll .empty (forall_mem_singleton.2 (nil_subset S))

section
variable (h : m.Balanced [])
include h

theorem follows_newInterpreter (made : m.newInterpreter config whence = .ok (m', id)) : m.Follows m' := by
  unfold newInterpreter at made
  split at made
  · cases made
  · obtain ⟨rfl, -⟩ := Prod.mk.inj (Except.ok.inj made)
    have grown := follows_append h { id := m.nextId, whence, config } (m.nextId + 1) rfl (fresh_globals _)
    exact grown.trans (follows_remark grown.balanced .debug rfl)

theorem follows_aside (id) (same : ∀ i, (f i).id = i.id) (exports : ∀ i, (f i).exports = i.exports)
    (status : ∀ i, (f i).isReady = i.isReady) (globals : ∀ i, (f i).globals = i.globals) :
    m.Follows (m.modifyInterpreter id f) :=
  follows_modifyInterpreter h id same exports (fun i _ ready => status i ▸ ready) fun i inside _ =>
    globals i ▸ h.standsOn.globals i inside

theorem follows_addRef (id link) : m.Follows (m.addRef id link) :=
  follows_aside h id (fun _ => rfl) (fun _ => rfl) (fun _ => rfl) fun _ => rfl

theorem follows_dropRef (id ending) : m.Follows (m.dropRef id ending) := by
  have fewer : m.Follows (m.modifyInterpreter id fun i => { i with refs := i.refs - 1 }) :=
    follows_aside h id (fun _ => rfl) (fun _ => rfl) (fun _ => rfl) fun _ => rfl
  unfold dropRef
  dsimp only
  split
  · exact fewer
  · split
    · split
      · exact fewer.trans (follows_remark fewer.balanced .warn rfl)
      · split
        · exact fewer.trans (follows_endInterpreter fewer.balanced id)
        · exact fewer
    · exact fewer

/-! ## What the host holds -/

theorem follows_handles (handles : Bindings Handle) : m.Follows { m with handles } :=
  .of_eq (h.hold rfl rfl rfl rfl h.contexts { h.standsOn with }) rfl rfl rfl

theorem follows_keepHandle (name new) : m.Follows (m.keepHandle name new) := by
  have kept := follows_handles h (m.handles.insert name new)
  unfold keepHandle
  dsimp only
  split
  · exact kept.trans (follows_dropRef kept.balanced _ _)
  · exact kept

theorem follows_pending (c pending) :
    m.Follows (m.modifyContext c fun ctx => { ctx with pending }) :=
  follows_modifyContext h c (fun _ knows => { knows with }) fun x inside => h.standsOn.preserved x inside

theorem follows_held {held} (stands : held.Each (·.leases ⊆ m.leases)) :
    m.Follows { m with held } :=
  .of_eq (h.hold rfl rfl rfl rfl h.contexts { h.standsOn with held := stands }) rfl rfl rfl

theorem follows_calls {calls} (stands : calls.Each (·.leases ⊆ m.leases)) :
    m.Follows { m with calls } :=
  .of_eq (h.hold rfl rfl rfl rfl h.contexts { h.standsOn with calls := stands }) rfl rfl rfl

theorem follows_keep (name) (known : v.leases ⊆ m.leases) : m.Follows (m.keep name v) := by
  cases name with
  | none => exact .refl h
  | some name =>
    have kept := follows_held h (h.standsOn.held.insert known name)
    exact kept.trans (follows_letGo kept.balanced (h.standsOn.held.elim_subset name))

theorem follows_dropHeld (name) : m.Follows (m.dropHeld name) := by
  have dropped := follows_held h (h.standsOn.held.erase name)
  exact dropped.trans (follows_letGo dropped.balanced (h.standsOn.held.elim_subset name))

end

end Interpreters
end Machine

/-! ## Operations on interpreters -/

namespace Work
variable {m : Machine}

section
variable (h : m.Balanced [])
include h

theorem lands_newInterpreter (config whence) :
    Lands m nothing (newInterpreter config whence m) := by
  rw [newInterpreter, bind_of_ok (get_apply m)]
  cases making : m.newInterpreter (config.getD Config.isolated) whence with
  | error e => exact .throw h e
  | ok made =>
    obtain ⟨m', id⟩ := made
    exact ⟨Machine.follows_newInterpreter h making, fun _ _ => nil_subset _⟩

theorem lands_create (config link) : Lands m nothing (create config link m) := by
  refine (lands_newInterpreter h config .stdlib).bind fun id m' made _ => ?_
  cases link with
  | false => exact .pure made.balanced (nil_subset _)
  | true =>
    have linked := Machine.follows_aside made.balanced id (f := fun i => { i with requiresRefs := true }) (fun _ => rfl)
      (fun _ => rfl) (fun _ => rfl) fun _ => rfl
    exact .change linked (.pure linked.balanced (nil_subset _))

theorem lands_createOwned (config) : Lands m nothing (createOwned config m) := by
  refine (lands_newInterpreter h config .stdlib).bind fun id m' made _ => ?_
  have owned := Machine.follows_addRef made.balanced id true
  exact .change owned (.pure owned.balanced (nil_subset _))

theorem lands_reference (id) : Lands m nothing (reference id m) := by
  rw [reference, bind_of_ok (get_apply m)]
  split
  · exact .throw h _
  · have referred := Machine.follows_addRef h id false
    exact .change referred (.pure referred.balanced (nil_subset _))

theorem lands_incref (c id link restrict) : Lands m nothing (incref c id link restrict m) :=
  lands_resolve h c fun i _ => lands_change (Machine.follows_addRef h i.id link)

theorem lands_decref (c id restrict) : Lands m nothing (decref c id restrict m) :=
  lands_resolve h c fun i _ => lands_change (Machine.follows_dropRef h i.id true)

theorem lands_found (c id restrict ready operation) :
    Lands m nothing (resolve c id restrict ready operation m) := by
  cases id with
  | some n =>
    obtain ⟨e, failed, -⟩ | ⟨i, resolved, -⟩ := resolve_cases c n restrict ready operation m
    · rw [failed]
      exact .throw h e
    · rw [resolved]
      exact .pure h (nil_subset _)
  | none =>
    rw [resolve, bind_of_ok (get_apply m)]
    dsimp only
    split
    · exact .throw h _
    · split
      · exact .throw h _
      · exact .pure h (nil_subset _)

theorem lands_target (c) : Lands m nothing (target c m) := by
  obtain ⟨e, failed⟩ | ⟨t, found, -⟩ := target_cases h c
  · rw [failed]
    exact .throw h e
  · rw [found]
    exact .pure h (nil_subset _)

end

end Work

namespace Machine

/-! ## Commands -/

/-- An answer after which the books are in order, and what it gives stands on leases that have not ended. -/
structure Keeps (m : Machine) (x : Machine × Response) : Prop where
  balanced : x.1.Balanced []
  leases : m.leases ⊆ x.1.leases
  stands : x.2.leases ⊆ x.1.leases

section Commands
variable {m : Machine}

theorem Follows.keeps (follows : m.Follows m') (stands : r.leases ⊆ m'.leases) :
    m.Keeps (m', r) := ⟨follows.balanced, follows.leases, stands⟩

theorem keeps_answer {ε α : Type} {work} {gives : α → List Lease} (lands : Work.Lands m gives (work m))
    (fail : ε → Trouble) {reply : α → Response}
    (stands : ∀ a m', m.Follows m' → gives a ⊆ m'.leases → (reply a).leases ⊆ m'.leases) :
    m.Keeps (m.answer work fail reply) := by
  obtain ⟨follows, given⟩ := lands
  unfold answer
  generalize work m = x at follows given ⊢
  obtain ⟨e | a, m'⟩ := x
  · exact follows.keeps (nil_subset _)
  · exact follows.keeps (stands a m' follows (given a rfl))

theorem keeps_plain {ε α : Type} {work} {gives : α → List Lease} (lands : Work.Lands m gives (work m))
    (fail : ε → Trouble) {reply : α → Response} (plain : ∀ a, (reply a).leases = []) :
    m.Keeps (m.answer work fail reply) :=
  keeps_answer lands fail fun a _ _ _ => plain a ▸ nil_subset _

theorem keeps_withConfig (h : m.Balanced []) (keeps : ∀ config, m.Keeps (k config)) :
    m.Keeps (m.withConfig source k) := by
  unfold withConfig
  split
  · exact keeps none
  · split
    · exact keeps _
    · exact (Follows.refl h).keeps (nil_subset _)

theorem keeps_withScript (h : m.Balanced []) (keeps : ∀ s, m.Keeps (k s)) :
    m.Keeps (m.withScript source filename k) := by
  unfold withScript
  split
  · exact keeps _
  · exact (Follows.refl h).keeps (nil_subset _)

theorem find?_of_targetOf {target i} (found : m.targetOf target = .ok i) : m.find? i.id = some i := by
  have same : ∀ {id}, m.find? id = some i → m.find? i.id = some i := fun there => id_of_find? there ▸ there
  cases target with
  | id n =>
    cases there : m.get? n with
    | none =>
      rw [targetOf, there] at found
      cases found
    | some j =>
      rw [targetOf, there] at found
      cases found
      exact same (Option.filter_eq_some_iff.1 there).1
  | held name =>
    rw [targetOf] at found
    split at found
    · next j there =>
      cases found
      obtain ⟨n, -, there⟩ := Option.bind_eq_some_iff.1 there
      exact same there
    · cases found
  | found n =>
    cases there : m.find? n with
    | none =>
      rw [targetOf, there] at found
      cases found
    | some j =>
      rw [targetOf, there] at found
      cases found
      exact same there

theorem keeps_withTarget (h : m.Balanced []) {target k} (keeps : ∀ i, m.find? i.id = some i → m.Keeps (k i)) :
    m.Keeps (m.withTarget target k) := by
  unfold withTarget
  split
  · next i found => exact keeps i (find?_of_targetOf found)
  · exact (Follows.refl h).keeps (nil_subset _)

theorem keeps_keep (follows : m.Follows m') (name) (known : v.leases ⊆ m'.leases) (stands : r.leases ⊆ m'.leases) :
    m.Keeps (m'.keep name v, r) := by
  have kept := follows_keep follows.balanced name known
  exact (follows.trans kept).keeps (kept.still stands)

theorem keeps_register (h : m.Balanced []) (name) (known : f.leases ⊆ m.leases) :
    m.Keeps (m.register name f, .done) := by
  have known := h.standsOn.functions.insert known name
  have registered : ({ m with functions := m.functions.insert name f } : Machine).Balanced [] :=
    h.hold rfl rfl rfl rfl h.contexts { h.standsOn with functions := known }
  have done : ∀ {old : List Lease}, old ⊆ m.leases →
      m.Keeps (({ m with functions := m.functions.insert name f } : Machine).letGo old, .done) := by
    intro old stood
    have dropped := follows_letGo registered stood
    exact ⟨dropped.balanced, dropped.leases, nil_subset _⟩
  unfold register
  split
  · next v there => exact done (h.standsOn.functions.get? there)
  · exact done (nil_subset _)

theorem keeps_useSnapshot (follows : m.Follows m') (i) (stands : s.leases ⊆ m'.leases) (purpose name) :
    m.Keeps (m'.useSnapshot i s purpose name) := by
  cases purpose with
  | release => exact follows.keeps stands
  | script => exact follows.keeps stands
  | value =>
    rw [useSnapshot]
    cases built : s.toValue m'.knows with
    | error e => exact follows.keeps stands
    | ok v => exact keeps_keep follows name (Snapshot.leases_toValue built ▸ stands) stands

theorem call_known {callee : Value} {kwargs : Namespace}
    (known : Value.leasesAll (kwargs.values ++ args ++ [callee]) ⊆ S) :
    callee.leases ⊆ S ∧ Value.leasesAll args ⊆ S ∧ kwargs.Each (·.leases ⊆ S) := by
  rw [Value.leasesAll_subset_iff, forall_mem_append, forall_mem_append, forall_mem_singleton] at known
  exact ⟨known.2, Value.leasesAll_subset_iff.2 known.1.2, Bindings.each_iff.2 known.1.1⟩

theorem single_known (known : Value.leasesAll [v] ⊆ S) : v.leases ⊆ S :=
  Value.leasesAll_subset_iff.1 known v mem_cons_self

theorem keeps_handle {work : Work InterpError Handle} (lands : Work.Lands m Work.nothing (work m)) (name) :
    m.Keeps (match work m with
      | (.ok h, m) => (m.keepHandle name h, .handle h.id (((m.find? h.id).map (·.refs)).getD 0))
      | (.error e, m) => (m, .failed (.interp e))) := by
  have follows := lands.follows
  generalize work m = x at follows ⊢
  obtain ⟨e | h, m'⟩ := x
  · exact follows.keeps (nil_subset _)
  · exact (follows.trans (follows_keepHandle follows.balanced name h)).keeps (nil_subset _)

theorem keeps_act (h : m.Balanced []) {command : Command} (known : Value.leasesAll command.values ⊆ m.leases) :
    m.Keeps (m.act command) := by
  have orderly := m.host_orderly
  have plain : ∀ {r : Response}, r.leases = [] → m.Keeps (m, r) := fun none => (Follows.refl h).keeps (none ▸ nil_subset _)
  cases command with
  | newContext => exact (follows_newContext h).keeps (nil_subset _)
  | create config link => exact keeps_withConfig h fun config => keeps_plain (lands_create h config link) _ fun _ => rfl
  | newInterpreter config whence =>
    exact keeps_withConfig h fun config => keeps_plain (lands_newInterpreter h config whence) _ fun _ => rfl
  | createOwned config name => exact keeps_withConfig h fun config => keeps_handle (lands_createOwned h config) name
  | reference id name => exact keeps_handle (lands_reference h id) name
  | dropHandle name =>
    rw [act]
    split
    · next handle _ =>
      have erased := follows_handles h (m.handles.erase name)
      exact (erased.trans (follows_dropRef erased.balanced handle.id handle.owning)).keeps (nil_subset _)
    · exact plain rfl
  | destroy c id restrict => exact keeps_plain (lands_destroy h c id restrict) _ fun _ => rfl
  | setGlobals c id updates restrict =>
    exact keeps_plain (lands_setGlobals h c id restrict (Namespace.leases_subset_iff.1 known)) _ fun _ => rfl
  | runString c id source shared restrict =>
    exact keeps_plain (lands_runString orderly h c id source restrict (Namespace.leases_subset_iff.1 known)) _ fun _ => rfl
  | runFunction c id f shared restrict =>
    have known := Namespace.leases_subset_iff.1 (append_subset.1 known).2
    exact keeps_plain (lands_runFunction orderly h c id f restrict known) _ fun _ => rfl
  | exec c id code shared restrict =>
    have known : shared.Each (·.leases ⊆ m.leases) := by
      cases code with
      | function f => exact Namespace.leases_subset_iff.1 (append_subset.1 known).2
      | _ => exact Namespace.leases_subset_iff.1 known
    exact keeps_plain (lands_execIn orderly h c id code restrict known) _ fun _ => rfl
  | execScript c id source filename shared restrict =>
    refine keeps_withScript h fun s => ?_
    exact keeps_plain (lands_execIn orderly h c id _ restrict (Namespace.leases_subset_iff.1 known)) _ fun _ => rfl
  | call c id callee args kwargs preserveExc restrict name =>
    obtain ⟨calls, given, named⟩ := call_known known
    obtain ⟨follows, stands⟩ := lands_callIn orderly h c id preserveExc restrict calls given named
    rw [act]
    generalize Work.callIn m.host c id callee args kwargs preserveExc restrict m = ran at follows stands ⊢
    obtain ⟨e | ⟨v, f⟩, m'⟩ := ran
    · exact follows.keeps (nil_subset _)
    · exact keeps_keep follows name (stands _ rfl) (stands _ rfl)
  | incref c id link restrict => exact keeps_plain (lands_incref h c id link restrict) _ fun _ => rfl
  | decref c id restrict => exact keeps_plain (lands_decref h c id restrict) _ fun _ => rfl
  | isRunning c id restrict => exact keeps_plain (lands_found h c _ restrict _ _) _ fun _ => rfl
  | getConfig c id restrict => exact keeps_plain (lands_found h c _ restrict _ _) _ fun _ => rfl
  | setPending c e => exact (follows_pending h c (some e)).keeps (nil_subset _)
  | capture c e =>
    cases e with
    | some e => exact plain rfl
    | none => exact (follows_pending h c none).keeps (nil_subset _)
  | hold v name => exact keeps_keep (.refl h) name (single_known known) (single_known known)
  | dropHeld name => exact (follows_dropHeld h name).keeps (nil_subset _)
  | registerFunction name f =>
    refine keeps_register h name ?_
    cases f with
    | const v => exact single_known known
    | _ => exact nil_subset _
  | inspect target =>
    refine keeps_withTarget h fun i there => (Follows.refl h).keeps ?_
    exact Namespace.leases_subset_iff.2 (h.standsOn.globals i (mem_of_find?_eq_some there))
  | holdInterpreter id name =>
    refine keeps_withTarget h fun i _ => Follows.keeps ?_ (nil_subset _)
    exact .of_eq (h.hold rfl rfl rfl rfl h.contexts { h.standsOn with }) rfl rfl rfl
  | useTool target name =>
    refine keeps_withTarget h fun i _ => ?_
    split
    · next engine _ =>
      have used := follows_aside h i.id (f := fun i => { i with engine }) (fun _ => rfl) (fun _ => rfl) (fun _ => rfl)
        fun _ => rfl
      exact used.keeps (nil_subset _)
    · exact plain rfl
  | snapshot target v full purpose name =>
    refine keeps_withTarget h fun i there => ?_
    obtain ⟨follows, stands⟩ := lands_snapshot h (Option.isSome_of_eq_some there) (single_known known) full
    change m.Follows (m.snapshot i.id v full).1 at follows
    change ∀ s, (m.snapshot i.id v full).2 = .ok s → s.leases ⊆ (m.snapshot i.id v full).1.leases at stands
    generalize m.snapshot i.id v full = taken at follows stands ⊢
    obtain ⟨m', e | s⟩ := taken
    · exact follows.keeps (nil_subset _)
    · exact keeps_useSnapshot follows i (stands s rfl) purpose name
  | snapshotScript target source filename purpose =>
    refine keeps_withTarget h fun i _ => keeps_withScript h fun s => ?_
    exact keeps_useSnapshot (.refl h) i (nil_subset _) purpose none
  | pack target callee args kwargs name =>
    refine keeps_withTarget h fun i there => ?_
    obtain ⟨calls, given, named⟩ := call_known known
    obtain ⟨follows, stands⟩ := lands_pack h (Option.isSome_of_eq_some there) calls given named
    generalize Work.pack i.id callee args kwargs m = packed at follows stands ⊢
    obtain ⟨e | call, m'⟩ := packed
    · exact follows.keeps (nil_subset _)
    · have packed := follows_calls follows.balanced (follows.balanced.standsOn.calls.insert (stands call rfl) name)
      exact (follows.trans packed).keeps (packed.still (stands call rfl))
  | clearCall name =>
    refine (follows_calls h ?_).keeps (nil_subset _)
    exact h.standsOn.calls.insert (v := {}) (nil_subset _) name
  | beginSession c =>
    exact (follows_setSession h c (fun stage => by cases stage) .empty).keeps (nil_subset _)
  | endSession c => exact (follows_abandon h c).keeps (nil_subset _)
  | enter c target shared =>
    refine keeps_withTarget h fun i _ => ?_
    exact keeps_plain (lands_enter h c (Namespace.leases_subset_iff.1 known)) _ fun _ => rfl
  | sessionExec c source filename =>
    refine keeps_withScript h fun s => ?_
    exact keeps_plain (lands_exec orderly h c s) _ fun _ => rfl
  | sessionCall c callee args kwargs name =>
    obtain ⟨calls, given, named⟩ := call_known known
    obtain ⟨follows, stands⟩ := lands_call orderly h c calls given named
    rw [act]
    generalize Work.call m.host c callee args kwargs m = ran at follows stands ⊢
    obtain ⟨halt | v, m'⟩ := ran
    · exact follows.keeps (nil_subset _)
    · exact keeps_keep follows name (stands v rfl) (stands v rfl)
  | callPending c name =>
    have packed : ((m.calls.get? name).getD {}).leases ⊆ m.leases := by
      cases there : m.calls.get? name with
      | none => exact nil_subset _
      | some call => exact h.standsOn.calls.get? there
    have taken := follows_calls h (h.standsOn.calls.erase name)
    obtain ⟨called, left, result⟩ := follows_callPending orderly taken.balanced c packed
    rw [act]
    generalize Work.callPending m.host c _ _ = ran at called left result ⊢
    obtain ⟨⟨pending, r⟩, m'⟩ := ran
    have kept := follows_calls called.balanced (called.balanced.standsOn.calls.insert left name)
    refine ((taken.trans called).trans kept).keeps (kept.still ?_)
    cases r with
    | ok v => exact result v rfl
    | error halt => exact nil_subset _
  | getGlobal c name =>
    refine keeps_answer (lands_target h c) _ fun t m' follows _ => follows.still ?_
    exact (h.globals t).elim_subset name
  | setGlobal c name v =>
    obtain ⟨e, failed⟩ | ⟨t, found, -⟩ := target_cases h c
    · rw [act, failed]
      exact plain rfl
    · rw [act, found]
      have bound := follows_bind h t name (single_known known)
      exact bound.keeps (bound.still ((h.globals t).elim_subset name))
  | sessionGlobals c =>
    refine keeps_answer (lands_target h c) _ fun t m' follows _ => follows.still ?_
    exact Namespace.leases_subset_iff.2 (h.globals t)
  | preserve c name v => exact keeps_plain (lands_preserve h c name (single_known known)) _ fun _ => rfl
  | exit c failure => exact keeps_answer (lands_exit h c failure) _ fun _ _ _ stands => stands
  | whence | repr => exact keeps_withTarget h fun _ _ => plain rfl
  | listAll | current | main | describe | sessionTarget => exact plain rfl

end Commands

/-! ## Turns -/

/-- The machine when a command is done and the values in its answer and those it was given are let go, which is when it
settles. -/
def aftermath (m : Machine) (command : Command) : Machine :=
  let given := Value.leasesAll command.values
  let done := (m.settle given).act command
  done.1.letGo (done.2.leases ++ given)

/-- The values that a command is given stand on leases that have not ended: nobody has other values. -/
def grants (m : Machine) : Turn → Bool
  | .command command => (Value.leasesAll command.values).all m.leases.contains
  | _ => true

def grantsAll : Machine → List Turn → Bool
  | _, [] => true
  | m, turn :: turns => m.grants turn && (m.take turn).grantsAll turns

section Turns
variable {m : Machine}

theorem perform_fst (m : Machine) (command) : (m.perform command).1 = (m.aftermath command).settle [] := rfl

theorem grants_command : m.grants (.command command) = true ↔ Value.leasesAll command.values ⊆ m.leases := by
  rw [grants, all_eq_true]
  simp only [contains_iff_mem, subset_def]

theorem Balanced.aftermath (h : m.Balanced []) (known : Value.leasesAll command.values ⊆ m.leases) :
    (m.aftermath command).Balanced [] := by
  have given : Value.leasesAll command.values ⊆ (m.settle (Value.leasesAll command.values)).leases := fun l inside =>
    mem_leases_settle.2 ⟨known inside, mem_append_left _ inside⟩
  have keeps := keeps_act (h.settle _) given
  exact keeps.balanced.letGo (append_subset.2 ⟨keeps.stands, List.Subset.trans given keeps.leases⟩)

theorem Balanced.turn (h : m.Balanced []) {turn} (granted : m.grants turn = true) : (m.take turn).Balanced [] := by
  cases turn with
  | command command =>
    change (m.perform command).1.Balanced []
    rw [perform_fst]
    exact (h.aftermath (grants_command.1 granted)).settle []
  | define s name =>
    obtain ⟨ran, bound⟩ := m.host_orderly.exec h s .empty
    exact ran.balanced.letGo (ran.still (Namespace.leases_subset_iff.2 bound))
  | object typeName => exact h.hold rfl rfl rfl rfl h.contexts { h.standsOn with }
  | readLog => exact h.carry rfl rfl id h.counted (fun r inside => absurd inside not_mem_nil) h.contexts { h.standsOn with }

theorem balanced_start (threshold) : (start { threshold }).Balanced [] where
  fresh l inside := absurd inside not_mem_nil
  distinct := nodup_nil
  owners l inside := absurd inside not_mem_nil
  counted {id i} found := by
    have inside := mem_of_find?_eq_some (Option.filter_eq_some_iff.1 found).1
    rw [mem_singleton.1 inside]
    rfl
  blamed r inside := absurd inside not_mem_nil
  home := rfl
  contexts c inside := by
    rw [mem_singleton.1 inside]
    exact ⟨rfl, fun stage => by cases stage⟩
  standsOn :=
    { globals := forall_mem_singleton.2 (fresh_globals [])
      preserved := forall_mem_singleton.2 .empty
      held := .empty
      calls := .empty
      functions := .insertAll .empty (forall_mem_map.2 fun _ _ => nil_subset []) }

theorem balanced_takeAll (h : m.Balanced []) (granted : m.grantsAll turns = true) : (m.takeAll turns).Balanced [] := by
  induction turns generalizing m with
  | nil => exact h
  | cons turn turns ih =>
    obtain ⟨now, later⟩ := Bool.and_eq_true_iff.1 granted
    exact ih (h.turn now) later

end Turns
end Machine
end MonitoredVm
