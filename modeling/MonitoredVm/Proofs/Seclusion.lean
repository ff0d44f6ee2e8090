import MonitoredVm.Proofs.Interference

/-!
# What natives leave alone

Native functions may run code and end interpreters, but on contexts of their own, and none of them registers another.
So a context that is engaged in a session finds the session as it was, preserved values included, when a call returns.

Main statement: the natives of a machine leave its contexts and its native functions as they are (`host_secluded`). It is
an induction on how deep natives may nest, over operations that show on their own context only (`unseen_runString`,
`unseen_destroy`).
-/

namespace MonitoredVm

open Machine

/-- The natives leave the contexts and the native functions as they are. -/
def Natives.Secluded (h : Natives Machine) : Prop :=
  h.Keeps fun m m' => m'.contexts = m.contexts ∧ m'.functions = m.functions

namespace Machine

/-- The native functions, and every context but one. -/
def besides (c : Nat) (m : Machine) : Bindings HostFunction × (Nat → Option Context) :=
  (m.functions, fun d => if d = c then none else m.contexts[d]?)

theorem besides_of_eq {m m' : Machine} (contexts : m'.contexts = m.contexts) (functions : m'.functions = m.functions)
    (c) : m'.besides c = m.besides c := by
  rw [besides, besides, contexts, functions]

theorem contexts_bookless : Bookless fun m => (m.contexts, m.functions) where
  note _ _ _ := rfl
  acquire m owner := by
    unfold acquire
    dsimp only
    split <;> rfl

theorem besides_modifyContext (m : Machine) (c) (f : Context → Context) :
    (m.modifyContext c f).besides c = m.besides c := by
  rw [besides, besides]
  congr 1
  funext d
  by_cases here : d = c
  · rw [if_pos here, if_pos here]
  · rw [if_neg here, if_neg here]
    exact List.getElem?_modify_ne f m.contexts (Ne.symm here)

theorem besides_switch (m : Machine) (c id) : (m.switch c id).besides c = m.besides c :=
  m.besides_modifyContext c fun ctx => { ctx with current := id }

theorem besides_bookless (c) : Bookless (besides c) where
  note _ _ _ := rfl
  acquire m owner := by
    obtain ⟨contexts, functions⟩ := Prod.mk.inj (contexts_bookless.acquire m owner)
    exact besides_of_eq contexts functions c

theorem besides_bind (c) (m : Machine) (id name v) :
    (m.bind id name v).besides c = m.besides c := (besides_bookless c).letGo _ _

theorem besides_bindAll (c) (m : Machine) (id bindings) : (m.bindAll id bindings).besides c = m.besides c := by
  rw [bindAll]
  induction bindings generalizing m with
  | nil => rfl
  | cons b rest ih =>
    rw [List.foldl_cons, ih]
    exact m.besides_bind c id b.1 b.2

theorem besides_setRunning {m m' : Machine} {id} (marked : m.setRunning id = .ok m') (c) :
    m'.besides c = m.besides c := by
  unfold setRunning at marked
  split at marked
  · cases marked
    rfl
  · cases marked
  · cases marked

end Machine

namespace Work
variable {c : Nat} {h : Natives Machine} {ε : Type}

open Machine (besides)

theorem unseen_change (same : ∀ m, view (f m) = view m) (others : Unseen view (rest ())) :
    Unseen view (change f >>= rest) :=
  Unseen.bind same fun _ => others

theorem unseen_enter (c t shared) : Unseen (besides c) (enter c t shared) := by
  intro m
  by_cases idle : (m.session c).stage = .idle
  · have bookless := besides_bookless c
    have entry := entry_enter idle t shared
    have packs := bookless.packAll (m.context c).current shared.entries [] m
    rcases outcome : enter c t shared m with ⟨result, m'⟩
    rw [outcome] at entry
    cases entry with
    | unpacked packing =>
      rw [packing] at packs
      exact packs
    | unready packing _ =>
      rw [packing] at packs
      exact (bookless.letGo _ _).trans packs
    | unbuilt packing marking _ =>
      rw [packing, ← besides_setRunning marking c] at packs
      refine (bookless.letGo _ _).trans (Eq.trans ?_ packs)
      exact (besides_switch _ c _).trans (besides_switch _ c t)
    | inside packing marking _ =>
      rw [packing, ← besides_setRunning marking c] at packs
      refine (besides_modifyContext _ c _).trans (Eq.trans ?_ packs)
      exact (besides_bindAll c _ t _).trans (besides_switch _ c t)
  · rw [enter, bind_of_ok (get_apply m)]
    dsimp only
    rw [if_pos idle]
    rfl

theorem besides_leave (c m) : besides c (leave c m).2 = besides c m := by
  rw [leave, state_bind, state_get]
  dsimp only
  cases (m.session c).stage with
  | idle => exact m.besides_modifyContext c _
  | entered t previous =>
    have left : besides c (((m.switch c previous).setIdle t).note .debug (.left t)) = besides c m := m.besides_switch c previous
    exact (besides_modifyContext _ c _).trans left

theorem besides_abandon (c m) : besides c (abandon c m).2 = besides c m := by
  change besides c ((leave c m).2.letGo _) = _
  rw [(besides_bookless c).letGo]
  exact besides_leave c m

theorem unseen_exit (c failure) : Unseen (besides c) (exit c failure) := by
  refine Unseen.bind (.lift (besides_leave c)) fun session => ?_
  cases session.stage with
  | idle => exact .throw _
  | entered t p => exact ((besides_bookless c).handOver _ _ _).bind fun _ => .pure _

theorem unseen_disengage (c) (outcome : Except Halt Unit) : Unseen (besides c) (disengage c outcome) := by
  match outcome with
  | .ok () => exact (unseen_exit c none).convert _
  | .error (.raised e) => exact (unseen_exit c (some e)).convert _
  | .error .exhausted => exact Unseen.bind (.lift (besides_abandon c)) fun _ => .throw _

theorem unseen_engage (c t shared) : Unseen (besides c) (engage c t shared) := by
  refine unseen_change (fun m => m.besides_modifyContext c _) (Unseen.bind (.lift (unseen_enter c t shared)) fun result => ?_)
  cases result with
  | ok _ => exact .pure _
  | error e => exact Unseen.bind (.lift (besides_abandon c)) fun _ => .throw _

theorem unseen_exec (secluded : h.Secluded) (c script) : Unseen (besides c) (exec h c script) := by
  refine ((unseen_target c).convert _).bind fun id => Unseen.bind (.lift fun m => ?_) fun result => ?_
  · obtain ⟨contexts, functions⟩ := secluded.exec script (m.globals id) (m.modifyInterpreter id fun i => { i with globals := {} })
    exact besides_of_eq contexts functions c
  · cases result with
    | ok _ => exact .pure _
    | error halt => exact .throw halt

theorem unseen_runString (secluded : h.Secluded) (c id source shared restrict) :
    Unseen (besides c) (runString h c id source shared restrict) := by
  refine (unseen_resolve c _ restrict _ _).bind fun i => (unseen_engage c i.id shared).bind fun _ => ?_
  dsimp only
  have report : ∀ outcome, Unseen (besides c) (do return (← disengage c outcome).2) := fun outcome =>
    (unseen_disengage c outcome).bind fun _ => .pure _
  cases (Cargo.source source).unload with
  | error halt => exact report (.error halt)
  | ok script => exact Unseen.bind (.lift (unseen_exec secluded c script)) report

theorem unseen_destroy (c id restrict) : Unseen (besides c) (destroy c id restrict) := by
  refine (unseen_resolve c _ restrict _ _).bind fun i => unseen_get.bind fun m => ?_
  split
  · exact .throw _
  · split
    · exact .throw _
    · exact fun m => (besides_bookless c).letGo _ _

/-! ## Native functions -/

/-- The contexts and the native functions stay as they are. -/
def Secludes {α : Type} (w : Work ε α) : Prop := ∀ m, (w m).2.contexts = m.contexts ∧ (w m).2.functions = m.functions

theorem Secludes.bind (first : Secludes w) (rest : ∀ a, Secludes (f a)) : Secludes (w >>= f) := by
  intro m
  obtain ⟨contexts, functions⟩ := first m
  rcases value : w m with ⟨e | a, m'⟩
  · rw [value] at contexts functions
    rw [bind_of_error value]
    exact ⟨contexts, functions⟩
  · rw [value] at contexts functions
    rw [bind_of_ok value, ← contexts, ← functions]
    exact rest a m'

theorem Secludes.pure (a : α) : Secludes (pure a : Work ε α) := fun _ => ⟨rfl, rfl⟩

theorem secludes_onNewContext (unseen : ∀ c, Unseen (besides c) (work c)) : Secludes (onNewContext work) := by
  intro m
  have same := unseen m.contexts.length { m with contexts := m.contexts ++ [({} : Context)] }
  change ((work m.contexts.length _).2.contexts.take m.contexts.length) = m.contexts ∧ (work m.contexts.length _).2.functions = _
  generalize (work m.contexts.length { m with contexts := m.contexts ++ [({} : Context)] }).2 = m' at same ⊢
  obtain ⟨functions, others⟩ := Prod.mk.inj same
  refine ⟨List.ext_getElem? fun d => ?_, functions⟩
  rw [List.getElem?_take]
  split
  · next inside =>
    have here := congrFun others d
    rw [if_neg (Nat.ne_of_lt inside), if_neg (Nat.ne_of_lt inside), List.getElem?_append_left inside] at here
    exact here
  · next outside => rw [List.getElem?_eq_none (Nat.le_of_not_lt outside)]

theorem secludes_interpreterOf (args) : Secludes (interpreterOf args) := by
  intro m
  rw [interpreterOf, bind_of_ok (get_apply m)]
  cases m.get? (idArgument args) <;> exact ⟨rfl, rfl⟩

theorem secludes_callHost {inner} (secluded : ∀ h ∈ inner, h.Secluded) (f args kwargs) :
    Secludes (callHost inner f args kwargs) := by
  cases f with
  | run =>
    unfold callHost
    dsimp only
    split
    · next source _ h =>
      refine (secludes_onNewContext fun c => unseen_runString (secluded h rfl) c _ source {} false).bind fun result => ?_
      cases result <;> exact .pure _
    · exact fun _ => ⟨rfl, rfl⟩
    · exact .pure _
  | destroy => exact (secludes_onNewContext fun c => unseen_destroy c _ false).bind fun _ => .pure _
  | names | status => exact (secludes_interpreterOf args).bind fun _ => .pure _
  | builtin | const | echo | list | object | raise | exception => exact fun _ => ⟨rfl, rfl⟩

end Work

theorem Machine.natives_secluded {inner} (secluded : ∀ h ∈ inner, h.Secluded) : (Machine.natives inner).Secluded where
  refl _ := ⟨rfl, rfl⟩
  trans first second := ⟨second.1.trans first.1, second.2.trans first.2⟩
  letGo v m := Prod.mk.inj (contexts_bookless.letGo v.leases m)
  call name args kwargs m := by
    change (m.callNative inner name args kwargs).2.contexts = m.contexts ∧
      (m.callNative inner name args kwargs).2.functions = m.functions
    unfold Machine.callNative
    split
    · exact Work.secludes_callHost secluded _ args kwargs m
    · exact ⟨rfl, rfl⟩

theorem nativesAt_secluded (depth) : (nativesAt depth).Secluded := by
  induction depth with
  | zero => exact natives_secluded fun _ none => absurd none (Option.not_mem_none _)
  | succ depth ih => exact natives_secluded fun h here => Option.some.inj here ▸ ih

theorem Machine.host_secluded (m : Machine) : m.host.Secluded := nativesAt_secluded _

end MonitoredVm
