import MonitoredVm.Proofs.Borrowing
import MonitoredVm.Proofs.Transfer

/-!
# Operations and the books

Sessions, calls and the native functions take snapshots, hand them over and drop them half way when something fails.
All of that keeps the books of a machine in order, and what they give stands on leases that have not ended:
`Work.Lands`, which composes like the work itself.

Main statements: one lemma for each operation, from entering and leaving (`lands_enter`, `lands_exit`) to running code and
calls in another interpreter (`lands_execIn`, `lands_callIn`), and the native functions of a machine are orderly
(`Machine.host_orderly`). Natives run operations and operations run scripts that call natives, so the last is an induction
on how deep native functions may nest.
-/

namespace MonitoredVm

open List Machine

open Grammar (bind_eq_ok)

/-! ## Snapshots -/

section Snapshots
variable {knows : String → Bool} {S : List Lease}

mutual

theorem leases_value : (p : Portable) → p.value.leases = []
  | .none | .bool _ | .int _ | .float _ | .str _ | .bytes _ | .native _ | .defined _ | .exception _ => rfl
  | .tuple items | .list items => leasesAll_values items
  | .dict items => leasesPairs_pairValues items

theorem leasesAll_values : (ps : List Portable) → Value.leasesAll (Portable.values ps) = []
  | [] => rfl
  | p :: ps => by
    rw [Portable.values, Value.leasesAll, leases_value p, leasesAll_values ps]
    rfl

theorem leasesPairs_pairValues : (ps : List (Portable × Portable)) → Value.leasesPairs (Portable.pairValues ps) = []
  | [] => rfl
  | (p, q) :: ps => by
    rw [Portable.pairValues, Value.leasesPairs, leases_value p, leases_value q, leasesPairs_pairValues ps]
    rfl

end

theorem Snapshot.leases_toValue {s : Snapshot} {v : Value} (built : s.toValue knows = .ok v) : v.leases = s.leases := by
  have portable : ∀ {p : Portable} {fail : String → CrossError}, (p.toValue knows).mapError fail = .ok v → v.leases = [] := by
    intro p fail built
    cases read : p.toValue knows with
    | error name =>
      rw [read] at built
      cases built
    | ok w =>
      rw [read] at built
      cases built
      obtain ⟨-, rfl⟩ := (toValue_ok_iff p _).1 read
      exact leases_value p
  unfold Snapshot.toValue at built
  unfold Snapshot.leases
  split at built
  · next content =>
    rw [content]
    exact portable built
  · next content =>
    rw [content]
    split at built
    · cases built
    · exact portable built
  · next content =>
    rw [content]
    cases built
    rfl
  · cases built

variable (knows) in
theorem rebuildAll_subset (before : ∀ b ∈ built, b.2.leases ⊆ S) (stands : ∀ s ∈ items, s.2.leases ⊆ S) :
    (∀ bindings, Work.rebuildAll knows built items = .ok bindings → ∀ b ∈ bindings, b.2.leases ⊆ S) ∧
      ∀ e left, Work.rebuildAll knows built items = .error (e, left) → left ⊆ S := by
  induction items generalizing built with
  | nil => exact ⟨fun bindings done => Except.ok.inj done ▸ before, fun e left failed => by cases failed⟩
  | cons item rest ih =>
    obtain ⟨name, s⟩ := item
    obtain ⟨here, others⟩ := forall_mem_cons.1 stands
    rw [Work.rebuildAll]
    cases value : s.toValue knows with
    | ok v =>
      refine ih (fun b inside => ?_) others
      obtain old | rfl : b ∈ built ∨ b = (name, v) := by simpa using inside
      · exact before b old
      · exact Snapshot.leases_toValue value ▸ here
    | error e =>
      refine ⟨fun bindings done => (by cases done), fun e' left failed => ?_⟩
      obtain ⟨-, rfl⟩ := Prod.mk.inj (Except.error.inj failed)
      refine append_subset.2 ⟨Snapshot.leasesAll_subset_iff.2 others, Value.leasesAll_subset_iff.2 ?_⟩
      exact forall_mem_map.2 before

theorem PendingCall.leases_subset_iff {call : PendingCall} : call.leases ⊆ S ↔ (call.func.map Snapshot.leases).getD [] ⊆ S ∧
    (call.args.map Snapshot.leases).getD [] ⊆ S ∧ (call.kwargs.map Snapshot.leases).getD [] ⊆ S := by
  rw [PendingCall.leases, flatMap_subset_iff]
  simp only [forall_mem_cons, not_mem_nil, false_imp_iff, implies_true, and_true]

theorem keywords_subset {kwargs : Namespace} (named : kwargs.Each (·.leases ⊆ S)) :
    Value.leasesPairs (kwargs.entries.map fun x => (.str x.1, x.2)) ⊆ S :=
  Value.leasesPairs_subset_iff.2 (forall_mem_map.2 fun e inside => ⟨nil_subset S, named e inside⟩)

theorem keywords_each (before : ns.Each (·.leases ⊆ S)) (stands : Value.leasesPairs items ⊆ S)
    (read : PendingCall.keywords items ns = .ok kwargs) : kwargs.Each (·.leases ⊆ S) := by
  induction items generalizing ns with
  | nil => exact Except.ok.inj read ▸ before
  | cons item rest ih =>
    obtain ⟨key, v⟩ := item
    obtain ⟨here, others⟩ := append_subset.1 stands
    cases key with
    | str key => exact ih (before.insert (append_subset.1 here).2 key) others read
    | _ => cases read

variable (knows) in
theorem unpack_subset {call : PendingCall} (stands : call.leases ⊆ S) :
    (call.unpack knows).1.leases ⊆ S ∧ ∀ callee args kwargs, (call.unpack knows).2 = .ok (callee, args, kwargs) →
      callee.leases ⊆ S ∧ Value.leasesAll args ⊆ S ∧ kwargs.Each (·.leases ⊆ S) := by
  obtain ⟨func, args, kwargs⟩ := PendingCall.leases_subset_iff.1 stands
  have none : ((none : Option Snapshot).map Snapshot.leases).getD [] ⊆ S := nil_subset S
  unfold PendingCall.unpack
  split
  · exact ⟨stands, fun _ _ _ failed => by cases failed⟩
  · next f packed =>
    -- a part is taken out before it is rebuilt, so less is left at each failure
    dsimp only
    split
    · exact ⟨PendingCall.leases_subset_iff.2 ⟨none, args, kwargs⟩, fun _ _ _ failed => by cases failed⟩
    · next callee built =>
      split
      · exact ⟨PendingCall.leases_subset_iff.2 ⟨none, args, kwargs⟩, fun _ _ _ failed => by cases failed⟩
      · split
        · exact ⟨PendingCall.leases_subset_iff.2 ⟨none, none, kwargs⟩, fun _ _ _ failed => by cases failed⟩
        · next given read =>
          refine ⟨PendingCall.leases_subset_iff.2 ⟨none, none, none⟩, fun callee' given' named done => ?_⟩
          have known : Value.leasesAll given ⊆ S := by
            split at read
            · exact Except.ok.inj read ▸ nil_subset S
            · next s there =>
              split at read
              · cases read
              · next items tuple =>
                obtain rfl := Except.ok.inj read
                rw [there] at args
                have all : (Value.tuple items).leases ⊆ S := Snapshot.leases_toValue tuple ▸ args
                exact all
              · cases read
          rw [packed] at func
          have calls : callee.leases ⊆ S := Snapshot.leases_toValue built ▸ func
          dsimp only at done
          split at done
          · cases done
            exact ⟨calls, known, .empty⟩
          · next s there =>
            split at done
            · cases done
            · next items dict =>
              rw [there] at kwargs
              have pairs : (Value.dict items).leases ⊆ S := Snapshot.leases_toValue dict ▸ kwargs
              cases words : PendingCall.keywords items {} with
              | error e =>
                rw [words] at done
                cases done
              | ok found =>
                rw [words] at done
                cases done
                exact ⟨calls, known, keywords_each .empty pairs words⟩
            · cases done

end Snapshots

namespace Work
variable {ε δ α β : Type} {m m' : Machine} {c : Nat}

/-- Work keeps the books in order, and what it gives stands on leases that have not ended. -/
structure Lands (m : Machine) (gives : α → List Lease) (x : Except ε α × Machine) : Prop where
  follows : m.Follows x.2
  stands : ∀ a, x.1 = .ok a → gives a ⊆ x.2.leases

variable {gives : α → List Lease} {gives' : β → List Lease}

theorem Lands.pure (h : m.Balanced []) (stands : gives a ⊆ m.leases) : Lands m gives ((pure a : Work ε α) m) :=
  ⟨.refl h, fun _ same => Except.ok.inj same ▸ stands⟩

theorem Lands.throw (h : m.Balanced []) (e : ε) : Lands m gives ((throw e : Work ε α) m) :=
  ⟨.refl h, fun _ same => by cases same⟩

theorem Lands.after (follows : m.Follows m') (lands : Lands m' gives x) : Lands m gives x :=
  ⟨follows.trans lands.follows, lands.stands⟩

theorem Lands.bind {w : Work ε α} {f : α → Work ε β} (first : Lands m gives (w m))
    (rest : ∀ a m', m.Follows m' → gives a ⊆ m'.leases → Lands m' gives' (f a m')) : Lands m gives' ((w >>= f) m) := by
  obtain ⟨follows, stands⟩ := first
  rcases value : w m with ⟨e | a, m'⟩
  · rw [value] at follows
    rw [bind_of_error value]
    exact ⟨follows, fun _ same => by cases same⟩
  · rw [value] at follows stands
    rw [bind_of_ok value]
    exact .after follows (rest a m' follows (stands a rfl))

theorem Lands.change (follows : m.Follows (f m)) (lands : Lands (f m) gives' (rest () (f m))) :
    Lands m gives' ((Work.change f >>= rest) m) := by
  rw [bind_of_ok (change_apply f m)]
  exact .after follows lands

theorem Lands.convert (lands : Lands m gives (w m)) (f : ε → δ) : Lands m gives (convert f w m) := by
  refine ⟨lands.follows, fun a value => lands.stands a ?_⟩
  change (w m).1.mapError f = .ok a at value
  cases result : (w m).1 with
  | error e =>
    rw [result] at value
    cases value
  | ok b =>
    rw [result] at value
    exact congrArg Except.ok (Except.ok.inj value)

theorem Lands.attempt {w : Work ε α} {f : Except ε α → Work δ β} (first : Lands m gives (w m))
    (done : ∀ a m', m.Follows m' → gives a ⊆ m'.leases → Lands m' gives' (f (.ok a) m'))
    (failed : ∀ e m', m.Follows m' → Lands m' gives' (f (.error e) m')) :
    Lands m gives' (((liftM w.run : Work δ (Except ε α)) >>= f) m) := by
  obtain ⟨follows, stands⟩ := first
  rw [bind_of_ok (liftM_apply w.run m)]
  have same : w.run m = w m := rfl
  rw [same]
  generalize w m = x at follows stands ⊢
  obtain ⟨e | a, m'⟩ := x
  · exact .after follows (failed e m' follows)
  · exact .after follows (done a m' follows (stands a rfl))

theorem Lands.optional [Decidable needless] {rest : Option α → Work ε β} (h : m.Balanced [])
    (part : Lands m gives (w m))
    (lands : ∀ o m', m.Follows m' → (o.map gives).getD [] ⊆ m'.leases → Lands m' gives' (rest o m')) :
    Lands m gives' ((if needless then Pure.pure none >>= rest else some <$> w >>= rest) m) := by
  split
  · have absent : Lands m (fun o => (o.map gives).getD []) ((Pure.pure none : Work ε (Option α)) m) :=
      .pure h (nil_subset _)
    exact absent.bind lands
  · have present : Lands m (fun o => (o.map gives).getD []) ((some <$> w) m) := by
      rw [map_eq_pure_bind]
      exact part.bind fun a m' follows stands => .pure follows.balanced stands
    exact present.bind lands

/-- Nothing stands on leases. -/
def nothing : α → List Lease := fun _ => []

theorem lands_change (follows : m.Follows (f m)) :
    Lands m nothing ((Work.change f : Work ε Unit) m) := ⟨follows, fun _ _ => nil_subset _⟩

/-! ## Sessions -/

theorem lands_snapshot (h : m.Balanced []) (there : m.Has source) (known : v.leases ⊆ m.leases) (full) :
    Lands m Snapshot.leases (snapshot source v full m) := by
  unfold snapshot Machine.snapshot
  dsimp only
  split
  · next bytes lease =>
    have owner : m.Has ((lease.map Lease.owner).getD source) := by
      cases lease with
      | none => exact there
      | some l => exact h.owners l (known mem_cons_self)
    obtain ⟨follows, inside⟩ := follows_acquire h owner
    refine ⟨follows, fun s same => ?_⟩
    cases same
    exact cons_subset.2 ⟨inside, nil_subset _⟩
  · refine ⟨.refl h, fun s same => ?_⟩
    have plain : s.leases = [] := by
      dsimp only at same
      split at same
      · exact Except.ok.inj same ▸ rfl
      · split at same
        · split at same
          · exact Except.ok.inj same ▸ rfl
          · cases same
        · cases same
    exact plain ▸ nil_subset _

theorem lands_letGo_throw (h : m.Balanced []) {leases} (known : leases ⊆ m.leases) (e : ε) :
    Lands m gives ((do letGo leases; throw e : Work ε α) m) := by
  have follows := follows_letGo h known
  exact .change follows (.throw follows.balanced e)

theorem lands_packAll (h : m.Balanced []) (there : m.Has source) (before : Snapshot.leasesAll packed ⊆ m.leases)
    (known : ∀ item ∈ items, item.2.leases ⊆ m.leases) :
    Lands m Snapshot.leasesAll (packAll source packed items m) := by
  induction items generalizing m packed with
  | nil => exact .pure h before
  | cons item rest ih =>
    obtain ⟨name, v⟩ := item
    obtain ⟨here, others⟩ := forall_mem_cons.1 known
    rw [packAll]
    refine (lands_snapshot h there here false).attempt (fun s m' follows stands => ?_) fun e m' follows => ?_
    · refine ih follows.balanced (follows.has there) ?_ fun item inside => follows.still (others item inside)
      rw [Snapshot.leasesAll, flatMap_append]
      exact append_subset.2 ⟨follows.still before, by simpa using stands⟩
    · exact lands_letGo_throw follows.balanced (follows.still before) e

theorem lands_enter (h : m.Balanced []) (c) {t : Int} {shared : Namespace} (known : shared.Each (·.leases ⊆ m.leases)) :
    Lands m nothing (enter c t shared m) := by
  rw [enter, bind_of_ok (get_apply m)]
  dsimp only
  split
  · exact .throw h _
  · rw [bind_of_ok (get_apply m)]
    have source := (h.knows c).current
    refine (lands_packAll h source (nil_subset _) known).bind fun packed m₁ follows₁ stands => ?_
    rw [bind_of_ok (get_apply m₁)]
    cases marking : m₁.setRunning t with
    -- what was packed goes if the interpreter cannot be entered
    | error e => exact lands_letGo_throw follows₁.balanced stands e
    | ok m₂ =>
      obtain ⟨follows₂, target⟩ := follows_setRunning follows₁.balanced marking
      have follows₃ := follows_switch follows₂.balanced c target
      have follows := (follows₁.trans follows₂).trans follows₃
      dsimp only
      rw [bind_of_ok (show (set m₂ : Work CrossError Unit) m₁ = (.ok (), m₂) from rfl), bind_of_ok (change_apply _ m₂),
        bind_of_ok (get_apply _)]
      refine .after (follows₂.trans follows₃) ?_
      have stands := (follows₂.trans follows₃).still stands
      obtain ⟨bound, left⟩ := rebuildAll_subset (m₂.switch c t).knows (forall_mem_nil _)
        (Snapshot.leasesAll_subset_iff.1 stands)
      cases rebuilt : rebuildAll (m₂.switch c t).knows [] packed with
      | error failure =>
        -- the context goes back, and what was rebuilt and what was not are both let go
        obtain ⟨e, leases⟩ := failure
        have back := follows_switch follows.balanced c (follows.has source)
        have idle := back.trans (follows_setIdle back.balanced t)
        have gone := idle.trans (follows_letGo idle.balanced (idle.still (left e leases rebuilt)))
        exact .change gone (.throw gone.balanced _)
      | ok bindings =>
        have named := follows_bindAll follows.balanced t (bound bindings rebuilt)
        have noted := follows_remark named.balanced .debug (n := .entered t (m.context c).current) rfl
        refine .change named (.change noted (lands_change ?_))
        have onward := (follows.trans named).trans noted
        refine follows_setSession noted.balanced c (fun stage => ?_) ?_
        · cases stage
          exact ⟨(named.trans noted).has (follows₃.has target), onward.has source⟩
        · exact (h.preserved c).imp fun _ => onward.still

theorem target_cases (h : m.Balanced []) (c) : (∃ e, target c m = (.error e, m)) ∨
    ∃ t, target c m = (.ok t, m) ∧ m.Has t := by
  rw [target, bind_of_ok (get_apply m)]
  cases stage : (m.session c).stage with
  | idle => exact .inl ⟨_, rfl⟩
  | entered t p => exact .inr ⟨t, rfl, ((h.knows c).entered stage).1⟩

/-- What runs with the namespace of an interpreter taken out of it keeps the books in order if it binds and gives only what
stands on leases that have not ended. -/
theorem lands_withGlobals (h : m.Balanced []) (id) {report : Except ε α → Work ε α}
    (done : ∀ a, report (.ok a) = Pure.pure a) (failed : ∀ e, report (.error e) = MonadExcept.throw e)
    (keeps : ∀ taken : Machine, taken.Balanced [] → taken.leases = m.leases →
      taken.Follows (run (m.globals id) taken).2.2 ∧ (run (m.globals id) taken).2.1.Each (·.leases ⊆ m.leases) ∧
        ∀ a, (run (m.globals id) taken).1 = .ok a → gives a ⊆ m.leases) :
    Lands m gives ((liftM (withGlobals id run) >>= report) m) := by
  have taken : m.Follows (m.modifyInterpreter id fun i => { i with globals := {} }) :=
    follows_setGlobals h id fun _ _ => .empty
  obtain ⟨ran, stands, result⟩ := keeps _ taken.balanced rfl
  rw [bind_of_ok (liftM_apply _ m), withGlobals]
  dsimp only
  generalize run _ _ = x at ran stands result ⊢
  obtain ⟨r, ns, m'⟩ := x
  have onward := taken.trans ran
  have stands : ns.Each (·.leases ⊆ m'.leases) := stands.imp fun _ => onward.still
  have follows := onward.trans (follows_setGlobals ran.balanced id (f := fun _ => ns) fun _ _ => stands)
  refine .after follows ?_
  cases r with
  | ok a =>
    rw [done]
    exact .pure follows.balanced (follows.still (result a rfl))
  | error e =>
    rw [failed]
    exact .throw follows.balanced e

theorem lands_inTarget (h : m.Balanced []) (c) (fail : CrossError → ε) (lands : ∀ t, m.Has t → Lands m gives (f t m)) :
    Lands m gives ((convert fail (target c) >>= f) m) := by
  obtain ⟨e, failed⟩ | ⟨t, found, there⟩ := target_cases h c
  · have failed : convert fail (target c) m = (.error (fail e), m) := by rw [convert, failed]; rfl
    rw [bind_of_error failed]
    exact .throw h _
  · have found : convert fail (target c) m = (.ok t, m) := by rw [convert, found]; rfl
    rw [bind_of_ok found]
    exact lands t there

theorem lands_exec (orderly : h.Orderly) (balanced : m.Balanced []) (c script) :
    Lands m nothing (exec h c script m) := by
  refine lands_inTarget balanced c _ fun t _ => ?_
  refine lands_withGlobals balanced t (fun _ => rfl) (fun _ => rfl) fun taken start same => ?_
  have outer : (m.globals t).Each (·.leases ⊆ taken.leases) := same ▸ balanced.globals t
  obtain ⟨ran, stands⟩ := orderly.exec start script outer
  exact ⟨ran, same ▸ stands, fun _ _ => nil_subset _⟩

theorem lands_call (orderly : h.Orderly) (balanced : m.Balanced []) (c) (calls : callee.leases ⊆ m.leases)
    (given : Value.leasesAll args ⊆ m.leases) (named : kwargs.Each (·.leases ⊆ m.leases)) :
    Lands m Value.leases (call h c callee args kwargs m) := by
  refine lands_inTarget balanced c _ fun t _ => ?_
  refine lands_withGlobals balanced t (fun _ => rfl) (fun _ => rfl) fun taken start same => ?_
  have outer := balanced.globals t
  rw [← same] at calls given named
  obtain ⟨ran, stands⟩ := orderly.applyValue start calls given named (same ▸ outer)
  exact ⟨ran, outer, same ▸ stands⟩

theorem follows_callPending {h : Natives Machine} (orderly : h.Orderly) (balanced : m.Balanced []) (c)
    {pending : PendingCall} (stands : pending.leases ⊆ m.leases) :
    m.Follows (callPending h c pending m).2 ∧ (callPending h c pending m).1.1.leases ⊆ (callPending h c pending m).2.leases ∧
      ∀ v, (callPending h c pending m).1.2 = .ok v → v.leases ⊆ (callPending h c pending m).2.leases := by
  obtain ⟨left, parts⟩ := unpack_subset m.knows stands
  rw [callPending, state_bind, state_get]
  dsimp only
  generalize pending.unpack m.knows = unpacked at left parts ⊢
  obtain ⟨pending', e | ⟨callee, args, kwargs⟩⟩ := unpacked
  · exact ⟨.refl balanced, left, fun v same => by cases same⟩
  · obtain ⟨calls, given, named⟩ := parts callee args kwargs rfl
    obtain ⟨follows, result⟩ := lands_call orderly balanced c calls given named
    exact ⟨follows, follows.still left, result⟩

section
variable (h : m.Balanced [])
include h

theorem lands_preserve (c name) {v : Value} (known : v.leases ⊆ m.leases) :
    Lands m nothing (preserve c name v m) := by
  obtain ⟨e, failed⟩ | ⟨t, found, there⟩ := target_cases h c
  · rw [preserve, bind_of_error failed]
    exact .throw h e
  · rw [preserve, bind_of_ok found]
    refine ((lands_snapshot h there known true).convert _).bind fun s m' follows stands => ?_
    rw [bind_of_ok (get_apply m')]
    have old := (follows.balanced.preserved c).elim_subset name
    have kept : m'.Follows (m'.setSession c
        (some { m'.session c with preserved := (m'.session c).preserved.insert name s })) :=
      follows_setSession follows.balanced c (follows.balanced.knows c).entered
        ((follows.balanced.preserved c).insert stands name)
    exact .change kept (lands_change (follows_letGo kept.balanced (kept.still old)))

theorem follows_leave (c) :
    m.Follows (leave c m).2 ∧ (leave c m).1.preserved.Each (·.leases ⊆ (leave c m).2.leases) := by
  rw [(leave_apply c m).1]
  have left : m.Follows (leave c m).2 := by
    rw [leave, state_bind, state_get]
    dsimp only
    cases stage : (m.session c).stage with
    | idle => exact follows_setSession h c (fun stage => by cases stage) .empty
    | entered t p =>
      have back := follows_switch h c ((h.knows c).entered stage).2
      have rested := back.trans (follows_setIdle back.balanced t)
      have noted := rested.trans (follows_remark rested.balanced .debug (n := .left t) rfl)
      exact noted.trans (follows_setSession noted.balanced c (fun stage => by cases stage) .empty)
  exact ⟨left, (h.preserved c).imp fun _ => left.still⟩

theorem follows_abandon (c) : m.Follows (abandon c m).2 := by
  obtain ⟨left, stands⟩ := follows_leave h c
  exact left.trans (follows_letGo left.balanced (Snapshot.leasesAll_subset_iff.2 stands))

theorem lands_handOver (failed) (stands : ∀ s ∈ items, s.2.leases ⊆ m.leases) {ns : Namespace}
    (bound : ns.Each (·.leases ⊆ m.leases)) :
    Lands m (fun ns => Value.leasesAll ns.values) (handOver failed items ns m) := by
  induction items generalizing m ns with
  | nil => exact .pure h (Namespace.leases_subset_iff.2 bound)
  | cons item rest ih =>
    obtain ⟨name, s⟩ := item
    obtain ⟨here, others⟩ := forall_mem_cons.1 stands
    have rebuilt : Lands m Value.leases (rebuild s m) := ⟨.refl h, fun v value => Snapshot.leases_toValue value ▸ here⟩
    rw [handOver]
    refine rebuilt.attempt (fun v m' follows known => ?_) fun e m' follows => ?_
    · exact ih follows.balanced (fun x inside => follows.still (others x inside))
        ((bound.imp fun _ => follows.still).insert known name)
    · dsimp only
      split
      · have noted := follows_remark follows.balanced .warn (n := .droppedPreserved name e) rfl
        have onward := follows.trans noted
        exact .change noted (ih noted.balanced (fun x inside => onward.still (others x inside))
          (bound.imp fun _ => onward.still))
      · refine lands_letGo_throw follows.balanced (append_subset.2 ⟨?_, ?_⟩) _
        · exact follows.still (Snapshot.leasesAll_subset_iff.2 others)
        · exact follows.still (Namespace.leases_subset_iff.2 bound)

theorem lands_exit (c failure) :
    Lands m (fun o => Value.leasesAll o.1.values) (exit c failure m) := by
  obtain ⟨left, stands⟩ := follows_leave h c
  rw [exit, bind_of_ok (liftM_apply _ m)]
  generalize leave c m = x at left stands ⊢
  obtain ⟨session, m'⟩ := x
  refine .after left ?_
  cases stage : session.stage with
  | idle => exact .throw left.balanced _
  | entered t p =>
    refine (lands_handOver left.balanced _ stands .empty).bind fun preserved m'' follows known => ?_
    exact .pure follows.balanced known

/-! ## Running code and making calls -/

theorem lands_engage (c : Nat) {t : Int} {shared : Namespace}
    (known : shared.Each (·.leases ⊆ m.leases)) : Lands m nothing (engage c t shared m) := by
  have begun : m.Follows (m.setSession c (some {})) :=
    follows_setSession h c (fun stage => by cases stage) .empty
  refine .change begun ((lands_enter begun.balanced c known).attempt (fun _ m' follows _ => ?_) fun e m' follows => ?_)
  · exact .pure follows.balanced (nil_subset _)
  · have abandoned := follows_abandon follows.balanced c
    dsimp only
    rw [bind_of_ok (liftM_apply _ m')]
    exact .after abandoned (.throw abandoned.balanced _)

theorem lands_disengage (c) (outcome : Except Halt Unit) :
    Lands m (fun o => Value.leasesAll o.1.values) (disengage c outcome m) := by
  match outcome with
  | .ok () => exact (lands_exit h c none).convert _
  | .error (.raised e) => exact (lands_exit h c (some e)).convert _
  | .error .exhausted =>
    have abandoned := follows_abandon h c
    rw [disengage, bind_of_ok (liftM_apply _ m)]
    exact .after abandoned (.throw abandoned.balanced _)

theorem lands_report (c) (outcome : Except Halt Unit) (report : Namespace × Option Failure → α) :
    Lands m nothing ((do return report (← disengage c outcome) : Work InterpError α) m) :=
  (lands_disengage h c outcome).bind fun _ _ follows _ => .pure follows.balanced (nil_subset _)

theorem lands_answer (c) (outcome : Except Halt Unit)
    (report : Namespace × Option Failure → Option Failure) :
    Lands m (fun o => o.1.leases) ((do
      let outcome ← Pure.pure outcome
      let o ← disengage c outcome
      return ((o.1.get? "result").getD .none, report o) : Work InterpError _) m) := by
  rw [pure_bind]
  refine (lands_disengage h c outcome).bind fun o m' follows known => .pure follows.balanced ?_
  cases found : o.1.get? "result" with
  | none => exact nil_subset _
  | some v => exact (Namespace.leases_subset_iff.1 known).get? found

end

theorem lands_resolve (h : m.Balanced []) (c) {id restrict ready operation}
    (lands : ∀ i, m.get? id = some i → Lands m gives (rest i m)) :
    Lands m gives ((resolve c (some id) restrict ready operation >>= rest) m) := by
  obtain ⟨e, failed, -⟩ | ⟨i, resolved, found, -⟩ := resolve_cases c id restrict ready operation m
  · rw [bind_of_error failed]
    exact .throw h e
  · rw [bind_of_ok resolved]
    exact lands i found

theorem lands_setGlobals (h : m.Balanced []) (c id) {updates : Namespace} (restrict)
    (known : updates.Each (·.leases ⊆ m.leases)) : Lands m nothing (setGlobals c id updates restrict m) := by
  refine lands_resolve h c fun i _ => ?_
  dsimp only
  split
  · exact .throw h _
  · exact (lands_engage h c known).bind fun _ _ follows _ => lands_report follows.balanced c _ _

theorem lands_runCargo {h : Natives Machine} (orderly : h.Orderly) (balanced : m.Balanced []) (c id cargo)
    {shared : Namespace} (known : shared.Each (·.leases ⊆ m.leases)) :
    Lands m nothing (runCargo h c id cargo shared m) := by
  refine (lands_engage balanced c known).bind fun _ m₁ entered _ => ?_
  dsimp only
  cases cargo.unload with
  | error halt => exact lands_report entered.balanced c _ _
  | ok script =>
    refine (lands_exec orderly entered.balanced c script).attempt (fun _ m₂ ran _ => ?_) fun halt m₂ ran => ?_
    · exact lands_report ran.balanced c _ _
    · exact lands_report ran.balanced c _ _

theorem lands_execIn (orderly : h.Orderly) (balanced : m.Balanced []) (c id code) (restrict)
    (known : shared.Each (·.leases ⊆ m.leases)) : Lands m nothing (execIn h c id code shared restrict m) := by
  refine lands_resolve balanced c fun i _ => ?_
  cases code.load "exec" with
  | error e => exact .throw balanced _
  | ok cargo => exact lands_runCargo orderly balanced c i.id cargo known

theorem lands_runString (orderly : h.Orderly) (balanced : m.Balanced []) (c id source) (restrict)
    (known : shared.Each (·.leases ⊆ m.leases)) : Lands m nothing (runString h c id source shared restrict m) :=
  lands_resolve balanced c fun i _ => lands_runCargo orderly balanced c i.id _ known

theorem lands_runFunction (orderly : h.Orderly) (balanced : m.Balanced []) (c id f) (restrict)
    (known : shared.Each (·.leases ⊆ m.leases)) : Lands m nothing (runFunction h c id f shared restrict m) := by
  refine lands_resolve balanced c fun i _ => ?_
  cases (Runnable.function f).load "run_func" with
  | error e => exact .throw balanced _
  | ok cargo => exact lands_runCargo orderly balanced c i.id cargo known

theorem lands_pack (h : m.Balanced []) (there : m.Has source) (calls : callee.leases ⊆ m.leases)
    (given : Value.leasesAll args ⊆ m.leases) (named : kwargs.Each (·.leases ⊆ m.leases)) :
    Lands m PendingCall.leases (pack source callee args kwargs m) := by
  have parts : ∀ {m' : Machine} {v : Value}, m.Follows m' → v.leases ⊆ m.leases →
      Lands m' Snapshot.leases (part source v m') := fun follows known =>
    (lands_snapshot follows.balanced (follows.has there) (follows.still known) true).convert _
  have pairs : (Value.dict (kwargs.entries.map fun x => (.str x.1, x.2))).leases ⊆ m.leases := keywords_subset named
  unfold pack
  dsimp only
  split
  · exact .throw h _
  · refine (parts (.refl h) calls).bind fun func m₁ follows₁ first => ?_
    refine .optional follows₁.balanced (parts follows₁ (v := .tuple args) given) fun args m₂ follows₂ second => ?_
    have follows₂' := follows₁.trans follows₂
    refine .optional follows₂.balanced (parts follows₂' pairs) fun kwargs m₃ follows₃ third => ?_
    refine .pure follows₃.balanced (PendingCall.leases_subset_iff.2 ⟨?_, follows₃.still second, third⟩)
    exact (follows₂.trans follows₃).still first

theorem lands_callIn {h : Natives Machine} (orderly : h.Orderly) (balanced : m.Balanced []) (c id) {callee : Value}
    {args : List Value} {kwargs : Namespace} (preserveExc restrict) (calls : callee.leases ⊆ m.leases)
    (given : Value.leasesAll args ⊆ m.leases) (named : kwargs.Each (·.leases ⊆ m.leases)) :
    Lands m (fun o => o.1.leases) (callIn h c id callee args kwargs preserveExc restrict m) := by
  refine lands_resolve balanced c fun i _ => ?_
  rw [bind_of_ok (get_apply m)]
  refine ((lands_pack balanced (balanced.knows c).current calls given named).convert _).bind fun pending m₁ packed stands => ?_
  refine (lands_engage packed.balanced c .empty).bind fun _ m₂ entered _ => ?_
  obtain ⟨called, -, result⟩ := follows_callPending orderly entered.balanced c (entered.still stands)
  -- however the call ends, the session ends by giving an answer
  rw [bind_of_ok (liftM_apply _ m₂)]
  generalize callPending h c pending m₂ = x at called result ⊢
  obtain ⟨⟨left, r⟩, m₃⟩ := x
  refine .after called ?_
  match r with
  | .ok v =>
    refine (lands_preserve called.balanced c "result" (result v rfl)).attempt (fun _ m₄ kept _ => ?_) fun e m₄ kept => ?_
    · dsimp only
      exact lands_answer kept.balanced c _ _
    · dsimp only
      exact lands_answer kept.balanced c _ _
  | .error (.raised e) =>
    dsimp only
    split
    · refine (lands_preserve called.balanced c "exc" (nil_subset _)).attempt (fun _ m₄ kept _ => ?_) fun e' m₄ kept => ?_
      · exact lands_answer kept.balanced c _ _
      · have noted := follows_remark kept.balanced .debug (n := .notPreserved e') rfl
        exact .change noted (lands_answer noted.balanced c _ _)
    · exact lands_answer called.balanced c _ _
  | .error .exhausted =>
    dsimp only
    exact lands_answer called.balanced c _ _

theorem lands_destroy (h : m.Balanced []) (c id restrict) : Lands m nothing (destroy c id restrict m) := by
  refine lands_resolve h c fun i _ => ?_
  rw [bind_of_ok (get_apply m)]
  split
  · exact .throw h _
  · split
    · exact .throw h _
    · exact lands_change (follows_endInterpreter h id)

/-! ## Native functions -/

theorem lands_onNewContext (h : m.Balanced []) (lands : ∀ {m : Machine} c, m.Balanced [] → Lands m gives (work c m)) :
    Lands m gives (onNewContext work m) := by
  have start := follows_newContext h
  obtain ⟨worked, stands⟩ := (lands m.contexts.length start.balanced).convert InterpError.halt
  unfold onNewContext
  dsimp only
  generalize convert InterpError.halt _ _ = x at worked stands ⊢
  obtain ⟨r, m'⟩ := x
  have cut : ({ m' with contexts := m'.contexts.take m.contexts.length } : Machine).Balanced [] :=
    worked.balanced.hold rfl rfl rfl rfl (fun x inside => worked.balanced.contexts x (mem_of_mem_take inside))
      { worked.balanced.standsOn with
        preserved := fun x inside => worked.balanced.standsOn.preserved x (mem_of_mem_take inside) }
  exact ⟨(start.trans worked).trans (.of_eq cut rfl rfl rfl), stands⟩

end Work

theorem Builtin.single_ok (read : Builtin.single function args kwargs = .ok v) : args = [v] := by
  unfold Builtin.single at read
  split at read
  · cases read
  · split at read
    · exact congrArg (fun x => [x]) (Except.ok.inj read)
    · cases read

theorem Builtin.leases_apply {b : Builtin} {v : Value} (applied : b.apply args kwargs = .ok v) :
    v.leases ⊆ Value.leasesAll args := by
  cases b with
  | len =>
    obtain ⟨w, -, applied⟩ := bind_eq_ok applied
    split at applied
    · exact Except.ok.inj applied ▸ nil_subset _
    · cases applied
  | repr =>
    obtain ⟨w, -, applied⟩ := bind_eq_ok applied
    exact Except.ok.inj applied ▸ nil_subset _
  | memoryview =>
    obtain ⟨w, read, viewed⟩ := bind_eq_ok applied
    rw [Builtin.single_ok read]
    split at viewed
    · exact Except.ok.inj viewed ▸ nil_subset _
    · exact Except.ok.inj viewed ▸ subset_append_left _ _
    · cases viewed
  | bytes =>
    unfold Builtin.apply at applied
    dsimp only at applied
    split at applied
    · exact Except.ok.inj applied ▸ nil_subset _
    · obtain ⟨w, -, applied⟩ := bind_eq_ok applied
      split at applied
      · exact Except.ok.inj applied ▸ nil_subset _
      · exact Except.ok.inj applied ▸ nil_subset _
      · cases applied

namespace Work
variable {m : Machine} {S : List Lease}

theorem follows_before {α : Type} {w} {f : α → Work Halt Value} {gives : α → List Lease} (first : Lands m gives (w m))
    (rest : ∀ a {m' : Machine}, m'.Balanced [] → m'.Follows (f a m').2 ∧ ∀ v, (f a m').1 = .ok v → v.leases ⊆ S) :
    m.Follows ((w >>= f) m).2 ∧ ∀ v, ((w >>= f) m).1 = .ok v → v.leases ⊆ S := by
  have follows := first.follows
  rcases value : w m with ⟨e | a, m'⟩
  · rw [value] at follows
    rw [bind_of_error value]
    exact ⟨follows, fun v same => by cases same⟩
  · rw [value] at follows
    rw [bind_of_ok value]
    obtain ⟨later, stands⟩ := rest a follows.balanced
    exact ⟨follows.trans later, stands⟩

theorem lands_interpreterOf (h : m.Balanced []) (args) : Lands m nothing (interpreterOf args m) := by
  rw [interpreterOf, bind_of_ok (get_apply m)]
  cases m.get? (idArgument args) with
  | some i => exact .pure h (nil_subset _)
  | none => exact .throw h _

/-- A native function keeps the books in order, with natives that do for the code it runs, and gives back what stands on
leases of its arguments or its own. -/
theorem follows_callHost {inner} (orderly : ∀ h ∈ inner, h.Orderly) (h : m.Balanced []) {f : HostFunction}
    (own : f.leases ⊆ S) {args} (given : Value.leasesAll args ⊆ S) {kwargs : Namespace}
    (named : kwargs.Each (·.leases ⊆ S)) :
    m.Follows (callHost inner f args kwargs m).2 ∧ ∀ v, (callHost inner f args kwargs m).1 = .ok v → v.leases ⊆ S := by
  cases f with
  | builtin b =>
    refine ⟨.refl h, fun v value => ?_⟩
    change Builtin.outcome (b.apply args kwargs) = .ok v at value
    cases applied : b.apply args kwargs with
    | error e =>
      rw [applied] at value
      cases value
    | ok w =>
      rw [applied] at value
      cases value
      exact List.Subset.trans (Builtin.leases_apply applied) given
  | const v => exact ⟨.refl h, fun w value => Except.ok.inj value ▸ own⟩
  | echo =>
    refine ⟨.refl h, fun w value => Except.ok.inj value ▸ ?_⟩
    exact append_subset.2 ⟨given, append_subset.2 ⟨keywords_subset named, nil_subset S⟩⟩
  | list => exact ⟨.refl h, fun w value => Except.ok.inj value ▸ given⟩
  | object typeName =>
    have made : ({ m with nextObject := m.nextObject + 1 } : Machine).Balanced [] :=
      h.hold rfl rfl rfl rfl h.contexts { h.standsOn with }
    exact ⟨.of_eq made rfl rfl rfl, fun w value => Except.ok.inj value ▸ nil_subset S⟩
  | raise e => exact ⟨.refl h, fun w value => by cases value⟩
  | exception e => exact ⟨.refl h, fun w value => Except.ok.inj value ▸ nil_subset S⟩
  | run =>
    unfold callHost
    dsimp only
    split
    · next source _ g =>
      have ran : ∀ id, Lands m nothing (onNewContext (fun c => runString g c id source {} false) m) := fun id =>
        lands_onNewContext h fun c start => lands_runString (orderly g rfl) start c id source false .empty
      refine follows_before (ran _) fun r m' start => ?_
      cases r with
      | none => exact ⟨.refl start, fun v value => Except.ok.inj value ▸ nil_subset S⟩
      | some failure => exact ⟨.refl start, fun v value => Except.ok.inj value ▸ nil_subset S⟩
    · exact ⟨.refl h, fun w value => by cases value⟩
    · exact ⟨.refl h, fun w value => Except.ok.inj value ▸ nil_subset S⟩
  | destroy =>
    have ended : Lands m nothing (onNewContext (fun c => destroy c (idArgument args) false) m) :=
      lands_onNewContext h fun c start => lands_destroy start c _ false
    exact follows_before ended fun _ m' start => ⟨.refl start, fun v value => Except.ok.inj value ▸ nil_subset S⟩
  | names =>
    refine follows_before (lands_interpreterOf h args) fun i m' start => ⟨.refl start, fun v value => ?_⟩
    cases value
    exact Value.leasesAll_subset_iff.2 (forall_mem_map.2 fun _ _ => nil_subset S)
  | status =>
    refine follows_before (lands_interpreterOf h args) fun i m' start => ⟨.refl start, fun v value => ?_⟩
    exact Except.ok.inj value ▸ nil_subset S

end Work

theorem Machine.natives_orderly {inner} (orderly : ∀ h ∈ inner, h.Orderly) : (Machine.natives inner).Orderly where
  letGo _ _ := rfl
  call {S m} name {args kwargs} h functions given named := by
    change m.Follows (m.callNative inner name args kwargs).2 ∧ ∀ v, (m.callNative inner name args kwargs).1 = .ok v → _
    unfold Machine.callNative
    split
    · next f found => exact Work.follows_callHost orderly h (functions.get? found) given named
    · exact ⟨.refl h, fun v value => by cases value⟩

/-- All natives of the host keep the books in order: the induction is on how deep code in natives may nest. -/
theorem nativesAt_orderly (depth) : (nativesAt depth).Orderly := by
  induction depth with
  | zero => exact natives_orderly fun _ none => absurd none (Option.not_mem_none _)
  | succ depth ih => exact natives_orderly fun h here => Option.some.inj here ▸ ih

theorem Machine.host_orderly (m : Machine) : m.host.Orderly := nativesAt_orderly _

end MonitoredVm
