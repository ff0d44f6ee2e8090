import MonitoredVm.Proofs.Calls
import MonitoredVm.Proofs.Shareable

/-!
# The roles of shareable values

A shareable value goes to another interpreter bound to a name or as an argument of a call, and comes back as the result
of one. Bindings and results are taken each by itself. Positional arguments are taken in a tuple and keyword arguments in
a dict, in which no buffer has a portable form; the dict has to be kept as JSON besides.

Main statement: `shareable_roles`.
-/

namespace MonitoredVm
open Grammar (bind_eq_ok)

/-! ## Values inside others -/

namespace Value

def NotBuffer (v : Value) : Prop := ∀ bytes lease, v ≠ .buffer bytes lease

theorem isShareable_cases {v : Value} (shareable : v.isShareable = true) :
    (∃ bytes lease, v = .buffer bytes lease) ∨ ∃ p, v.portable false = .ok p := by
  by_cases buffer : ∃ bytes lease, v = .buffer bytes lease
  · exact .inl buffer
  · rw [isShareable_eq fun bytes lease same => buffer ⟨bytes, lease, same⟩] at shareable
    cases made : v.portable false with
    | ok p => exact .inr ⟨p, rfl⟩
    | error blocker =>
      rw [made] at shareable
      cases shareable

theorem portable_iff {v : Value} (shareable : v.isShareable = true) (full) :
    (∃ p, v.portable full = .ok p) ↔ v.NotBuffer := by
  constructor
  · rintro ⟨p, made⟩ bytes lease rfl
    cases made
  · intro whole
    obtain ⟨bytes, lease, same⟩ | ⟨p, made⟩ := isShareable_cases shareable
    · exact absurd same (whole bytes lease)
    · cases full with
      | false => exact ⟨p, made⟩
      | true =>
        have stands : p.toValue (fun _ => true) = .ok v := (toValue_portable_iff v made).2 ⟨rfl, fun _ _ => rfl⟩
        exact ⟨p, portable_of_toValue p stands⟩

theorem restored_of_isShareable {v : Value} (shareable : v.isShareable = true) :
    v.Restored ∧ v.snapshottable = true := by
  obtain ⟨bytes, lease, rfl⟩ | ⟨p, made⟩ := isShareable_cases shareable
  · exact ⟨fun _ _ _ full => (by cases full), rfl⟩
  · refine ⟨fun _ _ blocked => (by cases made.symm.trans blocked), ?_⟩
    rw [snapshottable, snapshot_of_portable default 0 ((portable_iff shareable false).1 ⟨p, made⟩) made]
    rfl

theorem portable_tuple_iff : (∃ p, (tuple vs).portable full = .ok p) ↔ ∀ v ∈ vs, ∃ p, v.portable full = .ok p := by
  constructor
  · rintro ⟨p, made⟩ v item
    obtain ⟨ps, all, -⟩ := bind_eq_ok made
    exact portable_of_portableAll all item
  · intro each
    suffices ∃ ps, portableAll full vs = .ok ps by
      obtain ⟨ps, all⟩ := this
      exact ⟨.tuple ps, by rw [portable, all]; rfl⟩
    induction vs with
    | nil => exact ⟨[], rfl⟩
    | cons v vs ih =>
      obtain ⟨p, first⟩ := each v List.mem_cons_self
      obtain ⟨ps, rest⟩ := ih fun w item => each w (List.mem_cons_of_mem _ item)
      exact ⟨p :: ps, by rw [portableAll, first, rest]; rfl⟩

theorem portablePairs_iff :
    (∃ qs, portablePairs true (Namespace.pairs ⟨entries⟩) = .ok qs) ↔ ∀ e ∈ entries, ∃ p, e.2.portable true = .ok p := by
  induction entries with
  | nil => exact iff_of_true ⟨[], rfl⟩ fun _ inside => by cases inside
  | cons e rest ih =>
    rw [List.forall_mem_cons, ← ih]
    change (∃ qs, portablePairs true ((.str e.1, e.2) :: Namespace.pairs ⟨rest⟩) = .ok qs) ↔ _
    rw [portablePairs]
    constructor
    · rintro ⟨qs, made⟩
      obtain ⟨key, -, made⟩ := bind_eq_ok made
      obtain ⟨q, value, made⟩ := bind_eq_ok made
      obtain ⟨qs', others, -⟩ := bind_eq_ok made
      exact ⟨⟨q, value⟩, qs', others⟩
    · rintro ⟨⟨q, value⟩, qs, others⟩
      exact ⟨(.str e.1, q) :: qs, by rw [value, others]; rfl⟩

theorem portable_dict_iff {kwargs : Namespace} :
    (∃ p, (dict kwargs.pairs).portable true = .ok p) ↔ ∀ e ∈ kwargs.entries, ∃ p, e.2.portable true = .ok p := by
  rw [← portablePairs_iff]
  constructor
  · rintro ⟨p, made⟩
    obtain ⟨qs, all, -⟩ := bind_eq_ok made
    exact ⟨qs, all⟩
  · rintro ⟨qs, all⟩
    exact ⟨.dict qs, by rw [portable, if_pos rfl, all]; rfl⟩

theorem snapshottable_iff {v : Value} (whole : v.NotBuffer) : v.snapshottable = true ↔ ∃ full p, v.portable full = .ok p := by
  unfold snapshottable Machine.snapshot
  split
  · next bytes lease => exact absurd rfl (whole bytes lease)
  · cases binary : v.portable false with
    | ok p => exact iff_of_true rfl ⟨false, p, binary⟩
    | error blocker =>
      cases made : v.portable true with
      | ok p => exact iff_of_true rfl ⟨true, p, made⟩
      | error other =>
        refine iff_of_false (fun ok => by cases ok) ?_
        rintro ⟨full, p, ok⟩
        cases full with
        | false => cases binary.symm.trans ok
        | true => cases made.symm.trans ok

section Arguments
variable {args : List Value} (shareable : ∀ v ∈ args, v.isShareable = true)
include shareable

theorem snapshottable_tuple_iff : (tuple args).snapshottable = true ↔ ∀ v ∈ args, v.NotBuffer := by
  rw [snapshottable_iff fun _ _ same => by cases same]
  constructor
  · rintro ⟨full, made⟩ v item
    exact (portable_iff (shareable v item) full).1 (portable_tuple_iff.1 made v item)
  · intro whole
    exact ⟨false, portable_tuple_iff.2 fun v item => (portable_iff (shareable v item) false).2 (whole v item)⟩

theorem restored_tuple : (tuple args).Restored := by
  intro blocker p blocked made
  have binary := portable_tuple_iff.2 fun v item =>
    (portable_iff (shareable v item) false).2 ((portable_iff (shareable v item) true).1 (portable_tuple_iff.1 ⟨p, made⟩ v item))
  obtain ⟨q, made⟩ := binary
  cases blocked.symm.trans made

end Arguments

theorem snapshottable_dict_iff {kwargs : Namespace} (shareable : ∀ e ∈ kwargs.entries, e.2.isShareable = true) :
    (dict kwargs.pairs).snapshottable = true ↔ ∀ e ∈ kwargs.entries, e.2.NotBuffer := by
  rw [snapshottable_iff fun _ _ same => by cases same]
  constructor
  · rintro ⟨full, p, made⟩ e inside
    cases full with
    | false => cases made
    | true => exact (portable_iff (shareable e inside) true).1 (portable_dict_iff.1 ⟨p, made⟩ e inside)
  · intro whole
    exact ⟨true, portable_dict_iff.2 fun e inside => (portable_iff (shareable e inside) true).2 (whole e inside)⟩

end Value

/-! ## Calls -/

namespace Work
variable {source : Int} {callee : Value} {args : List Value} {kwargs : Namespace} {m m' : Machine} {pending : PendingCall}

theorem part_isOk (source v) (m : Machine) : (part source v m).1.isOk = v.snapshottable := by
  rw [← m.isOk_snapshot source v]
  rcases taken : m.snapshot source v true with ⟨m', e | s⟩
  · rw [part, convert_of_error (by rw [snapshot, taken])]
    rfl
  · rw [part, convert_of_ok (by rw [snapshot, taken])]
    rfl

theorem Packs.snapshottable (packs : Packs source v s) : v.snapshottable = true := by
  obtain ⟨m, m', taken⟩ := packs
  rw [← part_isOk source v m, taken]
  rfl

theorem part_packed (fine : v.snapshottable = true) (source) (m : Machine) : ∃ s m₁, part source v m = (.ok s, m₁) := by
  have packed := part_isOk source v m
  rw [fine] at packed
  rcases taken : part source v m with ⟨e | s, m₁⟩
  · rw [taken] at packed
    cases packed
  · exact ⟨s, m₁, rfl⟩

theorem optional_packed (fine : empty = true ∨ v.snapshottable = true) (f : Option Snapshot → Work Exception β) (source)
    (m : Machine) :
    ∃ s? m₁, (if empty = true then pure none >>= f else (some <$> part source v) >>= f) m = f s? m₁ := by
  cases empty with
  | true => exact ⟨none, m, rfl⟩
  | false =>
    obtain ⟨s, m₁, taken⟩ := part_packed (fine.resolve_left Bool.false_ne_true) source m
    refine ⟨some s, m₁, ?_⟩
    rw [if_neg Bool.false_ne_true, map_eq_pure_bind, bind_assoc, bind_of_ok taken]
    rfl

theorem pack_of_snapshottable (function : callee.isFunction = true) (source) (m : Machine)
    (tuple : args = [] ∨ (Value.tuple args).snapshottable = true)
    (dict : kwargs.entries = [] ∨ (Value.dict kwargs.pairs).snapshottable = true) :
    ∃ pending m', pack source callee args kwargs m = (.ok pending, m') := by
  have func : callee.snapshottable = true := by
    cases callee with
    | native | function => rfl
    | _ => cases function
  obtain ⟨s, m₁, first⟩ := part_packed func source m
  obtain ⟨args', m₂, second⟩ := optional_packed (tuple.imp_left List.isEmpty_iff.2) (fun args' => do
    let kwargs' ← if kwargs.pairs.isEmpty then pure none else some <$> part source (.dict kwargs.pairs)
    return (⟨some s, args', kwargs'⟩ : PendingCall)) source m₁
  obtain ⟨kwargs', m₃, third⟩ := optional_packed
    (dict.imp_left fun none => (List.isEmpty_iff.2 (List.map_eq_nil_iff.2 none) : kwargs.pairs.isEmpty = true))
    (fun kwargs' => pure (⟨some s, args', kwargs'⟩ : PendingCall)) source m₂
  refine ⟨⟨some s, args', kwargs'⟩, m₃, ?_⟩
  unfold pack
  dsimp only
  rw [if_neg (by simp [function])]
  exact (bind_of_ok first).trans (second.trans third)

theorem Packs.read (packs : Packs source v s) (restored : v.Restored) (whole : v.NotBuffer)
    (known : ∀ n ∈ v.natives, knows n = true) : s.toValue knows = .ok v := by
  have stands := packs.standsFor restored
  obtain ⟨w, built⟩ := stands.rebuilds known
  rw [(stands.rebuilt built).1.eq_of_ne whole] at built
  exact built

theorem unpack_isOk (packed : pack source callee args kwargs m = (.ok pending, m')) (given : Given args kwargs)
    (callable : callee.Crosses knows) (positional : ∀ v ∈ args, v.Crosses knows)
    (named : ∀ e ∈ kwargs.entries, e.2.Crosses knows) : ∃ left call, pending.unpack knows = (left, .ok call) := by
  obtain ⟨function, func, args', kwargs', rfl, calls, tuple, dict⟩ := pack_ok packed
  have called : func.toValue knows = .ok callee := by
    refine calls.read (fun _ _ blocked => ?_) (fun _ _ same => ?_) callable.known
    · cases callee with
      | native | function => cases blocked
      | _ => cases function
    · cases same
      cases function
  have argued : args' = none ∨ ∃ s, args' = some s ∧ s.toValue knows = .ok (.tuple args) := by
    refine tuple.imp And.right fun ⟨s, there, packs⟩ => ⟨s, there, packs.read given.positional (fun _ _ same => by cases same) ?_⟩
    intro n inside
    obtain ⟨v, item, native⟩ := mem_nativesAll.1 inside
    exact (positional v item).known n native
  have keyed : kwargs' = none ∨ ∃ s, kwargs' = some s ∧ s.toValue knows = .ok (.dict kwargs.pairs) := by
    refine dict.imp And.right fun ⟨s, there, packs⟩ => ⟨s, there, packs.read given.named (fun _ _ same => by cases same) ?_⟩
    intro n inside
    obtain ⟨p, pair, key | value⟩ := mem_nativesPairs.1 inside
    · obtain ⟨e, -, rfl⟩ := List.mem_map.1 pair
      cases key
    · obtain ⟨e, entry, rfl⟩ := List.mem_map.1 pair
      exact (named e entry).known n value
  have keywords : PendingCall.keywords kwargs.pairs {} = .ok kwargs := PendingCall.keywords_pairs {} given.distinct
  unfold PendingCall.unpack
  simp only [called, function]
  obtain rfl | ⟨s, rfl, read⟩ := argued <;> obtain rfl | ⟨s', rfl, read'⟩ := keyed
  · exact ⟨_, _, rfl⟩
  · simp only [read', keywords]
    exact ⟨_, _, rfl⟩
  · simp only [read]
    exact ⟨_, _, rfl⟩
  · simp only [read, read', keywords]
    exact ⟨_, _, rfl⟩

/-! ## The roles -/

/-- What is left to do when code has been brought to the target. -/
def runEntered (h : Natives Machine) (c : Nat) (cargo : Cargo) : Work InterpError (Option Failure) := do
  let outcome : Except Halt Unit ← match cargo.unload with
    | .error halt => pure (.error halt)
    | .ok script => liftM (exec h c script).run
  return (← disengage c outcome).2

section Roles
variable {h : Natives Machine} {c : Nat} {id : Int} {restrict : Bool} {shared : Namespace}
  (free : m.roster.Free c) (ready : m.roster.status? id = some .ready)
  (allowed : restrict = true → m.roster.whence? id = some .stdlib)
include free ready allowed

theorem runString_bound (bound : ∀ e ∈ shared.entries, e.2.Crosses m.knows) (h) :
    ∃ bindings inside, shared.ArriveAs bindings ∧ inside.globals id = (m.globals id).insertAll bindings ∧
      ∀ text, runString h c id text shared restrict m = runEntered h c (.source text) inside := by
  obtain ⟨-, bindings, inside, engaged, arrive, -, store⟩ | ⟨closed, -⟩ := engage_store free.idle id shared
  · refine ⟨bindings, inside, arrive, ?_, fun text => ?_⟩
    · change inside.store.globals id = _
      rw [store, Store.globals_put]
    · obtain ⟨i, resolved, rfl⟩ := resolve_of_ready (c := c) ready allowed "run a string in"
      rw [runString, bind_of_ok resolved]
      exact bind_of_ok engaged
  · exact absurd ⟨ready, bound⟩ closed

theorem reaches_of_packed (packed : pack (m.context c).current callee args kwargs m = (.ok pending, m'))
    (given : Given args kwargs) (callable : callee.Crosses m.knows) (positional : ∀ v ∈ args, v.Crosses m.knows)
    (named : ∀ e ∈ kwargs.entries, e.2.Crosses m.knows) :
    ∃ inside, Reaches c id callee args kwargs restrict m pending inside := by
  have roster := roster_coarse.pack (m.context c).current callee args kwargs m
  have store := Machine.store_coarse.pack (m.context c).current callee args kwargs m
  rw [packed] at roster store
  have same : m'.roster = m.roster := roster
  obtain ⟨i, resolved, -⟩ := resolve_of_ready (c := c) ready allowed "make a call in"
  obtain ⟨-, bindings, inside, engaged, -, -, bound⟩ | ⟨closed, -⟩ := engage_store (same ▸ free.idle) id ({} : Namespace)
  · refine ⟨inside, free, by rw [resolved]; rfl, ⟨m', packed, engaged⟩, ?_⟩
    have knows : inside.knows = m.knows := by
      have functions : inside.functions = m.functions :=
        (congrArg Store.functions bound).trans (congrArg Store.functions store)
      funext n
      rw [Machine.knows, functions, Machine.knows]
    rw [knows]
    exact unpack_isOk packed given callable positional named
  · exact absurd ⟨same ▸ ready, fun _ inside => by cases inside⟩ closed

end Roles

/-- Shareable values whose native functions are registered, in their roles. Bound to names they are in the target before
anything runs there. A call with them as arguments reaches the target exactly if none of them is a buffer, and then they
arrive as they are, where JSON restores the keywords. The result of a call comes back. -/
theorem shareable_roles {h : Natives Machine} {c : Nat} {id : Int} {restrict : Bool} {shared : Namespace}
    (secluded : h.Secluded) (free : m.roster.Free c) (ready : m.roster.status? id = some .ready)
    (allowed : restrict = true → m.roster.whence? id = some .stdlib)
    (bound : ∀ e ∈ shared.entries, e.2.Crosses m.knows)
    (function : callee.isFunction = true) (callable : callee.Crosses m.knows)
    (positional : ∀ v ∈ args, v.Crosses m.knows) (named : ∀ e ∈ kwargs.entries, e.2.Crosses m.knows)
    (restored : (Value.dict kwargs.pairs).Restored) (distinct : kwargs.names.Nodup) :
    (∃ bindings inside, shared.ArriveAs bindings ∧ inside.globals id = (m.globals id).insertAll bindings ∧
      ∀ text, runString h c id text shared restrict m = runEntered h c (.source text) inside) ∧
    ((∃ pending inside, Reaches c id callee args kwargs restrict m pending inside) ↔
      (∀ v ∈ args, v.NotBuffer) ∧ ∀ e ∈ kwargs.entries, e.2.NotBuffer) ∧
    ∀ pending inside, Reaches c id callee args kwargs restrict m pending inside →
      (∃ left, pending.unpack inside.knows = (left, .ok (callee, args, kwargs))) ∧
      ∀ v preserveExc, (applyValue h callee args kwargs (m.globals id) (inside.install id {})).1 = .ok v →
        v.Crosses m.knows →
        ∃ w, (callIn h c id callee args kwargs preserveExc restrict m).1 = .ok (w, none) ∧ v.ComesBackAs w := by
  have given : Given args kwargs := ⟨Value.restored_tuple fun v item => (positional v item).shareable, restored, distinct⟩
  refine ⟨runString_bound free ready allowed bound h, ⟨?_, ?_⟩, ?_⟩
  · rintro ⟨pending, inside, reaches⟩
    obtain ⟨m₁, packed, -⟩ := reaches.entered
    obtain ⟨-, func, args', kwargs', -, -, tuple, dict⟩ := pack_ok packed
    constructor
    · obtain ⟨rfl, -⟩ | ⟨s, -, packs⟩ := tuple
      · exact fun _ item => by cases item
      · exact (Value.snapshottable_tuple_iff fun v item => (positional v item).shareable).1 packs.snapshottable
    · obtain ⟨none, -⟩ | ⟨s, -, packs⟩ := dict
      · exact fun _ inside => by rw [none] at inside; cases inside
      · exact (Value.snapshottable_dict_iff fun e inside => (named e inside).shareable).1 packs.snapshottable
  · rintro ⟨args_whole, kwargs_whole⟩
    obtain ⟨pending, m', packed⟩ := pack_of_snapshottable function (m.context c).current m
      (.inr ((Value.snapshottable_tuple_iff fun v item => (positional v item).shareable).2 args_whole))
      (.inr ((Value.snapshottable_dict_iff fun e inside => (named e inside).shareable).2 kwargs_whole))
    exact ⟨pending, reaches_of_packed free ready allowed packed given callable positional named⟩
  · intro pending inside reaches
    refine ⟨reaches.unpack given, fun v preserveExc evaluated crosses => ?_⟩
    obtain ⟨result, taken⟩ := Value.restored_of_isShareable crosses.shareable
    have still := reaches.engaged.1.applyValue secluded callee args kwargs (m.globals id)
    have answers := answers_value still result preserveExc
    rw [← evaluated, ← reaches.callIn given] at answers
    generalize (callIn h c id callee args kwargs preserveExc restrict m).1 = answer at answers
    rw [evaluated] at answers
    cases answers with
    | value _ _ back => exact ⟨_, rfl, back⟩
    | unknown _ unknown => exact absurd crosses.known unknown
    | unshareable blocked => cases taken.symm.trans blocked

end Work
/-- A pair of interpreters with a function that gives a buffer. -/
def givingMachine : Machine :=
  { pairedMachine with functions := Bindings.ofList [("give", .const (.buffer [7] none))] }

/-- A buffer goes there bound to a name and comes back as a result, and the arguments get there. -/
theorem shareable_roles_give :
    let shared : Namespace := Bindings.ofList [("b", .buffer [1, 2] none)]
    let keywords : Namespace := Bindings.ofList [("k", .str "x")]
    (∃ bindings inside, shared.ArriveAs bindings ∧ inside.globals 1 = (givingMachine.globals 1).insertAll bindings ∧
      ∀ text, Work.runString givingMachine.host 0 1 text shared true givingMachine =
        Work.runEntered givingMachine.host 0 (.source text) inside) ∧
    ∃ pending inside, Work.Reaches 0 1 (.native "give") [.tuple [.int 1]] keywords true givingMachine pending inside ∧
      ∃ w, (Work.callIn givingMachine.host 0 1 (.native "give") [.tuple [.int 1]] keywords false true givingMachine).1 =
        .ok (w, none) ∧ (Value.buffer [7] none).ComesBackAs w := by
  intro shared keywords
  have free : givingMachine.roster.Free 0 := ⟨by decide, rfl⟩
  have ready : givingMachine.roster.status? 1 = some .ready := by decide +kernel
  have allowed : true = true → givingMachine.roster.whence? 1 = some .stdlib := fun _ => by decide +kernel
  have give : (Value.native "give").Crosses givingMachine.knows := by
    refine ⟨rfl, fun n inside => ?_⟩
    obtain rfl := List.mem_singleton.1 inside
    rfl
  have plain : ∀ v : Value, v.isShareable = true → v.natives = [] → v.Crosses givingMachine.knows := by
    intro v shareable none
    exact ⟨shareable, fun n inside => by rw [none] at inside; cases inside⟩
  have restored : (Value.dict keywords.pairs).Restored := by
    intro blocker p _ made
    cases made
    rfl
  obtain ⟨bound, -, roles⟩ := Work.shareable_roles givingMachine.host_secluded free ready allowed
    (List.forall_mem_singleton.2 (plain _ rfl rfl) : ∀ e ∈ shared.entries, e.2.Crosses givingMachine.knows) rfl give
    (List.forall_mem_singleton.2 (plain (.tuple [.int 1]) rfl rfl))
    (List.forall_mem_singleton.2 (plain _ rfl rfl) : ∀ e ∈ keywords.entries, e.2.Crosses givingMachine.knows)
    restored (by decide)
  have reached : Work.Reaches 0 1 (.native "give") [.tuple [.int 1]] keywords true givingMachine _
      (Work.engage 0 1 {} givingMachine).2 := ⟨free, by decide +kernel, ⟨givingMachine, rfl, rfl⟩, ⟨_, _, rfl⟩⟩
  obtain ⟨-, result⟩ := roles _ _ reached
  exact ⟨bound, _, _, reached, result (.buffer [7] none) false rfl (plain _ rfl rfl)⟩

end MonitoredVm
