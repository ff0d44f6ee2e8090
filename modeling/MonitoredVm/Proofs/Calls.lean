import MonitoredVm.Proofs.Isolation
import MonitoredVm.Proofs.Seclusion

/-!
# Calls in another interpreter

A call is packed where the context stands, unpacked in the target and made there; its result, or the exception it
raises, is taken back in a snapshot. Callee and arguments arrive as they were sent, and the answer tells what the call
came to.

Main statement: `call_transparency`. Packing and unpacking are inverse (`unpack_pack`), what is preserved in a session
stays as it is while natives run (`Natives.Secluded`), and the end of the session hands it over (`exit_nothing`,
`exit_preserved`, `exit_unknown`). What JSON makes of numbers and deep nesting is a matter of the encoding alone, and
`Value.Restored` leaves it aside.
-/

namespace MonitoredVm

open List

/-! ## Snapshots taken in full -/

/-- JSON gives back what it was given of the value, if the value has to be kept as JSON at all. -/
def Value.Restored (v : Value) : Prop :=
  ∀ blocker p, v.portable false = .error blocker → v.portable true = .ok p → p.throughJson = .ok p

/-- What a value is after it was taken to another interpreter: itself, or the same bytes on another lease. -/
inductive Value.ComesBackAs : Value → Value → Prop
  | same (v : Value) : v.ComesBackAs v
  | buffer (bytes : List UInt8) (lease : Option Lease) (new : Lease) :
    Value.ComesBackAs (.buffer bytes lease) (.buffer bytes (some new))

/-- The snapshot stands for the value, and can be rebuilt exactly where the native functions in it are known. -/
structure Snapshot.StandsFor (s : Snapshot) (v : Value) : Prop where
  rebuilds : ∀ {knows : String → Bool}, (∀ n ∈ v.natives, knows n = true) → ∃ w, s.toValue knows = .ok w
  rebuilt : ∀ {knows : String → Bool} {w : Value}, s.toValue knows = .ok w →
    v.ComesBackAs w ∧ ∀ n ∈ v.natives, knows n = true

theorem Snapshot.standsFor_portable {s : Snapshot} {v : Value} {p : Portable} (made : v.portable full = .ok p)
    (reads : ∀ knows, s.toValue knows = (p.toValue knows).mapError CrossError.unknownNative) : s.StandsFor v := by
  constructor
  · intro knows known
    exact ⟨v, by rw [reads, (toValue_portable_iff v made).2 ⟨rfl, known⟩]; rfl⟩
  · intro knows w built
    rw [reads] at built
    cases value : p.toValue knows with
    | error name =>
      rw [value] at built
      cases built
    | ok u =>
      rw [value] at built
      obtain rfl := Except.ok.inj built
      obtain ⟨rfl, known⟩ := (toValue_portable_iff v made).1 value
      exact ⟨.same u, known⟩

theorem Machine.snapshot_full (m : Machine) (source) {v : Value} (restored : v.Restored) :
    (∃ m' s, m.snapshot source v true = (m', .ok s) ∧ s.StandsFor v) ∨
    (∃ blocker, m.snapshot source v true = (m, .error (.noPortableForm blocker))) := by
  unfold Machine.snapshot
  split
  · next bytes lease =>
    refine .inl ⟨_, _, rfl, fun _ => ⟨_, rfl⟩, fun built => ?_⟩
    cases built
    exact ⟨.buffer bytes lease _, fun _ inside => absurd inside not_mem_nil⟩
  · cases plain : v.portable false with
    | ok p => exact .inl ⟨m, _, rfl, Snapshot.standsFor_portable plain fun _ => rfl⟩
    | error blocker =>
      cases made : v.portable true with
      | error other => exact .inr ⟨blocker, rfl⟩
      | ok p =>
        refine .inl ⟨m, _, rfl, Snapshot.standsFor_portable made fun knows => ?_⟩
        unfold Snapshot.toValue
        dsimp only
        rw [restored blocker p plain made]

def Value.snapshottable (v : Value) : Bool := ((default : Machine).snapshot 0 v true).2.isOk

theorem Machine.isOk_snapshot (m : Machine) (source) (v : Value) :
    (m.snapshot source v true).2.isOk = v.snapshottable := by
  unfold Value.snapshottable Machine.snapshot
  cases v with
  | buffer bytes lease => rfl
  | _ =>
    dsimp only
    split
    · rfl
    · rw [if_pos rfl, if_pos rfl]
      split <;> rfl

/-! ## Packing and unpacking -/

namespace Bindings
variable {α : Type}

theorem put_new {name entries} (new : name ∉ entries.map (·.1)) (v : α) :
    put name v entries = entries ++ [(name, v)] := by
  induction entries with
  | nil => rfl
  | cons e rest ih =>
    obtain ⟨k, w⟩ := e
    rw [map_cons, mem_cons, not_or] at new
    rw [put, if_neg (Ne.symm new.1), ih new.2]
    rfl

end Bindings

/-- The keyword arguments as they are packed. -/
def Namespace.pairs (kwargs : Namespace) : List (Value × Value) := kwargs.entries.map fun e => (.str e.1, e.2)

namespace PendingCall

theorem keywords_pairs (ns : Namespace) (distinct : (ns.entries.map (·.1) ++ entries.map (·.1)).Nodup) :
    keywords (entries.map fun e => (.str e.1, e.2)) ns = .ok ⟨ns.entries ++ entries⟩ := by
  induction entries generalizing ns with
  | nil =>
    rw [append_nil]
    rfl
  | cons e rest ih =>
    obtain ⟨name, v⟩ := e
    have new : name ∉ ns.entries.map (·.1) := fun inside =>
      (nodup_append.1 distinct).2.2 name inside name mem_cons_self rfl
    have grown : (ns.insert name v).entries = ns.entries ++ [(name, v)] := Bindings.put_new new v
    change keywords (rest.map fun e => (.str e.1, e.2)) (ns.insert name v) = _
    rw [ih _ (by rw [grown, map_append, append_assoc]; exact distinct), grown, append_assoc]
    rfl

end PendingCall

theorem Value.ComesBackAs.eq_of_ne {v w : Value} (back : v.ComesBackAs w) (whole : ∀ bytes lease, v ≠ .buffer bytes lease) :
    w = v := by
  cases back with
  | same => rfl
  | buffer bytes lease _ => exact absurd rfl (whole bytes lease)

namespace Work
variable {source : Int} {callee : Value} {args : List Value} {kwargs : Namespace} {m m' : Machine} {pending : PendingCall}

/-- The snapshot is what is packed of the value. -/
def Packs (source : Int) (v : Value) (s : Snapshot) : Prop := ∃ m m', part source v m = (.ok s, m')

theorem Packs.standsFor (packs : Packs source v s) (restored : v.Restored) : s.StandsFor v := by
  obtain ⟨m, m', taken⟩ := packs
  obtain ⟨m₁, s', made, stands⟩ | ⟨blocker, failed⟩ := m.snapshot_full source restored
  · have same : part source v m = (.ok s', m₁) := convert_of_ok (by rw [snapshot, made]) _
    rw [same] at taken
    exact Except.ok.inj (congrArg Prod.fst taken) ▸ stands
  · have wrong : part source v m = (.error _, m) := convert_of_error (by rw [snapshot, failed]) _
    rw [wrong] at taken
    cases taken

theorem optional_ok {β : Type} {v : Value} {empty} {f : Option Snapshot → Work Exception β} {b}
    (taken : (if empty = true then pure none >>= f else (some <$> part source v) >>= f) m = (.ok b, m')) :
    ∃ s? m₁, (empty = true ∧ s? = none ∨ ∃ s, s? = some s ∧ Packs source v s) ∧ f s? m₁ = (.ok b, m') := by
  cases empty with
  | true => exact ⟨none, m, .inl ⟨rfl, rfl⟩, taken⟩
  | false =>
    rw [if_neg Bool.false_ne_true, map_eq_pure_bind, bind_assoc] at taken
    obtain ⟨s, m₁, first, rest⟩ := ok_of_bind taken
    exact ⟨some s, m₁, .inr ⟨s, rfl, m, m₁, first⟩, rest⟩

theorem pack_ok (packed : pack source callee args kwargs m = (.ok pending, m')) :
    callee.isFunction = true ∧ ∃ func args' kwargs', pending = ⟨some func, args', kwargs'⟩ ∧ Packs source callee func ∧
      (args = [] ∧ args' = none ∨ ∃ s, args' = some s ∧ Packs source (.tuple args) s) ∧
      (kwargs.entries = [] ∧ kwargs' = none ∨ ∃ s, kwargs' = some s ∧ Packs source (.dict kwargs.pairs) s) := by
  unfold pack at packed
  dsimp only at packed
  split at packed
  · cases packed
  · next function =>
    obtain ⟨func, m₁, first, packed⟩ := ok_of_bind packed
    obtain ⟨args', m₂, second, packed⟩ := optional_ok packed
    obtain ⟨kwargs', m₃, third, packed⟩ := optional_ok packed
    refine ⟨by simpa using function, func, args', kwargs', eq_of_pure packed, ⟨m, m₁, first⟩, ?_, ?_⟩
    · exact second.imp_left fun none => ⟨isEmpty_iff.1 none.1, none.2⟩
    · exact third.imp_left fun none => ⟨map_eq_nil_iff.1 (isEmpty_iff.1 none.1), none.2⟩

/-- What is unpacked is what was packed: the same function and arguments, and the same keywords in the same order. -/
theorem unpack_pack {knows : String → Bool} {left call} (given : (Value.tuple args).Restored)
    (named : (Value.dict kwargs.pairs).Restored) (distinct : kwargs.names.Nodup)
    (packed : pack source callee args kwargs m = (.ok pending, m')) (unpacked : pending.unpack knows = (left, .ok call))
    : call = (callee, args, kwargs) := by
  obtain ⟨function, func, args', kwargs', rfl, calls, tuple, dict⟩ := pack_ok packed
  have plain : callee.Restored := by
    intro blocker p blocked
    cases callee with
    | native | function => cases blocked
    | _ => cases function
  unfold PendingCall.unpack at unpacked
  dsimp only at unpacked
  cases value : func.toValue knows with
  | error e =>
    rw [value] at unpacked
    cases unpacked
  | ok callee' =>
    have whole : ∀ bytes lease, callee ≠ .buffer bytes lease := by
      rintro bytes lease rfl
      cases function
    obtain rfl : callee' = callee := ((calls.standsFor plain).rebuilt value).1.eq_of_ne whole
    rw [value] at unpacked
    dsimp only at unpacked
    rw [if_neg (by simp [function])] at unpacked
    split at unpacked
    · cases unpacked
    · next args₁ read =>
      have sameArgs : args₁ = args := by
        obtain ⟨rfl, rfl⟩ | ⟨s, rfl, packs⟩ := tuple
        · exact (Except.ok.inj read).symm
        · dsimp only at read
          split at read
          · cases read
          · next items value =>
            cases read
            cases ((packs.standsFor given).rebuilt value).1
            rfl
          · cases read
      obtain rfl := sameArgs
      obtain ⟨-, result⟩ := Prod.mk.inj unpacked
      obtain ⟨none, rfl⟩ | ⟨s, rfl, packs⟩ := dict
      · have blank : kwargs = {} := by
          obtain ⟨entries⟩ := kwargs
          exact congrArg Bindings.mk none
        rw [blank]
        exact (Except.ok.inj result).symm
      · dsimp only at result
        split at result
        · cases result
        · next items value =>
          cases ((packs.standsFor named).rebuilt value).1
          rw [Namespace.pairs, PendingCall.keywords_pairs {} distinct] at result
          exact (Except.ok.inj result).symm
        · cases result

/-! ## In the session -/

theorem session_setSession (inside : c < m.contexts.length) (s : Option Session) :
    (m.setSession c s).session c = s.getD {} := by
  rw [Machine.session, Machine.context, Machine.setSession, Machine.modifyContext, getElem?_modify_eq,
    getElem?_eq_getElem inside]
  rfl

/-- The context is in a session in `t` that has preserved these snapshots, where these native functions are registered. -/
structure Engaged (c : Nat) (t : Int) (preserved : List (String × Snapshot)) (functions : Bindings HostFunction)
    (m : Machine) : Prop where
  inside : c < m.contexts.length
  session : ∃ p, m.session c = ⟨.entered t p, ⟨preserved⟩⟩
  functions : m.functions = functions

section Engaged
variable {c : Nat} {t : Int} {preserved : List (String × Snapshot)} {functions : Bindings HostFunction} {e : Machine}

theorem Engaged.of_eq (engaged : Engaged c t preserved functions m) (contexts : m'.contexts = m.contexts)
    (same : m'.functions = m.functions) : Engaged c t preserved functions m' := by
  refine ⟨contexts ▸ engaged.inside, ?_, same.trans engaged.functions⟩
  rw [Machine.session, Machine.context, contexts]
  exact engaged.session

theorem Engaged.target (engaged : Engaged c t preserved functions m) : target c m = (.ok t, m) := by
  obtain ⟨p, session⟩ := engaged.session
  refine target_apply (p := p) ?_
  rw [m.stage_roster, session]

theorem engaged_engage (free : m.roster.Free c) (entered : engage c t {} m = (.ok (), e)) :
    Engaged c t [] m.functions e ∧ e.globals t = m.globals t := by
  have functions : e.functions = m.functions := by
    have unseen := unseen_engage c t {} m
    rw [entered] at unseen
    exact congrArg Prod.fst unseen
  have inside : c < m.contexts.length := by simpa [Machine.roster] using free.inside
  constructor
  · have started : ((m.setSession c (some {})).session c).stage = .idle := by
      rw [session_setSession inside]
      rfl
    have entry := entry_enter started t {}
    rcases outcome : enter c t {} (m.setSession c (some {})) with ⟨failed | _, m'⟩
    · rw [engage_of_error outcome] at entered
      cases entered
    · rw [engage_of_ok outcome] at entered
      obtain rfl : m' = e := congrArg Prod.snd entered
      rw [outcome] at entry
      cases entry with
      | @inside packed bindings m₁ m₂ packing marking rebuilding =>
        obtain ⟨nothing, rfl⟩ := Prod.mk.inj packing
        cases nothing
        cases rebuilding
        have stays : c < (m₂.switch c t).contexts.length := by
          have moved := m₂.roster_switch c t
          have marked := (Machine.roster_setRunning marking).2
          have places : (m₂.switch c t).roster.places.length = m.roster.places.length := by
            rw [moved, marked, roster_newSession free.idle]
            exact length_modify ..
          rw [Machine.roster, Machine.roster, length_map, length_map] at places
          omega
        refine ⟨(length_modify ..).symm ▸ stays, ⟨((m.setSession c (some {})).context c).current, ?_⟩, functions⟩
        rw [session_setSession inside]
        exact session_setSession (m := (m₂.switch c t).note .debug (.entered t _)) stays _
  · obtain ⟨-, bindings, e', engaged, arrive, -, store⟩ | ⟨-, failure, e', failed, -⟩ := engage_store free.idle t {}
    · obtain rfl : e = e' := congrArg Prod.snd (entered.symm.trans engaged)
      cases arrive
      change e.store.globals t = _
      rw [store, Store.globals_put]
      rfl
    · cases entered.symm.trans failed

theorem callPending_apply (engaged : Engaged c t preserved functions m)
    (unpacked : pending.unpack m.knows = (left, .ok (callee, args, kwargs))) : callPending h c pending m =
      ((left, (applyValue h callee args kwargs (m.globals t) (m.install t {})).1),
        (applyValue h callee args kwargs (m.globals t) (m.install t {})).2.install t (m.globals t)) := by
  have found := convert_of_ok engaged.target fun e => Halt.raised e.exception
  rw [callPending, state_bind, state_get]
  dsimp only
  rw [unpacked]
  change ((left, (call h c callee args kwargs m).1), (call h c callee args kwargs m).2) = _
  rcases applied : applyValue h callee args kwargs (m.globals t) (m.install t {}) with ⟨result, m'⟩
  have made : call h c callee args kwargs m = (result, m'.install t (m.globals t)) := by
    rw [call, bind_of_ok found]
    refine (bind_of_ok (a := result) (s := m'.install t (m.globals t)) ?_).trans ?_
    · change (Except.ok (applyValue h callee args kwargs (m.globals t) (m.install t {})).1,
        (applyValue h callee args kwargs (m.globals t) (m.install t {})).2.install t (m.globals t)) = _
      rw [applied]
    · cases result with
      | ok v => rfl
      | error halt => rfl
  rw [made]

theorem Engaged.applyValue (engaged : Engaged c t preserved functions m) (secluded : h.Secluded)
    (callee args kwargs globals) : Engaged c t preserved functions
      ((MonitoredVm.applyValue h callee args kwargs globals (m.install t {})).2.install t globals) := by
  obtain ⟨contexts, same⟩ := secluded.applyValue callee args kwargs globals (m.install t {})
  exact engaged.of_eq contexts same

theorem preserve_ok (engaged : Engaged c t [] functions m) (taken : m.snapshot t v true = (m', .ok s)) (name) :
    ∃ m'', preserve c name v m = (.ok (), m'') ∧ Engaged c t [(name, s)] functions m'' := by
  have snapped : snapshot t v true m = (.ok s, m') := by
    rw [snapshot, taken]
  have kept := Machine.contexts_bookless.snapshot t v true m
  rw [snapped] at kept
  obtain ⟨contexts, same⟩ := Prod.mk.inj kept
  have engaged' := engaged.of_eq contexts same
  obtain ⟨p, session⟩ := engaged'.session
  rw [preserve, bind_of_ok engaged.target, bind_of_ok (convert_of_ok snapped _), bind_of_ok (get_apply m'),
    bind_of_ok (change_apply _ m'), session]
  refine ⟨_, rfl, ?_⟩
  have stored : Engaged c t [(name, s)] functions (m'.setSession c (some ⟨.entered t p, ⟨[(name, s)]⟩⟩)) :=
    ⟨(length_modify ..).symm ▸ engaged'.inside, ⟨p, session_setSession engaged'.inside _⟩, engaged'.functions⟩
  exact stored

theorem preserve_error (engaged : Engaged c t preserved functions m)
    (failed : m.snapshot t v true = (m, .error (.noPortableForm blocker))) (name) :
    preserve c name v m = (.error (.noPortableForm blocker), m) := by
  have snapped : snapshot t v true m = (.error (.noPortableForm blocker), m) := by
    rw [snapshot, failed]
  rw [preserve, bind_of_ok engaged.target, bind_of_error (convert_of_error snapped _)]
  rfl

theorem exit_apply (engaged : Engaged c t preserved functions m) (failure : Option Exception) :
    ∃ m', m'.functions = functions ∧ exit c failure m =
      (do return (← handOver failure.isSome preserved {}, failure.map Failure.capture) : Work CrossError _) m' := by
  obtain ⟨p, session⟩ := engaged.session
  refine ⟨(leave c m).2, ?_, ?_⟩
  · exact (congrArg Prod.fst (besides_leave c m)).trans engaged.functions
  · rw [exit, bind_of_ok (liftM_apply _ m), (leave_apply c m).1, session]

theorem exit_nothing (engaged : Engaged c t [] functions m) (failure : Option Exception) :
    (exit c failure m).1 = .ok ({}, failure.map Failure.capture) := by
  obtain ⟨m', -, left⟩ := exit_apply engaged failure
  rw [left]
  rfl

theorem handOver_rebuilt (rebuilt : s.toValue m.knows = .ok w) (rest) (ns : Namespace) :
    handOver failed ((name, s) :: rest) ns m = handOver failed rest (ns.insert name w) m := by
  have here : ExceptT.run (rebuild s) m = (.ok w, m) := by rw [ExceptT.run, rebuild, rebuilt]
  rw [handOver, bind_of_ok (liftM_apply _ m), here]

theorem exit_preserved (engaged : Engaged c t [(name, s)] functions m)
    (rebuilt : s.toValue (fun n => (functions.get? n).isSome) = .ok w) (failure : Option Exception) :
    (exit c failure m).1 = .ok (⟨[(name, w)]⟩, failure.map Failure.capture) := by
  obtain ⟨m', same, left⟩ := exit_apply engaged failure
  have here : m'.knows = fun n => (functions.get? n).isSome := funext fun n => by rw [Machine.knows, same]
  rw [left, bind_of_ok (a := ⟨[(name, w)]⟩) (s := m')]
  · rfl
  · rw [handOver_rebuilt (here ▸ rebuilt)]
    rfl

theorem exit_unknown {name s e} (engaged : Engaged c t [(name, s)] functions m)
    (unknown : s.toValue (fun n => (functions.get? n).isSome) = .error e) :
    (exit c none m).1 = .error { code := .preserve, cause := some e.exception } := by
  obtain ⟨m', same, left⟩ := exit_apply engaged none
  have here : m'.knows = fun n => (functions.get? n).isSome := funext fun n => by rw [Machine.knows, same]
  have failed : ExceptT.run (rebuild s) m' = (.error e, m') := by rw [ExceptT.run, rebuild, here, unknown]
  have handed : ∃ m'', handOver false [(name, s)] {} m' = (.error { code := .preserve, cause := some e.exception }, m'') := by
    rw [handOver, bind_of_ok (liftM_apply _ m'), failed]
    exact ⟨_, rfl⟩
  obtain ⟨m'', handed⟩ := handed
  rw [left]
  change ((handOver false [(name, s)] {} >>= _) m').1 = _
  rw [bind_of_error handed]

/-! ## The answer -/

/-- The answer to a call that is known to have succeeded or failed. -/
def report (c : Nat) (outcome : Except Halt Unit) : Work InterpError (Value × Option Failure) := do
  let (preserved, failure) ← disengage c outcome
  let exception := match preserved.get? "exc" with
    | some (.exception e) => some e
    | _ => none
  return ((preserved.get? "result").getD .none, failure.map fun f => { f with exception })

/-- What is made of the result of a call in the session it was made in. -/
def conclude (c : Nat) (preserveExc : Bool) : Except Halt Value → Work InterpError (Value × Option Failure)
  | .ok v => do
    match ← liftM (preserve c "result" v).run with
    | .ok () => report c (.ok ())
    | .error e => report c (.error (.raised e.exception))
  | .error (.raised e) => do
    if preserveExc then
      match ← liftM (preserve c "exc" (.exception e)).run with
      | .ok () => report c (.error (.raised e))
      | .error failure =>
        change (·.note .debug (.notPreserved failure))
        report c (.error (.raised e))
    else report c (.error (.raised e))
  | .error .exhausted => report c (.error .exhausted)

theorem callIn_eq (h : Natives Machine) (id preserveExc restrict) :
    callIn h c id callee args kwargs preserveExc restrict = (do
      let i ← resolve c (some id) restrict true "make a call in"
      let pending ← convert .raised (pack ((← get).context c).current callee args kwargs)
      engage c i.id {}
      let (_, result) ← liftM (callPending h c pending)
      conclude c preserveExc result) := by
  unfold callIn conclude report
  rfl

theorem report_none (left : (exit c none m).1 = .ok (ns, none)) :
    (report c (.ok ()) m).1 = .ok ((ns.get? "result").getD .none, none) := by
  rcases outcome : exit c none m with ⟨r, m'⟩
  rw [outcome] at left
  obtain rfl : r = _ := left
  rw [report, disengage, bind_of_ok (convert_of_ok outcome _)]
  rfl

theorem report_some (left : (exit c (some x) m).1 = .ok (ns, some (Failure.capture x))) :
    (report c (.error (.raised x)) m).1 = .ok ((ns.get? "result").getD .none,
      some { Failure.capture x with exception := match ns.get? "exc" with
        | some (.exception e) => some e
        | _ => none }) := by
  rcases outcome : exit c (some x) m with ⟨r, m'⟩
  rw [outcome] at left
  obtain rfl : r = _ := left
  rw [report, disengage, bind_of_ok (convert_of_ok outcome _)]
  rfl

theorem conclude_value (engaged : Engaged c t [] functions m) (taken : m.snapshot t v true = (m', .ok s))
    (rebuilt : s.toValue (fun n => (functions.get? n).isSome) = .ok w) (preserveExc) :
    (conclude c preserveExc (.ok v) m).1 = .ok (w, none) := by
  obtain ⟨m'', preserved, engaged'⟩ := preserve_ok engaged taken "result"
  have stored : ExceptT.run (preserve c "result" v) m = (.ok (), m'') := preserved
  rw [conclude, bind_of_ok (liftM_apply _ m), stored]
  exact report_none (exit_preserved engaged' rebuilt none)

theorem conclude_unknown {v s e} (engaged : Engaged c t [] functions m) (taken : m.snapshot t v true = (m', .ok s))
    (unknown : s.toValue (fun n => (functions.get? n).isSome) = .error e) (preserveExc) :
    (conclude c preserveExc (.ok v) m).1 = .error (.cross { code := .preserve, cause := some e.exception }) := by
  obtain ⟨m'', preserved, engaged'⟩ := preserve_ok engaged taken "result"
  have stored : ExceptT.run (preserve c "result" v) m = (.ok (), m'') := preserved
  rcases outcome : exit c none m'' with ⟨r, m₃⟩
  have left := exit_unknown engaged' unknown
  rw [outcome] at left
  obtain rfl : r = _ := left
  rw [conclude, bind_of_ok (liftM_apply _ m), stored]
  dsimp only
  rw [report, disengage, bind_of_error (convert_of_error outcome _)]

theorem conclude_unshareable (engaged : Engaged c t [] functions m)
    (failed : m.snapshot t v true = (m, .error (.noPortableForm blocker))) (preserveExc) :
    (conclude c preserveExc (.ok v) m).1 =
      .ok (.none, some (Failure.capture (CrossError.noPortableForm blocker).exception)) := by
  have stored : ExceptT.run (preserve c "result" v) m = (.error (.noPortableForm blocker), m) :=
    preserve_error engaged failed "result"
  rw [conclude, bind_of_ok (liftM_apply _ m), stored]
  exact report_some (exit_nothing engaged _)

theorem conclude_raised (engaged : Engaged c t [] functions m) (restored : (Value.exception x).Restored) (preserveExc) :
    (conclude c preserveExc (.error (.raised x)) m).1 =
      .ok (.none, some { Failure.capture x with exception := if preserveExc then some x else none }) := by
  cases preserveExc with
  | false => exact report_some (exit_nothing engaged _)
  | true =>
    obtain ⟨m', s, taken, stands⟩ | ⟨blocker, failed⟩ := m.snapshot_full t restored
    · obtain ⟨m'', preserved, engaged'⟩ := preserve_ok engaged taken "exc"
      have stored : ExceptT.run (preserve c "exc" (.exception x)) m = (.ok (), m'') := preserved
      obtain ⟨w, rebuilt⟩ : ∃ w, s.toValue (fun n => (functions.get? n).isSome) = .ok w :=
        stands.rebuilds fun _ inside => absurd inside not_mem_nil
      obtain rfl : w = .exception x := (stands.rebuilt rebuilt).1.eq_of_ne fun _ _ same => by cases same
      rw [conclude, if_pos rfl, bind_of_ok (liftM_apply _ m), stored]
      exact report_some (exit_preserved engaged' rebuilt _)
    · cases failed

/-- What the answer to a call is, by what the call evaluates to, where `functions` are registered. -/
inductive Answers (functions : Bindings HostFunction) (preserveExc : Bool) :
    Except Halt Value → Except InterpError (Value × Option Failure) → Prop
  /-- A value that can be taken out of the target and put together again is the answer. -/
  | value {v w} (taken : v.snapshottable = true) (known : ∀ n ∈ v.natives, (functions.get? n).isSome = true)
    (back : v.ComesBackAs w) : Answers functions preserveExc (.ok v) (.ok (w, none))
  /-- One that cannot be put together again fails the call. -/
  | unknown {v} (taken : v.snapshottable = true) (unknown : ¬ ∀ n ∈ v.natives, (functions.get? n).isSome = true)
    (x : Exception) : Answers functions preserveExc (.ok v) (.error (.cross { code := .preserve, cause := some x }))
  /-- One that cannot be taken out is reported. -/
  | unshareable {v x} (blocked : v.snapshottable = false) (type : x.type = .notShareableError) :
    Answers functions preserveExc (.ok v) (.ok (.none, some (Failure.capture x)))
  /-- So is an exception, which is in the report exactly if that was asked for. -/
  | raised (x : Exception) : Answers functions preserveExc (.error (.raised x))
    (.ok (.none, some { Failure.capture x with exception := if preserveExc then some x else none }))
  | exhausted : Answers functions preserveExc (.error .exhausted) (.error .exhausted)

theorem Answers.value_iff (answers : Answers functions preserveExc evaluation answer) :
    (∃ w, answer = .ok (w, none)) ↔ ∃ v, evaluation = .ok v ∧ v.snapshottable = true ∧
      ∀ n ∈ v.natives, (functions.get? n).isSome = true := by
  constructor
  · rintro ⟨w, rfl⟩
    cases answers with
    | @value v _ taken known _ => exact ⟨v, rfl, taken, known⟩
  · rintro ⟨v, rfl, taken, known⟩
    cases answers with
    | value => exact ⟨_, rfl⟩
    | unknown _ unknown => exact absurd known unknown
    | unshareable blocked => cases taken.symm.trans blocked

theorem answers_value (engaged : Engaged c t [] functions m) (restored : v.Restored) (preserveExc) :
    Answers functions preserveExc (.ok v) (conclude c preserveExc (.ok v) m).1 := by
  have fine := m.isOk_snapshot t v
  obtain ⟨m', s, taken, stands⟩ | ⟨blocker, failed⟩ := m.snapshot_full t restored
  · rw [taken] at fine
    cases value : s.toValue (fun n => (functions.get? n).isSome) with
    | ok w =>
      obtain ⟨back, known⟩ := stands.rebuilt value
      rw [conclude_value engaged taken value]
      exact .value fine.symm known back
    | error e =>
      rw [conclude_unknown engaged taken value]
      refine .unknown fine.symm (fun known => ?_) _
      obtain ⟨w, rebuilt⟩ := stands.rebuilds known
      cases value.symm.trans rebuilt
  · rw [failed] at fine
    rw [conclude_unshareable engaged failed]
    exact .unshareable fine.symm rfl

theorem answers_conclude (engaged : Engaged c t [] functions m) (preserveExc)
    (result : ∀ v, evaluation = .ok v → v.Restored)
    (raised : ∀ x, evaluation = .error (.raised x) → (Value.exception x).Restored) :
    Answers functions preserveExc evaluation (conclude c preserveExc evaluation m).1 := by
  rcases evaluation with (x | _) | v
  · rw [conclude_raised engaged (raised x rfl)]
    exact .raised x
  · exact .exhausted
  · exact answers_value engaged (result v rfl) preserveExc

end Engaged

/-- A call from the context of `c` reaches `id`: it is packed, the context gets in, and there it can be unpacked. -/
structure Reaches (c : Nat) (id : Int) (callee : Value) (args : List Value) (kwargs : Namespace) (restrict : Bool)
    (m : Machine) (pending : PendingCall) (inside : Machine) : Prop where
  free : m.roster.Free c
  found : (resolve c (some id) restrict true "make a call in" m).1.isOk = true
  entered : ∃ m₁, pack (m.context c).current callee args kwargs m = (.ok pending, m₁) ∧
    engage c id {} m₁ = (.ok (), inside)
  unpacked : ∃ left call, pending.unpack inside.knows = (left, .ok call)

/-- JSON restores the arguments of a call, and no keyword is given twice. -/
structure Given (args : List Value) (kwargs : Namespace) : Prop where
  positional : (Value.tuple args).Restored
  named : (Value.dict kwargs.pairs).Restored
  distinct : kwargs.names.Nodup

section Reaches
variable {h : Natives Machine} {c : Nat} {id : Int} {restrict : Bool} {e : Machine}

theorem Reaches.engaged (reaches : Reaches c id callee args kwargs restrict m pending e) :
    Engaged c id [] m.functions e ∧ e.globals id = m.globals id := by
  obtain ⟨m₁, packed, entered⟩ := reaches.entered
  have roster := roster_coarse.pack (m.context c).current callee args kwargs m
  have store := Machine.store_coarse.pack (m.context c).current callee args kwargs m
  rw [packed] at roster store
  have same : m₁.roster = m.roster := roster
  have functions : m₁.functions = m.functions := congrArg Store.functions store
  have globals : m₁.globals = m.globals := congrArg Store.globals store
  rw [← functions, ← globals]
  exact engaged_engage (same ▸ reaches.free) entered

theorem Reaches.unpack (reaches : Reaches c id callee args kwargs restrict m pending e) (given : Given args kwargs) :
    ∃ left, pending.unpack e.knows = (left, .ok (callee, args, kwargs)) := by
  obtain ⟨m₁, packed, -⟩ := reaches.entered
  obtain ⟨left, call, unpacked⟩ := reaches.unpacked
  rw [unpack_pack given.positional given.named given.distinct packed unpacked] at unpacked
  exact ⟨left, unpacked⟩

theorem Reaches.callIn (reaches : Reaches c id callee args kwargs restrict m pending e) (given : Given args kwargs)
    (preserveExc) :
    callIn h c id callee args kwargs preserveExc restrict m =
      conclude c preserveExc (applyValue h callee args kwargs (m.globals id) (e.install id {})).1
        ((applyValue h callee args kwargs (m.globals id) (e.install id {})).2.install id (m.globals id)) := by
  obtain ⟨engaged, globals⟩ := reaches.engaged
  obtain ⟨left, unpacked⟩ := reaches.unpack given
  obtain ⟨m₁, packed, entered⟩ := reaches.entered
  have found := reaches.found
  obtain ⟨failure, failed, -⟩ | ⟨i, resolved, here, -⟩ := resolve_cases c id restrict true "make a call in" m
  · rw [failed] at found
    cases found
  · rw [callIn_eq, bind_of_ok resolved, bind_of_ok (get_apply m), bind_of_ok (convert_of_ok packed _),
      Machine.id_of_get? here, bind_of_ok entered, bind_of_ok (liftM_apply _ e), callPending_apply engaged unpacked, globals]

end Reaches

/-- A call in another interpreter is transparent: function, arguments and keywords arrive as they were sent, and the
answer goes with what evaluating the call with the globals of the target comes to. It is a value exactly if that is a
value which can be taken out of the target and whose native functions are registered. -/
theorem call_transparency {h : Natives Machine} {c : Nat} {id : Int} {restrict : Bool} {inside : Machine}
    (secluded : h.Secluded) (reaches : Reaches c id callee args kwargs restrict m pending inside)
    (given : Given args kwargs) (preserveExc : Bool) {evaluation : Except Halt Value}
    (evaluated : (applyValue h callee args kwargs (m.globals id) (inside.install id {})).1 = evaluation)
    (result : ∀ v, evaluation = .ok v → v.Restored)
    (raised : ∀ x, evaluation = .error (.raised x) → (Value.exception x).Restored) :
    ∃ answer after, callIn h c id callee args kwargs preserveExc restrict m = (answer, after) ∧
      (∃ left, pending.unpack inside.knows = (left, .ok (callee, args, kwargs))) ∧
      ((∃ w, answer = .ok (w, none)) ↔ ∃ v, evaluation = .ok v ∧ v.snapshottable = true ∧
        ∀ n ∈ v.natives, m.knows n = true) ∧
      Answers m.functions preserveExc evaluation answer := by
  have still := reaches.engaged.1.applyValue secluded callee args kwargs (m.globals id)
  have answers := answers_conclude still preserveExc result raised
  rw [← evaluated, ← reaches.callIn given] at answers
  rw [← evaluated]
  exact ⟨_, _, rfl, reaches.unpack given, answers.value_iff, answers⟩

end Work

/-- A pair of interpreters with a function that gives back its arguments and one that gives back a function nobody knows. -/
def answeringMachine : Machine :=
  { pairedMachine with functions := Bindings.ofList [("echo", .echo), ("lost", .const (.native "nowhere"))] }

/-- The other interpreter, entered from the main one to make a call. -/
def answeringInside : Machine := (Work.engage 0 1 {} answeringMachine).2

/-- A value that can be taken out is not the answer if it holds a function that is not registered. -/
theorem unregistered_function_fails_call :
    (applyValue answeringMachine.host (.native "lost") [] {} (answeringMachine.globals 1)
      (answeringInside.install 1 {})).1 = .ok (.native "nowhere") ∧
    (Value.native "nowhere").snapshottable = true ∧
    (Work.callIn answeringMachine.host 0 1 (.native "lost") [] {} false false answeringMachine).1.isOk = false :=
  ⟨rfl, rfl, by decide +kernel⟩

/-- The call of the function that gives back its arguments, packed. -/
def echoCall : PendingCall :=
  ⟨some ⟨0, .binary (.native "echo")⟩, some ⟨0, .binary (.tuple [.int 1])⟩,
    some ⟨0, .json (.dict [(.str "b", .int 2), (.str "a", .str "x")])⟩⟩

def echoKeywords : Namespace := Bindings.ofList [("b", .int 2), ("a", .str "x")]

def echoed : Value := .tuple [.tuple [.int 1], .dict [(.str "b", .int 2), (.str "a", .str "x")]]

/-- Keywords arrive in their order, and the answer, which has to be kept as JSON, is the value. -/
theorem call_transparency_echo :
    Work.Reaches 0 1 (.native "echo") [.int 1] echoKeywords true answeringMachine echoCall answeringInside ∧
      Work.Given [.int 1] echoKeywords ∧ echoed.Restored ∧
      ∃ after, Work.callIn answeringMachine.host 0 1 (.native "echo") [.int 1] echoKeywords true true answeringMachine =
        (.ok (echoed, none), after) := by
  have reaches : Work.Reaches 0 1 (.native "echo") [.int 1] echoKeywords true answeringMachine echoCall answeringInside :=
    ⟨⟨by decide, rfl⟩, by decide +kernel, ⟨answeringMachine, rfl, rfl⟩, ⟨_, _, rfl⟩⟩
  have given : Work.Given [.int 1] echoKeywords := by
    refine ⟨fun blocker p blocked => ?_, fun blocker p _ made => ?_, by decide⟩
    · cases blocked
    · cases made
      rfl
  have restored : echoed.Restored := by
    intro blocker p _ made
    cases made
    rfl
  have evaluated : (applyValue answeringMachine.host (.native "echo") [.int 1] echoKeywords (answeringMachine.globals 1)
      (answeringInside.install 1 {})).1 = .ok echoed := rfl
  obtain ⟨answer, after, called, -, value, answers⟩ := Work.call_transparency answeringMachine.host_secluded reaches given
    true evaluated (fun v same => Except.ok.inj same ▸ restored) (fun x same => by cases same)
  obtain ⟨w, rfl⟩ := value.2 ⟨echoed, rfl, rfl, fun _ inside => absurd inside List.not_mem_nil⟩
  cases answers with
  | value _ _ back =>
    obtain rfl := back.eq_of_ne fun _ _ same => by cases same
    exact ⟨reaches, given, restored, after, called⟩

end MonitoredVm
