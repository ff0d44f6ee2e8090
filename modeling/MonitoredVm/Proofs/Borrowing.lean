import MonitoredVm.Proofs.Correspondence
import MonitoredVm.Proofs.Grammar
import MonitoredVm.Proofs.Leases

/-!
# Borrowing

Work on a machine may take leases and let go of some, but gives none back before the machine settles. So whatever stood on
leases that had not ended does so still afterwards: `Machine.Follows`.

Main statements: each step of the machine's own leads to a machine that follows (`follows_letGo`, `follows_bind`,
`follows_endInterpreter`, `follows_acquire`, ...), and so does running a script, if the native functions it calls do
(`Natives.Orderly.exec`). A script makes no buffers: what it binds stands on the leases it started with. That is a likeness
of runs, a value being like itself if it stands on these leases (`Likeness.standing`).
-/

namespace MonitoredVm

open List

namespace Machine

/-- The second machine has come out of the first by work that keeps the books in order and gives back no lease. -/
structure Follows (m m' : Machine) : Prop where
  balanced : m'.Balanced []
  leases : m.leases ⊆ m'.leases
  has : ∀ {id}, m.Has id → m'.Has id
  functions : m'.functions = m.functions

section Steps
variable {m m' m'' : Machine} {id : Int} {c : Nat}

theorem Follows.refl (h : m.Balanced []) : m.Follows m := ⟨h, List.Subset.refl _, id, rfl⟩

theorem Follows.trans (first : m.Follows m') (second : m'.Follows m'') : m.Follows m'' :=
  ⟨second.balanced, List.Subset.trans first.leases second.leases, fun there => second.has (first.has there),
    second.functions.trans first.functions⟩

theorem Follows.still (follows : m.Follows m') {leases} (known : leases ⊆ m.leases) : leases ⊆ m'.leases :=
  List.Subset.trans known follows.leases

theorem Follows.of_eq (h : m'.Balanced []) (leases : m'.leases = m.leases) (interpreters : m'.interpreters = m.interpreters)
    (functions : m'.functions = m.functions) : m.Follows m' := by
  refine ⟨h, leases ▸ List.Subset.refl _, fun {id} there => ?_, functions⟩
  rw [Has, find?, interpreters]
  exact there

theorem follows_remark (h : m.Balanced []) (level) (plain : n.blames = none) :
    m.Follows (m.note level n) := .of_eq (h.remark level plain) rfl rfl rfl

theorem letGo_eq (m : Machine) (leases) : ∃ log, m.letGo leases = { m with log } := by
  rw [letGo]
  induction leases generalizing m with
  | nil => exact ⟨m.log, rfl⟩
  | cons l rest ih =>
    rw [foldl_cons]
    split
    · obtain ⟨log, same⟩ := ih (m.note .warn (.ownerGone l))
      exact ⟨log, same.trans rfl⟩
    · exact ih m

theorem follows_letGo (h : m.Balanced []) {leases} (known : leases ⊆ m.leases) : m.Follows (m.letGo leases) := by
  have balanced := h.letGo known
  obtain ⟨log, same⟩ := m.letGo_eq leases
  rw [same] at balanced ⊢
  exact .of_eq balanced rfl rfl rfl

theorem follows_modifyInterpreter (h : m.Balanced []) (id) (same : ∀ i, (f i).id = i.id)
    (exports : ∀ i, (f i).exports = i.exports)
    (lives : ∀ i, m.find? id = some i → (f i).isReady = true → i.isReady = true)
    (globals : ∀ i ∈ m.interpreters, i.id = id → (f i).globals.Each (·.leases ⊆ m.leases)) :
    m.Follows (m.modifyInterpreter id f) :=
  ⟨h.modifyInterpreter id same exports lives globals, List.Subset.refl _, (has_modifyInterpreter same).2, rfl⟩

theorem follows_modifyContext (h : m.Balanced []) (c) (knows : ∀ x, m.Knows x → m.Knows (f x))
    (preserved : ∀ x ∈ m.contexts, ((f x).session.getD {}).preserved.Each (·.leases ⊆ m.leases)) :
    m.Follows (m.modifyContext c f) := .of_eq (h.modifyContext c knows preserved) rfl rfl rfl

theorem follows_setGlobals (h : m.Balanced []) (id) {f : Namespace → Namespace}
    (stands : ∀ ns : Namespace, ns.Each (·.leases ⊆ m.leases) → (f ns).Each (·.leases ⊆ m.leases)) :
    m.Follows (m.modifyInterpreter id fun i => { i with globals := f i.globals }) :=
  follows_modifyInterpreter h id (fun _ => rfl) (fun _ => rfl) (fun _ _ ready => ready) fun i inside _ =>
    stands i.globals (h.standsOn.globals i inside)

theorem Balanced.globals (h : m.Balanced ended) (id) : (m.globals id).Each (·.leases ⊆ m.leases) := by
  rw [Machine.globals]
  cases found : m.find? id with
  | none => exact .empty
  | some i => exact h.standsOn.globals i (mem_of_find?_eq_some found)

section
variable (h : m.Balanced [])
include h

theorem follows_switch (c) (there : m.Has id) : m.Follows (m.switch c id) := by
  have noted := follows_remark h .trace (n := .switching (m.context c).current id) rfl
  refine noted.trans (follows_modifyContext noted.balanced c (fun x knows => ?_) noted.balanced.standsOn.preserved)
  exact ⟨noted.has there, knows.entered⟩

theorem follows_setRunning (marked : m.setRunning id = .ok m') : m.Follows m' ∧ m'.Has id := by
  unfold setRunning at marked
  split at marked
  · next ready =>
    cases marked
    have follows : m.Follows (m.modifyInterpreter id fun i => { i with status := .running }) := by
      refine follows_modifyInterpreter h id (fun _ => rfl) (fun _ => rfl) (fun i found _ => ?_)
        fun i inside _ => h.standsOn.globals i inside
      rw [found] at ready
      rw [Interpreter.isReady, Option.some.inj ready]
      rfl
    refine ⟨follows, follows.has ?_⟩
    rw [Has, ← Option.isSome_map, ready]
    rfl
  · cases marked
  · cases marked

theorem follows_setIdle (id) : m.Follows (m.setIdle id) := by
  refine follows_modifyInterpreter h id (fun i => ?_) (fun i => ?_) (fun i _ ready => ?_) fun i inside _ => ?_
  · split <;> rfl
  · split <;> rfl
  · split at ready
    · next running => simp_all [Interpreter.isReady, Interpreter.isRunning]
    · exact ready
  · split <;> exact h.standsOn.globals i inside

theorem follows_setSession (c) (entered : ∀ {t p}, (s.getD {}).stage = .entered t p → m.Has t ∧ m.Has p)
    (preserved : (s.getD {}).preserved.Each (·.leases ⊆ m.leases)) : m.Follows (m.setSession c s) :=
  follows_modifyContext h c (fun _ knows => ⟨knows.current, entered⟩) fun _ _ => preserved

theorem follows_newContext : m.Follows { m with contexts := m.contexts ++ [({} : Context)] } := by
  refine .of_eq ?_ rfl rfl rfl
  refine h.hold rfl rfl rfl rfl (fun x inside => ?_) { h.standsOn with preserved := fun x inside => ?_ }
  · obtain old | rfl : x ∈ m.contexts ∨ x = {} := by simpa using inside
    · exact h.contexts x old
    · exact ⟨h.home, fun stage => by cases stage⟩
  · obtain old | rfl : x ∈ m.contexts ∨ x = {} := by simpa using inside
    · exact h.standsOn.preserved x old
    · exact .empty

theorem follows_bind (id name) {v : Value} (known : v.leases ⊆ m.leases) :
    m.Follows (m.bind id name v) := by
  have bound := follows_setGlobals h id fun _ each => each.insert known name
  refine bound.trans (follows_letGo bound.balanced ?_)
  cases old : (m.globals id).get? name with
  | none => exact nil_subset _
  | some w => exact (h.globals id).get? old

theorem follows_bindAll (id) (known : ∀ b ∈ bindings, b.2.leases ⊆ m.leases) : m.Follows (m.bindAll id bindings) := by
  rw [bindAll]
  induction bindings generalizing m with
  | nil => exact .refl h
  | cons b rest ih =>
    obtain ⟨here, others⟩ := forall_mem_cons.1 known
    have bound := follows_bind h id b.1 here
    exact bound.trans (ih bound.balanced fun x inside => bound.still (others x inside))

theorem follows_endInterpreter (id) : m.Follows (m.endInterpreter id) := by
  have ended := follows_modifyInterpreter h id (f := fun i => { i with status := .destroyed, globals := {} }) (fun _ => rfl)
    (fun _ => rfl) (fun _ _ ready => by cases ready) fun _ _ _ => .empty
  have known : Value.leasesAll (m.globals id).values ⊆ m.leases := Namespace.leases_subset_iff.2 (h.globals id)
  have gone := ended.trans (follows_letGo ended.balanced (ended.still known))
  exact gone.trans (follows_remark gone.balanced .debug rfl)

theorem follows_acquire (there : m.Has owner) :
    m.Follows (m.acquire owner).1 ∧ (m.acquire owner).2 ∈ (m.acquire owner).1.leases := by
  have balanced := h.acquire there
  unfold acquire at balanced ⊢
  dsimp only at balanced ⊢
  split at balanced
  · next found =>
    rw [if_pos found]
    refine ⟨⟨balanced, subset_append_left _ _, (has_modifyInterpreter ?_).2, rfl⟩, mem_append_right _ mem_cons_self⟩
    exact fun _ => rfl
  · next absent =>
    rw [if_neg absent]
    exact ⟨⟨balanced, subset_append_left _ _, id, rfl⟩, mem_append_right _ mem_cons_self⟩

end

end Steps
end Machine

/-! ## Scripts -/

theorem forall₂_iff_eq {α : Type} {R : α → α → Prop} {P : α → Prop} (same : ∀ a b, R a b ↔ a = b ∧ P a) {xs ys} :
    List.Forall₂ R xs ys ↔ xs = ys ∧ ∀ x ∈ xs, P x := by
  induction xs generalizing ys with
  | nil => cases ys <;> simp
  | cons x xs ih =>
    cases ys with
    | nil => simp
    | cons y ys =>
      rw [forall₂_cons, same, ih, List.cons.injEq, forall_mem_cons]
      exact and_and_and_comm

/-- The natives keep the books in order: what they give back stands on leases of their arguments and of the functions. -/
structure Natives.Orderly (h : Natives Machine) : Prop where
  letGo : ∀ v m, h.letGo v m = m.letGo v.leases
  call : ∀ {S : List Lease} {m : Machine} (name : String) {args : List Value} {kwargs : Namespace}, m.Balanced [] →
    m.functions.Each (·.leases ⊆ S) → Value.leasesAll args ⊆ S → kwargs.Each (·.leases ⊆ S) →
    m.Follows (h.call name args kwargs m).2 ∧ ∀ v, (h.call name args kwargs m).1 = .ok v → v.leases ⊆ S

/-- A run beside itself, in a machine that follows `m`: all values stand on the leases of `m`. -/
def Likeness.standing (m : Machine) : Likeness Machine Machine where
  value v w := v = w ∧ v.leases ⊆ m.leases
  function f g := f = g
  exception e e' := e = e'
  line l l' := l = l'
  host a b := a = b ∧ m.Follows a

namespace Likeness
variable {m : Machine}

theorem standing_all : List.Forall₂ (standing m).value xs ys ↔ xs = ys ∧ Value.leasesAll xs ⊆ m.leases := by
  rw [Value.leasesAll_subset_iff]
  exact forall₂_iff_eq fun _ _ => Iff.rfl

theorem standing_pairs : List.Forall₂ (standing m).Pair ps qs ↔ ps = qs ∧ Value.leasesPairs ps ⊆ m.leases := by
  rw [Value.leasesPairs_subset_iff]
  refine forall₂_iff_eq fun p q => ?_
  rw [Prod.ext_iff]
  exact and_and_and_comm

theorem standing_bound {ns ns' : Namespace} : (standing m).Bound ns ns' ↔ ns = ns' ∧ ns.Each (·.leases ⊆ m.leases) := by
  have same : ns = ns' ↔ ns.entries = ns'.entries := by
    obtain ⟨es⟩ := ns
    obtain ⟨es'⟩ := ns'
    exact Bindings.mk.injEq _ _ ▸ Iff.rfl
  rw [same]
  refine forall₂_iff_eq fun e e' => ?_
  rw [Prod.ext_iff, and_assoc]
  rfl

theorem standing_result {α : Type} {P : α → α → Prop} {x} (fine : ∀ a, x = .ok a → P a a) :
    (standing m).Result P x x := by
  match x with
  | .ok a => exact .ok (fine a rfl)
  | .error (.raised e) => exact .raised rfl
  | .error .exhausted => exact .exhausted

theorem standing_statement (t) : (standing m).Statement t t := by
  cases t with
  | act line action => exact .act action rfl
  | define line f => exact .define rfl rfl

theorem standing_lawful {h : Natives Machine} (orderly : h.Orderly) (start : m.Balanced []) :
    (standing m).Lawful h h where
  knows name same := by rw [same.1]
  letGo {a b v w} host value := by
    obtain ⟨rfl, follows⟩ := host
    obtain ⟨rfl, stands⟩ := value
    rw [orderly.letGo]
    exact ⟨rfl, follows.trans (Machine.follows_letGo follows.balanced (follows.still stands))⟩
  call {a b args args' kwargs kwargs'} name host given named := by
    obtain ⟨rfl, follows⟩ := host
    obtain ⟨rfl, stands⟩ := standing_all.1 given
    obtain ⟨rfl, bound⟩ := standing_bound.1 named
    have functions : a.functions.Each (·.leases ⊆ m.leases) := follows.functions ▸ start.standsOn.functions
    obtain ⟨called, gives⟩ := orderly.call name follows.balanced functions stands bound
    exact ⟨standing_result fun v value => ⟨rfl, gives v value⟩, rfl, follows.trans called⟩
  simple v simple := by
    refine ⟨rfl, ?_⟩
    cases v <;> first | exact nil_subset _ | cases simple
  tuple all := ⟨congrArg _ (standing_all.1 all).1, (standing_all.1 all).2⟩
  list all := ⟨congrArg _ (standing_all.1 all).1, (standing_all.1 all).2⟩
  dict all := ⟨congrArg _ (standing_pairs.1 all).1, (standing_pairs.1 all).2⟩
  defined same := ⟨congrArg _ same, nil_subset _⟩
  callee {v w} same := by
    obtain ⟨rfl, -⟩ := same
    cases v with
    | native name => exact .native name
    | function f => exact .function rfl
    | _ => exact .other rfl rfl rfl
  same first second := by rw [first.1, second.1]
  message type {v w} same := by
    obtain ⟨rfl, -⟩ := same
    rfl
  fresh e := rfl
  frame file scope same line := by
    obtain rfl := same
    obtain rfl := line
    rfl
  parts {f g} same := by
    obtain rfl := same
    exact ⟨rfl, rfl, rfl, forall₂_same.2 fun t _ => standing_statement t⟩

end Likeness

namespace Natives.Orderly
variable {h : Natives Machine} {m : Machine}

/-- A script keeps the books in order and binds only what stands on leases that were there before. -/
theorem exec (orderly : h.Orderly) (start : m.Balanced []) (script : Script) (stands : ns.Each (·.leases ⊆ m.leases)) :
    m.Follows (script.exec h ns m).2.2 ∧ (script.exec h ns m).2.1.Each (·.leases ⊆ m.leases) := by
  obtain ⟨-, bound, host⟩ := Likeness.like_execWith (Likeness.standing_lawful orderly start) callBudget script script rfl
    (forall₂_same.2 fun t _ => Likeness.standing_statement t) (Likeness.standing_bound.2 ⟨rfl, stands⟩)
    ⟨rfl, .refl start⟩
  exact ⟨host.2, (Likeness.standing_bound.1 bound).2⟩

theorem applyValue (orderly : h.Orderly) (start : m.Balanced []) (calls : callee.leases ⊆ m.leases)
    (given : Value.leasesAll args ⊆ m.leases) (named : kwargs.Each (·.leases ⊆ m.leases))
    (outer : globals.Each (·.leases ⊆ m.leases)) : m.Follows (applyValue h callee args kwargs globals m).2 ∧
      ∀ v, (applyValue h callee args kwargs globals m).1 = .ok v → v.leases ⊆ m.leases := by
  obtain ⟨result, host⟩ := Likeness.like_applyValue (Likeness.standing_lawful orderly start) ⟨rfl, calls⟩
    (Likeness.standing_all.2 ⟨rfl, given⟩) (Likeness.standing_bound.2 ⟨rfl, named⟩)
    (Likeness.standing_bound.2 ⟨rfl, outer⟩) ⟨rfl, .refl start⟩
  refine ⟨host.2, fun v value => ?_⟩
  rw [value] at result
  cases result with
  | ok same => exact same.2

end Natives.Orderly
end MonitoredVm
