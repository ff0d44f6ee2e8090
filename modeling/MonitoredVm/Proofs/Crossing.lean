import Mathlib.Data.List.Forall2
import MonitoredVm.Machine.Session
import MonitoredVm.Proofs.Evaluation
import MonitoredVm.Proofs.Transfer

/-!
# What crosses with a session

A session takes shared values along: they are packed where the context stands and rebuilt on the other side. A value
crosses if it is shareable and the native functions in it are known there, and it arrives as it is; a buffer arrives
with its bytes, on a lease.

Main statements: packing succeeds exactly on shareable values (`packAll_cases`), and what was packed is rebuilt exactly
where its native functions are known (`rebuildAll_cases`).
-/

namespace MonitoredVm

open List

open Grammar (bind_eq_ok)

/-- The value can be taken along to where `knows` tells the native functions. -/
structure Value.Crosses (knows : String → Bool) (v : Value) : Prop where
  shareable : v.isShareable = true
  known : ∀ n ∈ v.natives, knows n = true

/-- What a value that crosses is on the other side. -/
inductive Value.ArrivesAs : Value → Value → Prop
  | whole {v : Value} (portable : (v.portable false).isOk = true) : v.ArrivesAs v
  | buffer (bytes : List UInt8) (lease : Option Lease) (new : Lease) :
    Value.ArrivesAs (.buffer bytes lease) (.buffer bytes (some new))

/-- The named values, each as it arrives. -/
def Namespace.ArriveAs (shared : Namespace) (bindings : List (String × Value)) : Prop :=
  List.Forall₂ (fun e b => b.1 = e.1 ∧ e.2.ArrivesAs b.2) shared.entries bindings

/-- The snapshot stands for a value: it can be rebuilt exactly where its native functions are known. -/
structure Snapshot.Holds (s : Snapshot) (v : Value) : Prop where
  rebuilds : ∀ {knows : String → Bool}, (∀ n ∈ v.natives, knows n = true) →
    ∃ w, s.toValue knows = .ok w ∧ v.ArrivesAs w
  needs : ∀ {knows : String → Bool} {w : Value}, s.toValue knows = .ok w → ∀ n ∈ v.natives, knows n = true

/-! ## One value -/

theorem Snapshot.holds_buffer (source bytes lease new) :
    Snapshot.Holds ⟨source, .buffer bytes new⟩ (.buffer bytes lease) :=
  ⟨fun _ => ⟨_, rfl, .buffer bytes lease new⟩, fun _ _ inside => absurd inside not_mem_nil⟩

theorem Snapshot.holds_binary (source) (made : v.portable false = .ok p) : Snapshot.Holds ⟨source, .binary p⟩ v := by
  refine ⟨fun {knows} known => ⟨v, ?_, .whole (by rw [made]; rfl)⟩, fun {knows w} built => ?_⟩
  · change (p.toValue knows).mapError CrossError.unknownNative = .ok v
    rw [(toValue_portable_iff v made).2 ⟨rfl, known⟩]
    rfl
  · change (p.toValue knows).mapError CrossError.unknownNative = .ok w at built
    cases read : p.toValue knows with
    | error name =>
      rw [read] at built
      cases built
    | ok u => exact ((toValue_portable_iff v made).1 read).2

theorem isShareable_eq {v : Value} (notBuffer : ∀ bytes lease, v ≠ .buffer bytes lease) :
    v.isShareable = (v.portable false).isOk := by
  unfold Value.isShareable
  split
  · next bytes lease => exact absurd rfl (notBuffer bytes lease)
  · rfl

theorem Machine.snapshot_cases (m : Machine) (source) (v : Value) :
    (v.isShareable = true ∧ ∃ m' s, m.snapshot source v false = (m', .ok s) ∧ s.Holds v) ∨
    (v.isShareable = false ∧ ∃ m' e, m.snapshot source v false = (m', .error e)) := by
  unfold Machine.snapshot
  split
  · next bytes lease => exact .inl ⟨rfl, _, _, rfl, Snapshot.holds_buffer _ _ _ _⟩
  · next notBuffer =>
    rw [isShareable_eq notBuffer]
    cases made : v.portable false with
    | ok p => exact .inl ⟨rfl, _, _, rfl, Snapshot.holds_binary _ made⟩
    | error blocker => exact .inr ⟨rfl, _, _, rfl⟩

/-! ## All that is shared -/

namespace Work

theorem packAll_of_ok (taken : m.snapshot source v false = (m', .ok s)) (packed name rest) :
    packAll source packed ((name, v) :: rest) m = packAll source (packed ++ [(name, s)]) rest m' := by
  have lifted : (liftM (snapshot source v false).run : Work CrossError (Except CrossError Snapshot)) m =
      (.ok (.ok s), m') := by
    change (Except.ok (m.snapshot source v false).2, (m.snapshot source v false).1) = _
    rw [taken]
  rw [packAll, bind_of_ok lifted]

theorem packAll_of_error (failed : m.snapshot source v false = (m', .error e)) (packed name rest) :
    packAll source packed ((name, v) :: rest) m = (.error e, m'.letGo (Snapshot.leasesAll packed)) := by
  have lifted : (liftM (snapshot source v false).run : Work CrossError (Except CrossError Snapshot)) m =
      (.ok (.error e), m') := by
    change (Except.ok (m.snapshot source v false).2, (m.snapshot source v false).1) = _
    rw [failed]
  rw [packAll, bind_of_ok lifted]
  rfl

theorem packAll_cases (source items packed m) :
    ((∀ e ∈ items, e.2.isShareable = true) ∧ ∃ taken m', packAll source packed items m = (.ok (packed ++ taken), m') ∧
      List.Forall₂ (fun e s => s.1 = e.1 ∧ s.2.Holds e.2) items taken) ∨
    ((∃ e ∈ items, e.2.isShareable = false) ∧ ∃ e m', packAll source packed items m = (.error e, m')) := by
  induction items generalizing packed m with
  | nil => exact .inl ⟨fun _ inside => absurd inside not_mem_nil, [], m, by rw [append_nil]; rfl, .nil⟩
  | cons item rest ih =>
    obtain ⟨name, v⟩ := item
    obtain ⟨shareable, m₁, s, taken, holds⟩ | ⟨blocked, m₁, e, failed⟩ := m.snapshot_cases source v
    · rw [packAll_of_ok taken]
      obtain ⟨all, others, m', done, each⟩ | ⟨⟨e, inside, blocked⟩, failed⟩ := ih (packed ++ [(name, s)]) m₁
      · refine .inl ⟨forall_mem_cons.2 ⟨shareable, all⟩, (name, s) :: others, m', ?_, .cons ⟨rfl, holds⟩ each⟩
        rw [done, append_assoc]
        rfl
      · exact .inr ⟨⟨e, mem_cons_of_mem _ inside, blocked⟩, failed⟩
    · exact .inr ⟨⟨_, mem_cons_self, blocked⟩, e, _, packAll_of_error failed packed name rest⟩

theorem packAll_ok (packing : packAll source [] items m = (.ok packed, m')) : (∀ e ∈ items, e.2.isShareable = true) ∧
      List.Forall₂ (fun e s => s.1 = e.1 ∧ s.2.Holds e.2) items packed := by
  obtain ⟨shareable, taken, m₁, done, holds⟩ | ⟨-, e, m₁, failed⟩ := packAll_cases source items [] m
  · obtain rfl : packed = taken := Except.ok.inj (congrArg Prod.fst (packing.symm.trans done))
    exact ⟨shareable, holds⟩
  · rw [packing] at failed
    cases failed

theorem packAll_error (packing : packAll source [] items m = (.error e, m')) :
    ∃ item ∈ items, item.2.isShareable = false := by
  obtain ⟨-, taken, m₁, done, -⟩ | ⟨blocked, -⟩ := packAll_cases source items [] m
  · rw [packing] at done
    cases done
  · exact blocked

theorem rebuildAll_cases (knows : String → Bool) {items : List (String × Value)} {taken : List (String × Snapshot)}
    (holds : List.Forall₂ (fun e s => s.1 = e.1 ∧ s.2.Holds e.2) items taken) (built) :
    ((∀ e ∈ items, ∀ n ∈ e.2.natives, knows n = true) ∧ ∃ bindings,
      rebuildAll knows built taken = .ok (built ++ bindings) ∧
        List.Forall₂ (fun e b => b.1 = e.1 ∧ e.2.ArrivesAs b.2) items bindings) ∨
    ((∃ e ∈ items, ¬ ∀ n ∈ e.2.natives, knows n = true) ∧ ∃ failure,
      rebuildAll knows built taken = .error failure) := by
  induction holds generalizing built with
  | nil => exact .inl ⟨fun _ inside => absurd inside not_mem_nil, [], by rw [append_nil]; rfl, .nil⟩
  | @cons item snapshot items rest here _ ih =>
    obtain ⟨name, s⟩ := snapshot
    obtain ⟨named, holds⟩ := here
    rw [rebuildAll]
    by_cases known : ∀ n ∈ item.2.natives, knows n = true
    · obtain ⟨w, back, arrives⟩ := holds.rebuilds known
      rw [back]
      dsimp only
      obtain ⟨all, others, done, each⟩ | ⟨⟨e, inside, unknown⟩, failed⟩ := ih (built ++ [(name, w)])
      · refine .inl ⟨forall_mem_cons.2 ⟨known, all⟩, (name, w) :: others, ?_, .cons ⟨named, arrives⟩ each⟩
        rw [done, append_assoc]
        rfl
      · exact .inr ⟨⟨e, mem_cons_of_mem _ inside, unknown⟩, failed⟩
    · cases back : s.toValue knows with
      | ok w => exact absurd (holds.needs back) known
      | error e => exact .inr ⟨⟨item, mem_cons_self, known⟩, _, rfl⟩

section Rebuilding
variable {knows : String → Bool} {items : List (String × Value)} {taken : List (String × Snapshot)}
  (holds : List.Forall₂ (fun e s => s.1 = e.1 ∧ s.2.Holds e.2) items taken)
include holds

theorem rebuildAll_ok {bindings : List (String × Value)} (rebuilding : rebuildAll knows [] taken = .ok bindings) :
    (∀ e ∈ items, ∀ n ∈ e.2.natives, knows n = true) ∧
      List.Forall₂ (fun e b => b.1 = e.1 ∧ e.2.ArrivesAs b.2) items bindings := by
  obtain ⟨known, built, done, arrive⟩ | ⟨-, failure, failed⟩ := rebuildAll_cases knows holds []
  · obtain rfl : bindings = built := Except.ok.inj (rebuilding.symm.trans done)
    exact ⟨known, arrive⟩
  · rw [rebuilding] at failed
    cases failed

theorem rebuildAll_error {failure : CrossError × List Lease} (rebuilding : rebuildAll knows [] taken = .error failure) :
    ∃ e ∈ items, ¬ ∀ n ∈ e.2.natives, knows n = true := by
  obtain ⟨-, built, done, -⟩ | ⟨unknown, -⟩ := rebuildAll_cases knows holds []
  · rw [rebuilding] at done
    cases done
  · exact unknown

end Rebuilding
end Work
end MonitoredVm
