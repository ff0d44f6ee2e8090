import Mathlib.Data.Set.Card
import MonitoredVm.Proofs.Commands

/-!
# Buffers that interpreters have lent

An interpreter counts the buffers it has lent. The count is right at all times: it is the number of leases on its
storage that have not ended, and once a machine has settled that is the number of leases on its storage that something
stands on.

Main statement: `exports_accounted`. The counts come from the books (`Balanced.exports_settle`), a lease that is given back
was counted (`Balanced.givesBack`), and a snapshot of a buffer is a lease on whoever owned the storage first
(`Balanced.snapshot_buffer`).
-/

namespace MonitoredVm

namespace Machine

/-- Something refers to a lease: a binding of an interpreter, a snapshot preserved by a session, a value the host holds, a
packed call, or a native function that keeps a value. -/
inductive Refers (m : Machine) (l : Lease) : Prop
  | binding {i v} : i ∈ m.interpreters → v ∈ i.globals.values → l ∈ v.leases → Refers m l
  | preserved {c session s} : c ∈ m.contexts → c.session = some session →
    s ∈ session.preserved.values → l ∈ s.leases → Refers m l
  | held {v} : v ∈ m.held.values → l ∈ v.leases → Refers m l
  | packed {call} : call ∈ m.calls.values → l ∈ call.leases → Refers m l
  | native {v} : .const v ∈ m.functions.values → l ∈ v.leases → Refers m l

/-- While settling, each time a lease is given back its owner, if it is registered, has counted it. -/
def GivesBack (m : Machine) (kept : List Lease) : Prop :=
  ∀ before l after, m.loose kept = before ++ l :: after →
    ∀ i, (before.foldl release (m.apart kept)).get? l.owner = some i → 0 < i.exports

section Counting
variable {m : Machine} {kept : List Lease} {l : Lease}

theorem mem_leasesAll : l ∈ Value.leasesAll vs ↔ ∃ v ∈ vs, l ∈ v.leases := by
  induction vs with
  | nil => simp [Value.leasesAll]
  | cons v vs ih => simp [Value.leasesAll, ih]

theorem mem_liveLeases : l ∈ m.liveLeases ↔ m.Refers l := by
  unfold liveLeases
  simp only [List.mem_append, List.mem_flatMap, mem_leasesAll, List.mem_filterMap]
  constructor
  · rintro ((((⟨i, inside, v, bound, here⟩ | ⟨c, inside, s, kept, here⟩) | ⟨v, inside, here⟩) | ⟨call, inside, here⟩) |
      ⟨v, ⟨f, inside, keeps⟩, here⟩)
    · exact .binding inside bound here
    · cases engaged : c.session with
      | none =>
        rw [engaged] at kept
        exact absurd kept List.not_mem_nil
      | some session =>
        rw [engaged] at kept
        exact .preserved inside engaged kept here
    · exact .held inside here
    · exact .packed inside here
    · split at keeps
      · cases keeps
        exact .native inside here
      · cases keeps
  · rintro (⟨inside, bound, here⟩ | ⟨inside, engaged, kept, here⟩ | ⟨inside, here⟩ | ⟨inside, here⟩ | ⟨inside, here⟩)
    · exact .inl (.inl (.inl (.inl ⟨_, inside, _, bound, here⟩)))
    · refine .inl (.inl (.inl (.inr ⟨_, inside, _, ?_, here⟩)))
      rw [engaged]
      exact kept
    · exact .inl (.inl (.inr ⟨_, inside, here⟩))
    · exact .inl (.inr ⟨_, inside, here⟩)
    · exact .inr ⟨_, ⟨_, inside, rfl⟩, here⟩

theorem Balanced.refers (h : m.Balanced []) (refers : m.Refers l) : l ∈ m.leases := h.live (mem_liveLeases.2 refers)

theorem lent_eq_ncard {leases} (distinct : leases.Nodup) (id) :
    lent leases id = {l | l.owner = id ∧ l ∈ leases}.ncard := by
  have same : {l | l.owner = id ∧ l ∈ leases} = ↑(leases.filter (·.owner == id)).toFinset := by
    ext l
    simp [and_comm]
  rw [same, Set.ncard_coe_finset, List.toFinset_card_of_nodup (distinct.filter _), lent, List.countP_eq_length_filter]

theorem refers_settle : (m.settle kept).Refers l ↔ m.Refers l := by
  have same : ∀ S, (m.settle kept).liveLeases ⊆ S ↔ m.liveLeases ⊆ S := by
    intro S
    rw [liveLeases_subset_iff, standsOn_settle, liveLeases_subset_iff]
  rw [← mem_liveLeases, ← mem_liveLeases]
  exact ⟨fun inside => (same _).2 (List.Subset.refl _) inside, fun inside => (same _).1 (List.Subset.refl _) inside⟩

/-- A machine that has settled counts the leases that are kept and those that something refers to. -/
theorem Balanced.exports_settle (h : m.Balanced []) (known : kept ⊆ m.leases) {id i}
    (found : (m.settle kept).get? id = some i) :
    i.exports = {l | l.owner = id ∧ (l ∈ kept ∨ (m.settle kept).Refers l)}.ncard := by
  have settled := h.settle kept
  have left : ∀ l, l ∈ (m.settle kept).leases ↔ l ∈ kept ∨ (m.settle kept).Refers l := by
    intro l
    rw [mem_leases_settle, List.mem_append, mem_liveLeases, refers_settle]
    refine and_iff_right_of_imp ?_
    rintro (hand | refers)
    · exact known hand
    · exact h.refers refers
  rw [settled.counted found, List.append_nil, lent_eq_ncard settled.distinct]
  simp only [left]

theorem Balanced.givesBack (h : m.Balanced []) (kept) : m.GivesBack kept := by
  intro before l after loose i registered
  have apart := h.apart kept
  rw [loose] at apart
  exact apart.releaseAll.positive registered

end Counting

section Sharing
variable {m : Machine}

theorem exports_count (m : Machine) (owner id) :
    ((m.modifyInterpreter owner fun i => { i with exports := i.exports + 1 }).get? id).map (·.exports) =
      (m.get? id).map fun i => i.exports + if id = owner then 1 else 0 := by
  have found := m.find?_modifyInterpreter owner id (f := fun i => { i with exports := i.exports + 1 }) fun _ => rfl
  rw [get?, found, get?]
  cases m.find? id with
  | none => rfl
  | some i =>
    have ready : (if id = owner then { i with exports := i.exports + 1 } else i).isReady = i.isReady := by split <;> rfl
    rw [Option.map_some, Option.filter_some, Option.filter_some, ready]
    split
    · split <;> rfl
    · rfl

/-- A lease that is taken is counted by its owner, if that is registered, and by nobody else. -/
theorem exports_acquire (m : Machine) (owner id) : ((m.acquire owner).1.get? id).map (·.exports) =
    (m.get? id).map fun i => i.exports + if id = owner then 1 else 0 := by
  unfold acquire
  dsimp only
  split
  · exact exports_count _ owner id
  · next absent =>
    have absent : m.get? owner = none := Option.not_isSome_iff_eq_none.1 absent
    change (m.get? id).map (·.exports) = _
    by_cases here : id = owner
    · rw [here, absent]
      rfl
    · simp [here]

/-- A snapshot of a buffer is a new lease, on the storage of the first owner if the buffer is borrowed itself. -/
theorem Balanced.snapshot_buffer (h : m.Balanced []) (source bytes lease full) :
    let owner := (lease.map Lease.owner).getD source
    ∃ m' new, m.snapshot source (.buffer bytes lease) full = (m', .ok ⟨source, .buffer bytes new⟩) ∧
      Snapshot.toValue m'.knows ⟨source, .buffer bytes new⟩ = .ok (.buffer bytes (some new)) ∧ new.owner = owner ∧
      new ∉ m.leases ∧ m'.leases = m.leases ++ [new] ∧
      ∀ id, (m'.get? id).map (·.exports) = (m.get? id).map fun i => i.exports + if id = owner then 1 else 0 := by
  intro owner
  refine ⟨(m.acquire owner).1, (m.acquire owner).2, rfl, rfl, rfl, fun old => ?_, ?_, exports_acquire m owner⟩
  · exact absurd (h.fresh _ old) (Nat.lt_irrefl m.nextLease)
  · unfold Machine.acquire
    dsimp only
    split <;> rfl

end Sharing
end Machine

/-- In every state that is reached, with failures anywhere, each registered interpreter counts the leases on its storage
that have not ended, and whatever is referred to has not. When the machine settles, with `hands` the leases of values held
outside it, the count is the number of leases on its storage that are in hand or referred to, and after a command it is
the number of those referred to. Each time a lease is given back, before and after a command, its owner counts at
least one if it is registered. A snapshot of a buffer takes a lease of its own, which the buffer rebuilt from it is
borrowed on; it is counted by the first owner of the storage, however often that is shared, and by nobody else. -/
theorem exports_accounted (threshold : Level) (turns : List Turn)
    (granted : (Machine.start { threshold }).grantsAll turns = true) :
    let m := (Machine.start { threshold }).takeAll turns
    (∀ l, m.Refers l → l ∈ m.leases) ∧
    (∀ id i, m.get? id = some i → i.exports = {l | l.owner = id ∧ l ∈ m.leases}.ncard) ∧
    (∀ hands id i, hands ⊆ m.leases → (m.settle hands).get? id = some i →
      i.exports = {l | l.owner = id ∧ (l ∈ hands ∨ (m.settle hands).Refers l)}.ncard) ∧
    (∀ command, m.grants (.command command) = true →
      let m' := m.take (.command command)
      (∀ id i, m'.get? id = some i → i.exports = {l | l.owner = id ∧ m'.Refers l}.ncard) ∧
      m.GivesBack (Value.leasesAll command.values) ∧ (m.aftermath command).GivesBack []) ∧
    ∀ source bytes lease full, let owner := (lease.map Lease.owner).getD source
      ∃ m' new, m.snapshot source (.buffer bytes lease) full = (m', .ok ⟨source, .buffer bytes new⟩) ∧
        Snapshot.toValue m'.knows ⟨source, .buffer bytes new⟩ = .ok (.buffer bytes (some new)) ∧ new.owner = owner ∧
        new ∉ m.leases ∧ m'.leases = m.leases ++ [new] ∧
        ∀ id, (m'.get? id).map (·.exports) = (m.get? id).map fun i => i.exports + if id = owner then 1 else 0 := by
  intro m
  have h : m.Balanced [] := Machine.balanced_takeAll (Machine.balanced_start threshold) granted
  refine ⟨fun l => h.refers, ?_, ?_, ?_, h.snapshot_buffer⟩
  · intro id i found
    rw [h.counted found, List.append_nil, Machine.lent_eq_ncard h.distinct]
  · intro hands id i known found
    exact h.exports_settle known found
  · intro command granted
    have done := h.aftermath (Machine.grants_command.1 granted)
    refine ⟨fun id i found => ?_, h.givesBack _, done.givesBack []⟩
    have counted := done.exports_settle (List.nil_subset _) found
    simp only [List.not_mem_nil, false_or] at counted
    exact counted

/-- Interpreter `1` borrows a buffer of the main one, the host shares what it has borrowed and holds that, and then
interpreter `1` ends. -/
def Turn.lending : List Turn :=
  let borrowed := Value.buffer [1, 2] (some ⟨0, 0⟩)
  [.command (.create none false), .command (.setGlobals 0 1 ⟨[("b", .buffer [1, 2] none)]⟩ false),
    .command (.snapshot (.id 1) borrowed true .value (some "kept")), .command (.destroy 0 1 false)]

/-- The main interpreter counts the shared lease, and no longer the one that ended with its borrower. -/
theorem exports_accounted_shared :
    let m := (Machine.start { threshold := .warn }).takeAll Turn.lending
    (Machine.start { threshold := .warn }).grantsAll Turn.lending = true ∧ m.leases = [⟨1, 0⟩] ∧
      ∃ i, m.get? 0 = some i ∧ i.exports = 1 := by
  intro m
  have granted : (Machine.start { threshold := .warn }).grantsAll Turn.lending = true := by decide +kernel
  have leases : m.leases = [⟨1, 0⟩] := by decide +kernel
  obtain ⟨i, found⟩ : ∃ i, m.get? 0 = some i := Option.isSome_iff_exists.1 (by decide +kernel)
  refine ⟨granted, leases, i, found, ?_⟩
  have counted := (exports_accounted .warn Turn.lending granted).2.1 0 i found
  have here : {l : Lease | l.owner = 0 ∧ l ∈ m.leases} = {⟨1, 0⟩} := by
    ext l
    rw [leases]
    constructor
    · rintro ⟨-, inside⟩
      exact List.mem_singleton.1 inside
    · rintro rfl
      exact ⟨rfl, List.mem_singleton.2 rfl⟩
  rw [counted, here, Set.ncard_singleton]

end MonitoredVm
