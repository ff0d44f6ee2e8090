import Mathlib.Data.List.Basic
import MonitoredVm.Proofs.Consistency

/-!
# The books of a machine

An interpreter counts the leases others have on its storage. The count is kept while leases are taken and given back,
interpreters end, and values come and go. Its books are in order when each registered interpreter counts exactly the
leases it has lent that have not ended, everything the machine holds stands on such leases, and the log blames only
interpreters that have ended: `Machine.Balanced`.

Main statements: taking a lease, letting go of some, binding values and ending interpreters keep the books in order
(`Balanced.acquire`, `Balanced.letGo`, `Balanced.modifyInterpreter`), and so does settling, after which exactly the leases
are left that something stands on (`Balanced.settle`, `mem_leases_settle`).
-/

namespace MonitoredVm

open List

/-! ## What bindings and values stand on -/

namespace Bindings
variable {α : Type} {P Q : α → Prop} {b : Bindings α} {name : String} {v : α}

/-- What is bound satisfies `P`. -/
def Each (P : α → Prop) (b : Bindings α) : Prop := ∀ e ∈ b.entries, P e.2

theorem Each.empty : Each P {} := fun _ inside => absurd inside not_mem_nil

theorem Each.get? (each : b.Each P) (found : b.get? name = some v) : P v := by
  obtain ⟨e, inside, rfl⟩ := mem_of_lookup found
  exact each e inside

theorem Each.insert (each : b.Each P) (new : P v) (name) : (b.insert name v).Each P := by
  intro e inside
  obtain old | here := of_mem_put inside
  · exact each e old
  · exact here ▸ new

theorem Each.erase (each : b.Each P) (name) : (b.erase name).Each P :=
  fun e inside => each e (of_mem_remove inside)

theorem Each.insertAll (each : b.Each P) (all : ∀ p ∈ pairs, P p.2) : (b.insertAll pairs).Each P := by
  induction pairs generalizing b with
  | nil => exact each
  | cons p rest ih =>
    obtain ⟨here, others⟩ := forall_mem_cons.1 all
    exact ih (each.insert here p.1) others

theorem Each.imp (each : b.Each P) (weaker : ∀ v, P v → Q v) : b.Each Q := fun e inside => weaker _ (each e inside)

theorem each_iff : b.Each P ↔ ∀ v ∈ b.values, P v := by
  rw [values, forall_mem_map]
  rfl

end Bindings

section Values
variable {α : Type} {S : List Lease}

theorem flatMap_subset_iff {items : List α} {f : α → List Lease} : items.flatMap f ⊆ S ↔ ∀ a ∈ items, f a ⊆ S := by
  simp only [subset_def, mem_flatMap]
  exact ⟨fun all a inside l here => all ⟨a, inside, here⟩, fun all l here => all _ here.choose_spec.1 here.choose_spec.2⟩

theorem Bindings.Each.elim_subset {b : Bindings α} {f : α → List Lease} (each : b.Each (f · ⊆ S)) (name) :
    (b.get? name).elim [] f ⊆ S := by
  cases bound : b.get? name with
  | none => exact nil_subset S
  | some v => exact each.get? bound

theorem Value.leasesAll_subset_iff : Value.leasesAll vs ⊆ S ↔ ∀ v ∈ vs, v.leases ⊆ S := by
  induction vs with
  | nil => simp [Value.leasesAll]
  | cons v vs ih => simp [Value.leasesAll, ih]

theorem Value.leasesPairs_subset_iff : Value.leasesPairs ps ⊆ S ↔ ∀ p ∈ ps, p.1.leases ⊆ S ∧ p.2.leases ⊆ S := by
  induction ps with
  | nil => simp [Value.leasesPairs]
  | cons p ps ih =>
    obtain ⟨k, v⟩ := p
    simp [Value.leasesPairs, ih, and_assoc]

theorem Namespace.leases_subset_iff {ns : Namespace} : Value.leasesAll ns.values ⊆ S ↔ ns.Each (·.leases ⊆ S) :=
  Value.leasesAll_subset_iff.trans Bindings.each_iff.symm

theorem Snapshot.leasesAll_subset_iff : Snapshot.leasesAll named ⊆ S ↔ ∀ s ∈ named, s.2.leases ⊆ S := flatMap_subset_iff

end Values

def HostFunction.leases : HostFunction → List Lease
  | .const v => v.leases
  | _ => []

theorem HostFunction.kept_subset_iff {kept : HostFunction → Option Value}
    (same : ∀ f, (kept f).elim [] Value.leases = f.leases) {fs : List HostFunction} :
    Value.leasesAll (fs.filterMap kept) ⊆ S ↔ ∀ f ∈ fs, f.leases ⊆ S := by
  simp only [Value.leasesAll_subset_iff, mem_filterMap]
  constructor
  · intro all f inside
    rw [← same f]
    cases here : kept f with
    | none => exact nil_subset S
    | some v => exact all v ⟨f, inside, here⟩
  · rintro all v ⟨f, inside, here⟩
    have stands := all f inside
    rwa [← same f, here] at stands

/-- The interpreter that a note says is gone or has lent nothing. -/
def MachineNote.blames : MachineNote → Option Int
  | .ownerGone lease => some lease.owner
  | .neverExported id => some id
  | _ => none

namespace Machine

/-- There is an interpreter with this id, registered or not. -/
def Has (m : Machine) (id : Int) : Prop := (m.find? id).isSome = true

/-- There was an interpreter with this id, and it has ended. -/
def Ended (m : Machine) (id : Int) : Prop := m.Has id ∧ m.get? id = none

/-- What the machine holds stands on leases among `S`. -/
structure StandsOn (m : Machine) (S : List Lease) : Prop where
  globals : ∀ i ∈ m.interpreters, i.globals.Each (·.leases ⊆ S)
  preserved : ∀ c ∈ m.contexts, (c.session.getD {}).preserved.Each (·.leases ⊆ S)
  held : m.held.Each (·.leases ⊆ S)
  calls : m.calls.Each (·.leases ⊆ S)
  functions : m.functions.Each (·.leases ⊆ S)

/-- The interpreters a context has been in are there. -/
structure Knows (m : Machine) (c : Context) : Prop where
  current : m.Has c.current
  entered : ∀ {t p}, (c.session.getD {}).stage = .entered t p → m.Has t ∧ m.Has p

def lent (leases : List Lease) (id : Int) : Nat := leases.countP (·.owner == id)

/-- The books are in order, where `ended` are the leases that have ended but are not given back yet. -/
structure Balanced (m : Machine) (ended : List Lease) : Prop where
  fresh : ∀ l ∈ m.leases, l.id < m.nextLease
  distinct : m.leases.Nodup
  owners : ∀ l ∈ m.leases, m.Has l.owner
  counted : ∀ {id i}, m.get? id = some i → i.exports = lent (m.leases ++ ended) id
  blamed : ∀ r ∈ m.log.records, ∀ id ∈ r.2.blames, m.Ended id
  home : m.Has 0
  contexts : ∀ c ∈ m.contexts, m.Knows c
  standsOn : m.StandsOn m.leases

theorem liveLeases_subset_iff {m : Machine} : m.liveLeases ⊆ S ↔ m.StandsOn S := by
  rw [liveLeases, append_subset, append_subset, append_subset, append_subset, flatMap_subset_iff,
    flatMap_subset_iff, flatMap_subset_iff, HostFunction.kept_subset_iff fun f => by cases f <;> rfl]
  simp only [flatMap_subset_iff, Namespace.leases_subset_iff, ← Bindings.each_iff]
  constructor
  · rintro ⟨⟨⟨⟨globals, preserved⟩, held⟩, calls⟩, functions⟩
    exact ⟨globals, preserved, held, calls, functions⟩
  · rintro ⟨globals, preserved, held, calls, functions⟩
    exact ⟨⟨⟨⟨globals, preserved⟩, held⟩, calls⟩, functions⟩

/-! ## One interpreter -/

section Interpreters
variable {m : Machine} {id j : Int} {f : Interpreter → Interpreter}

theorem has_modifyInterpreter (same : ∀ i, (f i).id = i.id) : (m.modifyInterpreter id f).Has j ↔ m.Has j := by
  rw [Has, Has, find?_modifyInterpreter m id j same, Option.isSome_map]

theorem get?_modifyInterpreter_of_ne (same : ∀ i, (f i).id = i.id) (other : j ≠ id) :
    (m.modifyInterpreter id f).get? j = m.get? j := by
  rw [get?, get?, find?_modifyInterpreter m id j same]
  simp [other]

theorem get?_modifyInterpreter_self (same : ∀ i, (f i).id = i.id) :
    (m.modifyInterpreter id f).get? id = ((m.find? id).map f).filter (·.isReady) := by
  rw [get?, find?_modifyInterpreter m id id same]
  simp

theorem Ended.modifyInterpreter (ended : m.Ended j) (same : ∀ i, (f i).id = i.id)
    (lives : ∀ i, m.find? id = some i → (f i).isReady = true → i.isReady = true) : (m.modifyInterpreter id f).Ended j := by
  refine ⟨(has_modifyInterpreter same).2 ended.1, ?_⟩
  by_cases here : j = id
  · subst here
    rw [get?_modifyInterpreter_self same]
    have gone := ended.2
    rw [get?] at gone
    cases found : m.find? j with
    | none => rfl
    | some i =>
      rw [found] at gone
      have gone : ¬ i.isReady = true := by simpa [Option.filter] using gone
      have gone : ¬ (f i).isReady = true := fun ready => gone (lives i found ready)
      simpa [Option.filter] using gone
  · rw [get?_modifyInterpreter_of_ne same here]
    exact ended.2

end Interpreters

/-! ## What keeps the books in order -/

section Books
variable {m m' : Machine} {ended ended' : List Lease}

theorem Knows.mono (knows : m.Knows c) (has : ∀ {id}, m.Has id → m'.Has id) : m'.Knows c :=
  ⟨has knows.current, fun stage => ⟨has (knows.entered stage).1, has (knows.entered stage).2⟩⟩

section
variable (h : m.Balanced ended)
include h

theorem Balanced.carry (leases : m'.leases = m.leases) (next : m'.nextLease = m.nextLease)
    (has : ∀ {id}, m.Has id → m'.Has id)
    (counted : ∀ {id i}, m'.get? id = some i → i.exports = lent (m.leases ++ ended') id)
    (blamed : ∀ r ∈ m'.log.records, ∀ id ∈ r.2.blames, m'.Ended id) (contexts : ∀ c ∈ m'.contexts, m.Knows c)
    (standsOn : m'.StandsOn m.leases) : m'.Balanced ended' where
  fresh l inside := next ▸ h.fresh l (leases ▸ inside)
  distinct := leases ▸ h.distinct
  owners l inside := has (h.owners l (leases ▸ inside))
  counted found := leases ▸ counted found
  blamed := blamed
  home := has h.home
  contexts c inside := (contexts c inside).mono has
  standsOn := leases ▸ standsOn

/-- What the machine holds may be replaced by anything that stands on leases that have not ended. -/
theorem Balanced.hold (leases : m'.leases = m.leases) (next : m'.nextLease = m.nextLease)
    (interpreters : m'.interpreters = m.interpreters) (log : m'.log = m.log) (contexts : ∀ c ∈ m'.contexts, m.Knows c)
    (standsOn : m'.StandsOn m.leases) : m'.Balanced ended := by
  have find : m'.find? = m.find? := funext fun id => by rw [find?, find?, interpreters]
  have get : m'.get? = m.get? := funext fun id => by rw [get?, get?, find]
  have has : m'.Has = m.Has := funext fun id => by rw [Has, Has, find]
  refine h.carry leases next (fun {id} there => has ▸ there) (fun {id i} found => h.counted (get ▸ found)) ?_ contexts standsOn
  intro r inside id blames
  rw [log] at inside
  have ended := h.blamed r inside id blames
  rwa [Ended, has, get]

theorem Balanced.note (level) (fair : ∀ id ∈ n.blames, m.Ended id) : (m.note level n).Balanced ended := by
  refine h.carry rfl rfl id h.counted ?_ h.contexts { h.standsOn with }
  intro r inside
  rw [Machine.note, Log.add] at inside
  dsimp only at inside
  split at inside
  · rw [mem_append, mem_singleton] at inside
    obtain old | rfl := inside
    · exact h.blamed r old
    · exact fair
  · exact h.blamed r inside

theorem Balanced.remark (level) (plain : n.blames = none) : (m.note level n).Balanced ended :=
  h.note level fun id blames => by simp [plain] at blames

theorem Balanced.letGo {leases} (known : leases ⊆ m.leases) :
    (m.letGo leases).Balanced ended := by
  rw [Machine.letGo]
  induction leases generalizing m with
  | nil => exact h
  | cons l rest ih =>
    obtain ⟨here, others⟩ := cons_subset.1 known
    rw [foldl_cons]
    split
    · next gone =>
      refine ih (h.note .warn fun id blames => ?_) others
      obtain rfl : l.owner = id := Option.some.inj blames
      exact ⟨h.owners l here, Option.isNone_iff_eq_none.1 gone⟩
    · exact ih h others

theorem Balanced.recount (id) (same : ∀ i, (f i).id = i.id)
    (lives : ∀ i, m.find? id = some i → (f i).isReady = true → i.isReady = true)
    (counted : ∀ i, m.get? id = some i → (f i).exports = lent (m.leases ++ ended') id)
    (others : ∀ j, j ≠ id → lent (m.leases ++ ended) j = lent (m.leases ++ ended') j)
    (globals : ∀ i ∈ m.interpreters, i.id = id → (f i).globals.Each (·.leases ⊆ m.leases)) :
    (m.modifyInterpreter id f).Balanced ended' := by
  refine h.carry rfl rfl (has_modifyInterpreter same).2 ?_ ?_ h.contexts ?_
  · intro j i' found
    by_cases here : j = id
    · subst here
      rw [get?_modifyInterpreter_self same] at found
      obtain ⟨found, ready⟩ := Option.filter_eq_some_iff.1 found
      obtain ⟨i, there, rfl⟩ := Option.map_eq_some_iff.1 found
      exact counted i (Option.filter_eq_some_iff.2 ⟨there, lives i there ready⟩)
    · rw [get?_modifyInterpreter_of_ne same here] at found
      rw [← others j here]
      exact h.counted found
  · exact fun r inside j blames => (h.blamed r inside j blames).modifyInterpreter same lives
  · refine { h.standsOn with globals := fun i' inside => ?_ }
    obtain ⟨i, there, rfl⟩ := mem_map.1 inside
    by_cases here : i.id = id
    · simpa [here] using globals i there here
    · simpa [here] using h.standsOn.globals i there

theorem Balanced.modifyInterpreter (id) (same : ∀ i, (f i).id = i.id) (exports : ∀ i, (f i).exports = i.exports)
    (lives : ∀ i, m.find? id = some i → (f i).isReady = true → i.isReady = true)
    (globals : ∀ i ∈ m.interpreters, i.id = id → (f i).globals.Each (·.leases ⊆ m.leases)) :
    (m.modifyInterpreter id f).Balanced ended :=
  h.recount id same lives (fun i found => (exports i).trans (h.counted found)) (fun _ _ => rfl) globals

end

theorem mem_modify {α : Type} {items : List α} {n} {f : α → α} {x} (inside : x ∈ items.modify n f) :
    x ∈ items ∨ ∃ y ∈ items, x = f y := by
  obtain ⟨k, here⟩ := mem_iff_getElem?.1 inside
  rw [getElem?_modify] at here
  obtain ⟨y, there, rfl⟩ := Option.map_eq_some_iff.1 here
  split
  · exact .inr ⟨y, mem_of_getElem? there, rfl⟩
  · exact .inl (mem_of_getElem? there)

theorem Balanced.modifyContext (h : m.Balanced ended) (c) {f : Context → Context}
    (knows : ∀ x, m.Knows x → m.Knows (f x))
    (preserved : ∀ x ∈ m.contexts, ((f x).session.getD {}).preserved.Each (·.leases ⊆ m.leases)) :
    (m.modifyContext c f).Balanced ended := by
  refine h.hold rfl rfl rfl rfl (fun x inside => ?_) { h.standsOn with preserved := fun x inside => ?_ }
  · obtain old | ⟨y, there, rfl⟩ := mem_modify inside
    · exact h.contexts x old
    · exact knows y (h.contexts y there)
  · obtain old | ⟨y, there, rfl⟩ := mem_modify inside
    · exact h.standsOn.preserved x old
    · exact preserved y there

theorem Balanced.knows (h : m.Balanced ended) (c) : m.Knows (m.context c) := by
  rw [context]
  cases here : m.contexts[c]? with
  | none => exact ⟨h.home, fun stage => by cases stage⟩
  | some x => exact h.contexts x (mem_of_getElem? here)

theorem Balanced.preserved (h : m.Balanced ended) (c) : (m.session c).preserved.Each (·.leases ⊆ m.leases) := by
  rw [session, context]
  cases here : m.contexts[c]? with
  | none => exact .empty
  | some x => exact h.standsOn.preserved x (mem_of_getElem? here)

end Books

/-! ## Taking leases and giving them back -/

section Lending
variable {m : Machine} {ended : List Lease} {l : Lease}

theorem lent_insert (leases ended) (l : Lease) (id) :
    lent (leases ++ l :: ended) id = lent (leases ++ ended) id + if l.owner = id then 1 else 0 := by
  simp only [lent, countP_append, countP_cons, beq_iff_eq]
  omega

theorem Balanced.count (h : m.Balanced ended) (l : Lease) :
    (m.modifyInterpreter l.owner fun i => { i with exports := i.exports + 1 }).Balanced (l :: ended) := by
  refine h.recount l.owner (fun _ => rfl) (fun _ _ ready => ready) (fun i found => ?_) (fun j other => ?_)
    fun i inside _ => h.standsOn.globals i inside
  · rw [lent_insert, if_pos rfl, ← h.counted found]
  · rw [lent_insert, if_neg (Ne.symm other), Nat.add_zero]

theorem Balanced.ignore (h : m.Balanced ended) (gone : m.get? l.owner = none) : m.Balanced (l :: ended) := by
  refine { h with counted := fun {id i} found => ?_ }
  have other : l.owner ≠ id := by
    rintro rfl
    rw [gone] at found
    cases found
  rw [lent_insert, if_neg other, Nat.add_zero]
  exact h.counted found

theorem Balanced.take (h : m.Balanced (l :: ended)) (new : l.id = m.nextLease) (there : m.Has l.owner) :
    ({ m with leases := m.leases ++ [l], nextLease := m.nextLease + 1 } : Machine).Balanced ended where
  fresh x inside := by
    obtain old | rfl : x ∈ m.leases ∨ x = l := by simpa using inside
    · exact Nat.lt_succ_of_lt (h.fresh x old)
    · exact new ▸ Nat.lt_succ_self _
  distinct := by
    refine nodup_append.2 ⟨h.distinct, pairwise_singleton _ l, ?_⟩
    rintro x old y here rfl
    obtain rfl := mem_singleton.1 here
    exact absurd (h.fresh x old) (new ▸ Nat.lt_irrefl _)
  owners x inside := by
    obtain old | rfl : x ∈ m.leases ∨ x = l := by simpa using inside
    · exact h.owners x old
    · exact there
  counted {id i} found := by
    rw [append_assoc]
    exact h.counted found
  blamed := h.blamed
  home := h.home
  contexts c inside := (h.contexts c inside).mono id
  standsOn := by
    have wider : ∀ {ls : List Lease}, ls ⊆ m.leases → ls ⊆ m.leases ++ [l] := fun all => subset_append_of_subset_left _ all
    obtain ⟨globals, preserved, held, calls, functions⟩ := h.standsOn
    exact ⟨fun i inside => (globals i inside).imp fun _ => wider, fun c inside => (preserved c inside).imp fun _ => wider,
      held.imp fun _ => wider, calls.imp fun _ => wider, functions.imp fun _ => wider⟩

theorem Balanced.acquire (h : m.Balanced ended) (there : m.Has owner) : (m.acquire owner).1.Balanced ended := by
  unfold Machine.acquire
  dsimp only
  split
  · refine (h.count ⟨m.nextLease, owner⟩).take rfl ((has_modifyInterpreter ?_).2 there)
    exact fun _ => rfl
  · next absent =>
    have absent : m.get? owner = none := Option.not_isSome_iff_eq_none.1 absent
    exact (h.ignore (l := ⟨m.nextLease, owner⟩) absent).take rfl there

theorem Balanced.positive (h : m.Balanced (l :: ended)) (registered : m.get? l.owner = some i) : 0 < i.exports := by
  have counted := h.counted registered
  rw [lent_insert, if_pos rfl] at counted
  omega

theorem Balanced.release (h : m.Balanced (l :: ended)) : (m.release l).Balanced ended := by
  -- whoever is registered counts the leases that are left, and the owner this one besides
  have others : ∀ j, j ≠ l.owner → lent (m.leases ++ l :: ended) j = lent (m.leases ++ ended) j := by
    intro j other
    rw [lent_insert, if_neg (Ne.symm other), Nat.add_zero]
  have without : m.get? l.owner = none → m.Balanced ended := by
    intro gone
    refine { h with counted := fun {id i} found => ?_ }
    rw [← others id]
    · exact h.counted found
    · rintro rfl
      rw [gone] at found
      cases found
  unfold Machine.release
  split
  · next noted =>
    obtain ⟨r, inside, misses⟩ := any_eq_true.1 noted
    refine without (h.blamed r inside l.owner ?_).2
    cases note : r.2 with
    | ownerGone x =>
      rw [note] at misses
      obtain rfl : x = l := by simpa [MachineNote.missesOwnerOf] using misses
      rfl
    | _ =>
      rw [note] at misses
      cases misses
  · split
    · next absent => exact without (by rw [get?, absent]; rfl)
    · next i found =>
      obtain here := id_of_find? found
      split
      · next empty =>
        -- a registered owner would have counted this lease
        have gone : m.get? l.owner = none := by
          cases registered : m.get? l.owner with
          | none => rfl
          | some i' =>
            obtain rfl : i = i' := Option.some.inj (found.symm.trans (Option.filter_eq_some_iff.1 registered).1)
            exact absurd empty (Nat.pos_iff_ne_zero.1 (h.positive registered))
        refine (without gone).note .warn fun id blames => ?_
        obtain rfl : i.id = id := Option.some.inj blames
        rw [here]
        exact ⟨Option.isSome_of_eq_some found, gone⟩
      · rw [here]
        refine h.recount l.owner (fun _ => rfl) (fun _ _ ready => ready) (fun i' registered => ?_) others
          fun i inside _ => h.standsOn.globals i inside
        have counted := h.counted registered
        rw [lent_insert, if_pos rfl] at counted
        dsimp only
        omega

end Lending

/-! ## Settling -/

section Settling
variable {m : Machine} {kept S : List Lease} {l : Lease}

/-- The leases that nothing stands on any more, which settling ends. -/
def loose (m : Machine) (kept : List Lease) : List Lease := m.leases.filter fun l => !(kept ++ m.liveLeases).contains l

/-- The machine with the leases that have ended put apart, none of them given back yet. -/
def apart (m : Machine) (kept : List Lease) : Machine :=
  { m with
    leases := m.leases.filter (kept ++ m.liveLeases).contains
    log := { m.log with records := MachineNote.lastOnly (kept ++ m.liveLeases) m.log.records } }

theorem settle_eq (some : m.leases ≠ []) : m.settle kept = (m.loose kept).foldl release (m.apart kept) := by
  rw [settle, if_neg (isEmpty_iff.not.2 some)]
  rfl

theorem Balanced.live (h : m.Balanced ended) : m.liveLeases ⊆ m.leases := liveLeases_subset_iff.2 h.standsOn

theorem mem_of_mem_lastOnly (inside : r ∈ MachineNote.lastOnly live records) : r ∈ records := by
  fun_induction MachineNote.lastOnly live records with
  | case1 => exact inside
  | case2 level lease rest _ ih => exact mem_cons_of_mem _ (ih inside)
  | case3 level lease rest _ ih =>
    obtain rfl | later := mem_cons.1 inside
    · exact mem_cons_self
    · exact mem_cons_of_mem _ (ih later)
  | case4 first rest _ ih =>
    obtain rfl | later := mem_cons.1 inside
    · exact mem_cons_self
    · exact mem_cons_of_mem _ (ih later)

theorem standsOn_modifyInterpreter {id f} (same : ∀ i, (f i).globals = i.globals) :
    (m.modifyInterpreter id f).StandsOn S ↔ m.StandsOn S := by
  have same : ∀ i : Interpreter, (if i.id == id then f i else i).globals = i.globals := by
    intro i
    split
    · exact same i
    · rfl
  constructor
  · intro h
    refine { h with globals := fun i inside => ?_ }
    exact same i ▸ h.globals _ (mem_map_of_mem inside)
  · intro h
    refine { h with globals := fun i' inside => ?_ }
    obtain ⟨i, there, rfl⟩ := mem_map.1 inside
    exact same i ▸ h.globals i there

theorem standsOn_release : (m.release l).StandsOn S ↔ m.StandsOn S := by
  unfold release
  split
  · exact Iff.rfl
  · split
    · exact Iff.rfl
    · split
      · exact ⟨fun h => { h with }, fun h => { h with }⟩
      · exact standsOn_modifyInterpreter fun _ => rfl

theorem leases_release : (m.release l).leases = m.leases := by
  unfold release
  split
  · rfl
  · split
    · rfl
    · split <;> rfl

theorem releaseAll (ended : List Lease) (m : Machine) :
    (ended.foldl release m).leases = m.leases ∧ ∀ S, (ended.foldl release m).StandsOn S ↔ m.StandsOn S := by
  induction ended generalizing m with
  | nil => exact ⟨rfl, fun _ => Iff.rfl⟩
  | cons l rest ih =>
    obtain ⟨leases, stands⟩ := ih (m.release l)
    exact ⟨leases.trans leases_release, fun S => (stands S).trans standsOn_release⟩

theorem Balanced.releaseAll {before after} (h : m.Balanced (before ++ after)) :
    (before.foldl Machine.release m).Balanced after := by
  induction before generalizing m with
  | nil => exact h
  | cons l rest ih => exact ih h.release

theorem Balanced.apart (h : m.Balanced []) (kept) : (m.apart kept).Balanced (m.loose kept) where
  fresh l inside := h.fresh l (mem_of_mem_filter inside)
  distinct := h.distinct.filter _
  owners l inside := h.owners l (mem_of_mem_filter inside)
  counted {id i} found := by
    have counted := h.counted found
    rw [append_nil] at counted
    rw [counted, lent, lent, countP_append]
    exact countP_eq_countP_filter_add _ _ _
  blamed r inside := h.blamed r (mem_of_mem_lastOnly inside)
  home := h.home
  contexts c inside := (h.contexts c inside).mono id
  standsOn := by
    refine liveLeases_subset_iff.1 fun l (live : l ∈ m.liveLeases) => mem_filter.2 ⟨h.live live, ?_⟩
    exact contains_iff_mem.2 (mem_append_right _ live)

theorem Balanced.settle (h : m.Balanced []) (kept) : (m.settle kept).Balanced [] := by
  by_cases some : m.leases = []
  · rw [Machine.settle, if_pos (isEmpty_iff.2 some)]
    exact h
  · rw [settle_eq some]
    refine Balanced.releaseAll ?_
    rw [append_nil]
    exact h.apart kept

theorem standsOn_settle : (m.settle kept).StandsOn S ↔ m.StandsOn S := by
  by_cases some : m.leases = []
  · rw [settle, if_pos (isEmpty_iff.2 some)]
  · rw [settle_eq some, (releaseAll _ _).2 S]
    exact ⟨fun h => { h with }, fun h => { h with }⟩

theorem mem_leases_settle : l ∈ (m.settle kept).leases ↔ l ∈ m.leases ∧ l ∈ kept ++ m.liveLeases := by
  by_cases some : m.leases = []
  · rw [settle, if_pos (isEmpty_iff.2 some), some]
    simp
  · rw [settle_eq some, (releaseAll _ _).1]
    simp [apart]

end Settling

end Machine
end MonitoredVm
