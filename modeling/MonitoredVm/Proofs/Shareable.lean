import MonitoredVm.Proofs.Crossing

/-!
# Values that cross as they are

A value crosses in binary if it is made of the basic types, functions and tuples of these. One list, dict, exception,
buffer or host object anywhere in it keeps it from doing so: encoding stops there and names its type. What is encoded
comes back as the same value, functions with all their statements, wherever the native functions in it are known.

Main statement: `binary_transfer`. A value has a portable form exactly if nothing that blocks it occurs in it
(`portable_isOk_iff`), and the first blocker is named (`blocker_of_portable`).
-/

namespace MonitoredVm

open List

open Grammar (bind_eq_ok)

namespace Value

/-- `u` occurs in a value: it is the value, or it occurs in one of its items, keys or values. -/
inductive Occurs (u : Value) : Value → Prop
  | here : Occurs u u
  | tuple {items w} : w ∈ items → Occurs u w → Occurs u (.tuple items)
  | list {items w} : w ∈ items → Occurs u w → Occurs u (.list items)
  | key {pairs p} : p ∈ pairs → Occurs u p.1 → Occurs u (.dict pairs)
  | value {pairs p} : p ∈ pairs → Occurs u p.2 → Occurs u (.dict pairs)

/-- Has no portable form, wherever it occurs, unless lists, dicts and exceptions are asked for. -/
def isBlocker : Value → Bool
  | .list _ | .dict _ | .exception _ | .buffer _ _ | .host _ _ => true
  | _ => false

end Value

/-! ## What occurs in a value -/

theorem mem_nativesAll : n ∈ Value.nativesAll vs ↔ ∃ v ∈ vs, n ∈ v.natives := by
  induction vs with
  | nil => simp [Value.nativesAll]
  | cons v vs ih => simp [Value.nativesAll, ih]

theorem mem_nativesPairs : n ∈ Value.nativesPairs ps ↔ ∃ p ∈ ps, n ∈ p.1.natives ∨ n ∈ p.2.natives := by
  induction ps with
  | nil => simp [Value.nativesPairs]
  | cons p ps ih =>
    obtain ⟨k, v⟩ := p
    simp [Value.nativesPairs, ih, or_assoc]

mutual

theorem occurs_of_mem_natives : (v : Value) → n ∈ v.natives → (Value.native n).Occurs v
  | .native _, inside => by
    obtain rfl := mem_singleton.1 inside
    exact .here
  | .tuple items, inside => by
    obtain ⟨w, item, occurs⟩ := occurs_of_mem_nativesAll items inside
    exact .tuple item occurs
  | .list items, inside => by
    obtain ⟨w, item, occurs⟩ := occurs_of_mem_nativesAll items inside
    exact .list item occurs
  | .dict pairs, inside => by
    obtain ⟨p, pair, occurs | occurs⟩ := occurs_of_mem_nativesPairs pairs inside
    · exact .key pair occurs
    · exact .value pair occurs

theorem occurs_of_mem_nativesAll : (vs : List Value) → n ∈ Value.nativesAll vs →
    ∃ w ∈ vs, (Value.native n).Occurs w
  | v :: vs, inside => by
    obtain first | later := mem_append.1 inside
    · exact ⟨v, mem_cons_self, occurs_of_mem_natives v first⟩
    · obtain ⟨w, item, occurs⟩ := occurs_of_mem_nativesAll vs later
      exact ⟨w, mem_cons_of_mem _ item, occurs⟩

theorem occurs_of_mem_nativesPairs : (ps : List (Value × Value)) → n ∈ Value.nativesPairs ps →
    ∃ p ∈ ps, (Value.native n).Occurs p.1 ∨ (Value.native n).Occurs p.2
  | (k, v) :: ps, inside => by
    obtain first | later := mem_append.1 inside
    · obtain key | value := mem_append.1 first
      · exact ⟨(k, v), mem_cons_self, .inl (occurs_of_mem_natives k key)⟩
      · exact ⟨(k, v), mem_cons_self, .inr (occurs_of_mem_natives v value)⟩
    · obtain ⟨p, pair, occurs⟩ := occurs_of_mem_nativesPairs ps later
      exact ⟨p, mem_cons_of_mem _ pair, occurs⟩

end

theorem mem_natives_iff : n ∈ v.natives ↔ (Value.native n).Occurs v := by
  refine ⟨occurs_of_mem_natives v, fun occurs => ?_⟩
  induction occurs with
  | here => exact mem_singleton.2 rfl
  | tuple item _ ih => exact mem_nativesAll.2 ⟨_, item, ih⟩
  | list item _ ih => exact mem_nativesAll.2 ⟨_, item, ih⟩
  | key pair _ ih => exact mem_nativesPairs.2 ⟨_, pair, .inl ih⟩
  | value pair _ ih => exact mem_nativesPairs.2 ⟨_, pair, .inr ih⟩

/-! ## Blockers -/

theorem portable_of_portableAll (made : Value.portableAll full vs = .ok ps) (item : v ∈ vs) :
    ∃ p, v.portable full = .ok p := by
  induction vs generalizing ps with
  | nil => cases item
  | cons w vs ih =>
    rw [Value.portableAll] at made
    obtain ⟨p, first, made⟩ := bind_eq_ok made
    obtain ⟨rest, others, -⟩ := bind_eq_ok made
    obtain rfl | later := mem_cons.1 item
    · exact ⟨p, first⟩
    · exact ih others later

theorem isBlocker_of_occurs {u v : Value} (occurs : u.Occurs v) (made : v.portable false = .ok p) :
    u.isBlocker = false := by
  induction occurs generalizing p with
  | here =>
    cases u with
    | list _ | dict _ | exception _ | buffer _ _ | host _ _ => cases made
    | _ => rfl
  | tuple item _ ih =>
    obtain ⟨ps, all, -⟩ := bind_eq_ok made
    obtain ⟨q, there⟩ := portable_of_portableAll all item
    exact ih there
  | list _ _ _ | key _ _ _ | value _ _ _ => cases made

mutual

theorem blocker_of_portable : (v : Value) → {name : String} → v.portable false = .error name →
    ∃ u : Value, u.Occurs v ∧ u.isBlocker = true ∧ u.typeName = name
  | .none, _, failed | .bool _, _, failed | .int _, _, failed | .float _, _, failed | .str _, _, failed
  | .bytes _, _, failed | .native _, _, failed | .function _, _, failed => by cases failed
  | .list items, name, failed => ⟨.list items, .here, rfl, Except.error.inj failed⟩
  | .dict pairs, name, failed => ⟨.dict pairs, .here, rfl, Except.error.inj failed⟩
  | .exception e, name, failed => ⟨.exception e, .here, rfl, Except.error.inj failed⟩
  | .buffer bytes lease, name, failed => ⟨.buffer bytes lease, .here, rfl, Except.error.inj failed⟩
  | .host typeName id, name, failed => ⟨.host typeName id, .here, rfl, Except.error.inj failed⟩
  | .tuple items, name, failed => by
    rw [Value.portable] at failed
    cases all : Value.portableAll false items with
    | ok ps =>
      rw [all] at failed
      cases failed
    | error first =>
      rw [all] at failed
      cases failed
      obtain ⟨w, item, u, occurs, blocks⟩ := blocker_of_portableAll items all
      exact ⟨u, .tuple item occurs, blocks⟩

theorem blocker_of_portableAll : (vs : List Value) → {name : String} → Value.portableAll false vs = .error name →
    ∃ w ∈ vs, ∃ u : Value, u.Occurs w ∧ u.isBlocker = true ∧ u.typeName = name
  | [], _, failed => by cases failed
  | v :: vs, name, failed => by
    rw [Value.portableAll] at failed
    cases first : v.portable false with
    | error blocker =>
      rw [first] at failed
      cases failed
      exact ⟨v, mem_cons_self, blocker_of_portable v first⟩
    | ok p =>
      rw [first] at failed
      cases others : Value.portableAll false vs with
      | ok ps =>
        rw [others] at failed
        cases failed
      | error blocker =>
        rw [others] at failed
        cases failed
        obtain ⟨w, item, blocked⟩ := blocker_of_portableAll vs others
        exact ⟨w, mem_cons_of_mem _ item, blocked⟩

end

theorem portable_isOk_iff (v : Value) : (v.portable false).isOk = true ↔ ∀ u : Value, u.Occurs v → u.isBlocker = false := by
  cases made : v.portable false with
  | ok p => exact iff_of_true rfl fun u occurs => isBlocker_of_occurs occurs made
  | error name =>
    obtain ⟨u, occurs, blocks, -⟩ := blocker_of_portable v made
    refine iff_of_false (fun ok => by cases ok) fun free => ?_
    rw [free u occurs] at blocks
    cases blocks

/-! ## Crossing -/

section Snapshots
variable (m : Machine) (source : Int) {v : Value} (notBuffer : ∀ bytes lease, v ≠ .buffer bytes lease)
include notBuffer

theorem snapshot_of_portable (made : v.portable false = .ok p) (full) :
    m.snapshot source v full = (m, .ok ⟨source, .binary p⟩) := by
  unfold Machine.snapshot
  split
  · next bytes lease => exact absurd rfl (notBuffer bytes lease)
  · rw [made]

theorem snapshot_of_blocked (failed : v.portable false = .error blocker) :
    m.snapshot source v false = (m, .error (.noPortableForm blocker)) ∧
      ∀ m' s, m.snapshot source v true = (m', .ok s) → m' = m ∧ ∃ p, s = ⟨source, .json p⟩ := by
  unfold Machine.snapshot
  split
  · next bytes lease => exact absurd rfl (notBuffer bytes lease)
  · rw [failed]
    refine ⟨rfl, fun m' s taken => ?_⟩
    obtain ⟨rfl, content⟩ := Prod.mk.inj taken
    cases made : v.portable true with
    | error other =>
      rw [made] at content
      cases content
    | ok p =>
      rw [made] at content
      exact ⟨rfl, p, (Except.ok.inj content).symm⟩

end Snapshots

/-- The binary form of a value stands for that value and no other, exactly where its native functions are known. -/
theorem toValue_binary_iff (made : v.portable false = .ok p) (source) (knows : String → Bool) (w) :
    Snapshot.toValue knows ⟨source, .binary p⟩ = .ok w ↔ w = v ∧ ∀ n, (Value.native n).Occurs v → knows n = true := by
  have stands : p.toValue knows = .ok w ↔ w = v ∧ ∀ n ∈ v.natives, knows n = true := toValue_portable_iff v made
  simp only [mem_natives_iff] at stands
  rw [← stands]
  change (p.toValue knows).mapError CrossError.unknownNative = .ok w ↔ _
  cases p.toValue knows with
  | error n => exact iff_of_false (fun built => by cases built) fun built => by cases built
  | ok u => exact ⟨fun same => congrArg Except.ok (Except.ok.inj same), fun same => congrArg Except.ok (Except.ok.inj same)⟩

/-- A value that is not a buffer. A snapshot of it is taken exactly if it is shareable, which is to say that no list, dict,
exception, buffer or host object occurs in it; otherwise one of these is named. A shareable value is taken in binary, and
nothing else is, whatever is asked for. What is rebuilt from the snapshot is that very value, and it is rebuilt exactly where
all native functions in it are known. -/
theorem binary_transfer (m : Machine) (source : Int) (v : Value) (notBuffer : ∀ bytes lease, v ≠ .buffer bytes lease) :
    ((∃ m' s, m.snapshot source v false = (m', .ok s)) ↔ v.isShareable = true) ∧
    (v.isShareable = true ↔ ∀ u : Value, u.Occurs v → u.isBlocker = false) ∧
    (v.isShareable = false → ∃ u : Value, u.Occurs v ∧ u.isBlocker = true ∧
      m.snapshot source v false = (m, .error (.noPortableForm u.typeName))) ∧
    (∀ full m' s, m.snapshot source v full = (m', .ok s) → m' = m ∧ s.source = source ∧
      ((∃ p, s.content = .binary p) ↔ v.isShareable = true)) ∧
    ∀ m' s, m.snapshot source v false = (m', .ok s) → ∀ knows w,
      s.toValue knows = .ok w ↔ w = v ∧ ∀ n, (Value.native n).Occurs v → knows n = true := by
  have shareable := isShareable_eq notBuffer
  rw [shareable]
  cases made : v.portable false with
  | ok p =>
    have taken := snapshot_of_portable m source notBuffer made
    refine ⟨iff_of_true ⟨m, _, taken false⟩ rfl, ?_, (fun blocked => by cases blocked), ?_, ?_⟩
    · rw [← made]
      exact portable_isOk_iff v
    · intro full m' s crossed
      obtain ⟨rfl, same⟩ := Prod.mk.inj ((taken full).symm.trans crossed)
      cases same
      exact ⟨rfl, rfl, iff_of_true ⟨p, rfl⟩ rfl⟩
    · intro m' s crossed knows w
      obtain ⟨rfl, same⟩ := Prod.mk.inj ((taken false).symm.trans crossed)
      cases same
      exact toValue_binary_iff made source knows w
  | error blocker =>
    obtain ⟨failed, inFull⟩ := snapshot_of_blocked m source notBuffer made
    have none_taken : ∀ m' s, m.snapshot source v false ≠ (m', .ok s) := by
      intro m' s taken
      rw [failed] at taken
      cases (Prod.mk.inj taken).2
    refine ⟨?_, ?_, fun _ => ?_, ?_, fun m' s taken => absurd taken (none_taken m' s)⟩
    · exact iff_of_false (fun ⟨m', s, taken⟩ => none_taken m' s taken) fun ok => by cases ok
    · rw [← made]
      exact portable_isOk_iff v
    · obtain ⟨u, occurs, blocks, rfl⟩ := blocker_of_portable v made
      exact ⟨u, occurs, blocks, failed⟩
    · intro full m' s taken
      cases full with
      | false => exact absurd taken (none_taken m' s)
      | true =>
        obtain ⟨rfl, p, rfl⟩ := inFull m' s taken
        exact ⟨rfl, rfl, iff_of_false (fun ⟨q, same⟩ => by cases same) fun ok => by cases ok⟩

/-- A builtin beside not-a-number and a function that defines another, two tuples deep. -/
def Value.bundle : Value :=
  let inner : FunctionDef := ⟨"g", "f.g", "m", 2, [⟨"x", some (.list [.int 1])⟩], [.act 3 (.ret (some (.name "x")))]⟩
  let outer : FunctionDef := ⟨"f", "f", "m", 1, [], [.define 2 inner, .act 4 (.ret (some (.call (.name "g") [] [])))]⟩
  .tuple [.native "len", .tuple [.float ⟨0x7ff8000000000000⟩, .function outer]]

/-- The bundle crosses with all statements and the list in a default value, and beside an empty list it does not. -/
theorem binary_transfer_bundle :
    (∃ s, Machine.snapshot {} 0 Value.bundle false = ({}, .ok s) ∧
      s.toValue (Machine.knows {}) = .ok Value.bundle ∧ ¬ ∃ w, s.toValue (fun _ => false) = .ok w) ∧
    Machine.snapshot {} 0 (.tuple [Value.bundle, .list []]) false = ({}, .error (.noPortableForm "list")) := by
  obtain ⟨takes, -, -, -, stands⟩ := binary_transfer {} 0 Value.bundle fun _ _ same => by cases same
  obtain ⟨m', s, taken⟩ := takes.2 rfl
  have len : (Value.native "len").Occurs Value.bundle := .tuple List.mem_cons_self .here
  have known : ∀ n, (Value.native n).Occurs Value.bundle → Machine.knows {} n = true := by
    intro n occurs
    have named : n ∈ Value.natives Value.bundle := mem_natives_iff.2 occurs
    obtain rfl : n = "len" := List.mem_singleton.1 named
    rfl
  obtain ⟨same, -⟩ := Prod.mk.inj (taken.symm.trans (snapshot_of_portable {} 0 (fun _ _ same => by cases same) rfl false))
  refine ⟨⟨s, same ▸ taken, (stands m' s taken _ _).2 ⟨rfl, known⟩, fun ⟨w, built⟩ => ?_⟩, rfl⟩
  cases ((stands m' s taken _ _).1 built).2 "len" len

end MonitoredVm
