import Mathlib.Data.List.Nodup
import MonitoredVm.Config

/-!
# Configurations and attribute mappings

The fields of a mapping are looked up one by one, in a copy, and counted; keys that name no field show only in the count that
is left. `readAttrs_ok_iff` says what a copy is that was read without complaint. Since the keys of a mapping differ, the count
left is that of the unknown keys (`unknown_count`).

Main statement: `mapping_applied`.
-/

namespace MonitoredVm

open List

namespace Bindings
variable {α : Type} {a b : Bindings α}

theorem mem_entries_iff (distinct : b.names.Nodup) : (key, v) ∈ b.entries ↔ b.get? key = some v := by
  obtain ⟨entries⟩ := b
  change (entries.map (·.1)).Nodup at distinct
  change (key, v) ∈ entries ↔ lookup key entries = some v
  induction entries with
  | nil => simp [lookup]
  | cons e rest ih =>
    obtain ⟨k, w⟩ := e
    obtain ⟨first, distinct⟩ := nodup_cons.1 distinct
    rw [lookup, mem_cons, Prod.mk.injEq]
    split
    next here =>
      subst here
      have absent : (k, v) ∉ rest := fun inside => first (mem_map.2 ⟨_, inside, rfl⟩)
      simp [absent, eq_comm]
    next other => simp [ih distinct, Ne.symm other]

theorem entries_perm_iff (of_a : a.names.Nodup) (of_b : b.names.Nodup) :
    a.entries.Perm b.entries ↔ ∀ key, a.get? key = b.get? key := by
  rw [perm_ext_iff_of_nodup of_a.of_map of_b.of_map]
  constructor
  · intro same key
    ext v
    rw [← mem_entries_iff of_a, ← mem_entries_iff of_b, same]
  · rintro same ⟨key, v⟩
    rw [mem_entries_iff of_a, mem_entries_iff of_b, same]

end Bindings

namespace Config

/-- The keys that name a field, in the order of a configuration's own mapping. -/
def fieldNames : List String := Flag.all.map Flag.name ++ ["gil"]

example : fieldNames = ["use_main_obmalloc", "allow_fork", "allow_exec", "allow_threads", "allow_daemon_threads",
    "check_multi_interp_extensions", "gil"] := rfl

/-- The keys that name no field. -/
def unknown (attrs : Namespace) : List String := attrs.names.filter (· ∉ fieldNames)

/-- What a mapping has under the names of fields can be set. -/
structure Suits (attrs : Namespace) : Prop where
  flag : ∀ (flag : Flag) v, attrs.get? flag.name = some v → ∃ b, v = .bool b
  gil : ∀ v, attrs.get? "gil" = some v → v = .str "default" ∨ v = .str "shared" ∨ v = .str "own"

/-- `c'` has the values of the mapping for the fields it names, and those of `c` for the others. -/
structure Overrides (attrs : Namespace) (c c' : Config) : Prop where
  flag : ∀ flag : Flag, .bool (c'.get flag) = (attrs.get? flag.name).getD (.bool (c.get flag))
  gil : .str c'.gil.name = (attrs.get? "gil").getD (.str c.gil.name)

theorem fieldNames_nodup : fieldNames.Nodup := by decide

theorem mem_all (flag : Flag) : flag ∈ Flag.all := by cases flag <;> decide

theorem mem_fieldNames : key ∈ fieldNames ↔ (∃ flag : Flag, flag.name = key) ∨ key = "gil" := by
  simp [fieldNames, mem_all]

theorem isField_iff (key : String) : isField key = true ↔ key ∈ fieldNames := by
  simp [isField, Flag.ofName?, mem_fieldNames, mem_all, or_comm]

theorem ext_fields {c c' : Config} (flags : ∀ flag, c.get flag = c'.get flag) (gil : c.gil = c'.gil) : c = c' := by
  have fork := flags .allowFork
  have exec := flags .allowExec
  have threads := flags .allowThreads
  have daemons := flags .allowDaemonThreads
  have extensions := flags .checkMultiInterpExtensions
  have obmalloc := flags .useMainObmalloc
  cases c
  cases c'
  simp_all [get]

theorem get_set (c : Config) (flag other : Flag) (b : Bool) :
    (c.set flag b).get other = if flag = other then b else c.get other := by
  cases flag <;> cases other <;> rfl

theorem gil_set (c : Config) (flag : Flag) (b : Bool) : (c.set flag b).gil = c.gil := by cases flag <;> rfl

theorem Overrides.unique {attrs : Namespace} {c c₁ c₂ : Config} (h₁ : Overrides attrs c c₁) (h₂ : Overrides attrs c c₂) :
    c₁ = c₂ := by
  refine ext_fields (fun flag => Value.bool.inj ((h₁.flag flag).trans (h₂.flag flag).symm)) ?_
  have names := Value.str.inj (h₁.gil.trans h₂.gil.symm)
  revert names
  cases c₁.gil <;> cases c₂.gil <;> decide

/-! ## Reading a mapping -/

section Read
variable {attrs : Namespace} {partly : Bool} {c c' : Config} {a a' : Applied}

/-- A copy with the flag that the mapping has, if it has one. -/
def override (attrs : Namespace) (c : Config) (flag : Flag) : Config :=
  match attrs.get? flag.name with
  | some (.bool b) => c.set flag b
  | _ => c

/-- A flag can be set from the mapping, or be left out. -/
def Admits (attrs : Namespace) (partly : Bool) (flag : Flag) : Prop :=
  (∀ v, attrs.get? flag.name = some v → ∃ b, v = .bool b) ∧ (partly = false → flag.name ∈ attrs.names)

theorem applyFlag_ok_iff : applyFlag attrs partly a flag = .ok a' ↔ Admits attrs partly flag ∧
    a' = ⟨override attrs a.config flag, a.used + ([flag.name].filter (· ∈ attrs.names)).length⟩ := by
  have named : (attrs.get? flag.name).isSome = true ↔ flag.name ∈ attrs.names := attrs.isSome_get?_iff
  unfold applyFlag Admits override
  cases found : attrs.get? flag.name with
  | none =>
    rw [found] at named
    cases partly with
    | false => simp [← named]
    | true => simpa [← named] using eq_comm
  | some v =>
    rw [found] at named
    cases v <;> simp [← named, eq_comm]

theorem foldlM_applyFlag_ok_iff {flags : List Flag} : flags.foldlM (applyFlag attrs partly) a = .ok a' ↔
    (∀ flag ∈ flags, Admits attrs partly flag) ∧ a' = ⟨flags.foldl (override attrs) a.config,
      a.used + ((flags.map Flag.name).filter (· ∈ attrs.names)).length⟩ := by
  induction flags generalizing a with
  | nil => simp [pure, Except.pure, eq_comm]
  | cons flag flags ih =>
    have step := @applyFlag_ok_iff attrs partly a
    rw [foldlM_cons, map_cons, ← singleton_append (l := flags.map Flag.name), filter_append, length_append, ← Nat.add_assoc,
      forall_mem_cons, and_assoc]
    cases first : applyFlag attrs partly a flag with
    | error e =>
      have refused : ¬ Admits attrs partly flag := fun admits => by
        cases first.symm.trans (step.2 ⟨admits, rfl⟩)
      exact ⟨fun ok => (by cases ok), fun both => absurd both.1 refused⟩
    | ok a₁ =>
      obtain ⟨admits, rfl⟩ := step.1 first
      rw [and_iff_right admits]
      exact ih

theorem get_foldl_override {flags : List Flag} (admits : ∀ flag ∈ flags, Admits attrs partly flag) (flag) :
    .bool ((flags.foldl (override attrs) c).get flag) =
      if flag ∈ flags then (attrs.get? flag.name).getD (.bool (c.get flag)) else .bool (c.get flag) := by
  induction flags generalizing c with
  | nil => rfl
  | cons first flags ih =>
    obtain ⟨⟨typed, -⟩, admits⟩ := forall_mem_cons.1 admits
    rw [foldl_cons, ih admits, override]
    cases found : attrs.get? first.name with
    | none => by_cases same : flag = first <;> simp_all
    | some v =>
      obtain ⟨b, rfl⟩ := typed v found
      by_cases same : flag = first <;> simp_all [get_set, Ne.symm]

theorem gil_foldl_override (flags : List Flag) (c) : (flags.foldl (override attrs) c).gil = c.gil := by
  induction flags generalizing c with
  | nil => rfl
  | cons flag flags ih =>
    rw [foldl_cons, ih, override]
    split
    · exact gil_set ..
    · rfl

/-- The lock mode that the mapping has, if it has one. -/
def overrideGil (attrs : Namespace) (gil : Gil) : Gil :=
  match attrs.get? "gil" with
  | some (.str s) => (Gil.ofName? s).getD gil
  | _ => gil

theorem applyGil_ok_iff : applyGil attrs partly a = .ok a' ↔
    ((∀ v, attrs.get? "gil" = some v → v = .str "default" ∨ v = .str "shared" ∨ v = .str "own") ∧
      (partly = false → "gil" ∈ attrs.names)) ∧
    a' = ⟨{ a.config with gil := overrideGil attrs a.config.gil },
      a.used + (["gil"].filter (· ∈ attrs.names)).length⟩ := by
  have named : (attrs.get? "gil").isSome = true ↔ "gil" ∈ attrs.names := attrs.isSome_get?_iff
  unfold applyGil overrideGil
  cases found : attrs.get? "gil" with
  | none =>
    rw [found] at named
    cases partly with
    | false => simp [← named]
    | true => simpa [← named] using eq_comm
  | some v =>
    rw [found] at named
    cases v with
    | str s =>
      cases known : Gil.ofName? s with
      | none =>
        have other : ∀ gil : Gil, s ≠ gil.name := fun gil same => by
          rw [same] at known
          cases gil <;> cases known
        have none_fits : ¬ (s = "default" ∨ s = "shared" ∨ s = "own") := by
          rintro (same | same | same)
          exacts [other .default same, other .shared same, other .own same]
        simp [known, none_fits]
      | some gil =>
        obtain rfl : gil.name = s := by simpa using find?_some known
        have fits : gil.name = "default" ∨ gil.name = "shared" ∨ gil.name = "own" := by cases gil <;> simp [Gil.name]
        simpa [known, fits, ← named] using eq_comm
    | _ => simp

/-- A copy with all the values that the mapping has for fields. -/
def overridden (attrs : Namespace) (c : Config) : Config :=
  { Flag.all.foldl (override attrs) c with gil := overrideGil attrs c.gil }

theorem readAttrs_ok_iff : c.readAttrs attrs partly = .ok a ↔
    (Suits attrs ∧ (partly = false → ∀ key ∈ fieldNames, key ∈ attrs.names)) ∧
      a = ⟨overridden attrs c, (fieldNames.filter (· ∈ attrs.names)).length⟩ := by
  have suits_iff : Suits attrs ∧ (partly = false → ∀ key ∈ fieldNames, key ∈ attrs.names) ↔
      (∀ flag ∈ Flag.all, Admits attrs partly flag) ∧
        (∀ v, attrs.get? "gil" = some v → v = .str "default" ∨ v = .str "shared" ∨ v = .str "own") ∧
        (partly = false → "gil" ∈ attrs.names) := by
    constructor
    · rintro ⟨suits, complete⟩
      exact ⟨fun flag _ => ⟨suits.flag flag, fun full => complete full _ (mem_fieldNames.2 (.inl ⟨flag, rfl⟩))⟩, suits.gil,
        fun full => complete full _ (mem_fieldNames.2 (.inr rfl))⟩
    · rintro ⟨admits, gil, locked⟩
      refine ⟨⟨fun flag => (admits flag (mem_all flag)).1, gil⟩, fun full key field => ?_⟩
      obtain ⟨flag, rfl⟩ | rfl := mem_fieldNames.1 field
      exacts [(admits flag (mem_all flag)).2 full, locked full]
  unfold readAttrs
  rw [suits_iff]
  cases flags : Flag.all.foldlM (applyFlag attrs partly) { config := c } with
  | error e =>
    have refused : ¬ ∀ flag ∈ Flag.all, Admits attrs partly flag := fun admits => by
      cases flags.symm.trans (foldlM_applyFlag_ok_iff.2 ⟨admits, rfl⟩)
    exact ⟨fun ok => (by cases ok), fun both => absurd both.1.1 refused⟩
  | ok a₁ =>
    obtain ⟨admits, rfl⟩ := foldlM_applyFlag_ok_iff.1 flags
    rw [and_iff_right admits]
    refine applyGil_ok_iff.trans ?_
    rw [fieldNames, filter_append, length_append, overridden, gil_foldl_override, Nat.zero_add]

theorem overrides_overridden (suits : Suits attrs) (c) : Overrides attrs c (overridden attrs c) := by
  constructor
  · intro flag
    have admits : ∀ flag ∈ Flag.all, Admits attrs true flag := fun flag _ => ⟨suits.flag flag, fun full => by cases full⟩
    have read := get_foldl_override (c := c) admits flag
    rw [if_pos (mem_all flag)] at read
    rw [← read]
    cases flag <;> rfl
  · change Value.str (overrideGil attrs c.gil).name = _
    unfold overrideGil
    cases found : attrs.get? "gil" with
    | none => rfl
    | some v => obtain rfl | rfl | rfl := suits.gil v found <;> rfl

/-! ## Applying it -/

theorem unknown_eq (attrs : Namespace) : (attrs.names.filter fun key => !isField key) = unknown attrs :=
  filter_congr fun key _ => by simp [← isField_iff]

/-- The fields that are named are as many as the keys that name one, since no key comes twice. -/
theorem unknown_count (distinct : attrs.names.Nodup) :
    attrs.size = (fieldNames.filter (· ∈ attrs.names)).length + (unknown attrs).length := by
  have known : (fieldNames.filter (· ∈ attrs.names)).Perm (attrs.names.filter (· ∈ fieldNames)) := by
    rw [perm_ext_iff_of_nodup (fieldNames_nodup.filter _) (distinct.filter _)]
    intro key
    simp [and_comm]
  have split := length_eq_length_filter_add (l := attrs.names) (· ∈ fieldNames)
  rw [known.length_eq, unknown]
  simpa [Bindings.size, Bindings.names] using split

/-- The copy takes the place of the configuration unless a value is refused or a key is left. -/
theorem on_applyAttrs (attrs partly c) : (applyAttrs attrs partly).on c = match c.readAttrs attrs partly with
    | .error e => (.error e, c)
    | .ok a =>
      if a.used < attrs.size then (.error (.extraItems (attrs.size - a.used) (unknown attrs)), c)
      else (.ok (), a.config) := by
  rw [← unknown_eq]
  dsimp only [Change.on, applyAttrs, ExceptT.run, bind, ExceptT.bind, ExceptT.mk, StateT.run, StateT.bind, getThe,
    MonadStateOf.get, liftM, monadLift, MonadLift.monadLift, ExceptT.lift, Functor.map, StateT.map, StateT.get, pure,
    StateT.pure, ExceptT.bindCont]
  cases c.readAttrs attrs partly with
  | error e => rfl
  | ok a =>
    dsimp only
    split <;> rfl

theorem unchanged_of_error (refused : (applyAttrs attrs partly).on c = (.error e, c')) : c' = c := by
  rw [on_applyAttrs] at refused
  split at refused
  next => exact (Prod.mk.inj refused).2.symm
  next =>
    split at refused
    · exact (Prod.mk.inj refused).2.symm
    · cases (Prod.mk.inj refused).1

section
variable (distinct : attrs.names.Nodup)
include distinct

theorem on_applyAttrs_of_suits (suits : Suits attrs) (complete : partly = false → ∀ key ∈ fieldNames, key ∈ attrs.names)
    (c) : (applyAttrs attrs partly).on c = if unknown attrs = [] then (.ok (), overridden attrs c)
      else (.error (.extraItems (unknown attrs).length (unknown attrs)), c) := by
  rw [on_applyAttrs, readAttrs_ok_iff.2 ⟨⟨suits, complete⟩, rfl⟩, unknown_count distinct]
  dsimp only
  rw [Nat.add_sub_cancel_left]
  by_cases none_there : unknown attrs = []
  · rw [if_pos none_there, none_there]
    exact if_neg (Nat.lt_irrefl _)
  · rw [if_neg none_there]
    exact if_pos (Nat.lt_add_of_pos_right (length_pos_iff.2 none_there))

/-- A mapping is accepted exactly if it names fields only, with values that suit them, and no field is missing. -/
theorem on_applyAttrs_ok_iff : (applyAttrs attrs partly).on c = (.ok (), c') ↔
    ((∀ key ∈ attrs.names, key ∈ fieldNames) ∧ Suits attrs ∧ (partly = false → ∀ key ∈ fieldNames, key ∈ attrs.names)) ∧
      c' = overridden attrs c := by
  have none_there : unknown attrs = [] ↔ ∀ key ∈ attrs.names, key ∈ fieldNames := by simp [unknown]
  rw [← none_there]
  by_cases fine : Suits attrs ∧ (partly = false → ∀ key ∈ fieldNames, key ∈ attrs.names)
  · rw [on_applyAttrs_of_suits distinct fine.1 fine.2]
    split
    next known => exact ⟨fun ok => ⟨⟨known, fine⟩, (Prod.mk.inj ok).2.symm⟩, fun both => by rw [both.2]⟩
    next other => simp [other]
  · refine ⟨fun ok => ?_, fun both => absurd both.1.2 fine⟩
    rw [on_applyAttrs] at ok
    split at ok
    next => cases (Prod.mk.inj ok).1
    next a attrs_read => exact absurd (readAttrs_ok_iff.1 attrs_read).1 fine

end
end Read

/-! ## A configuration's own mapping -/

section Attrs
variable {attrs : Namespace} {c c' : Config}

theorem get?_attrs_flag (c : Config) (flag : Flag) : c.attrs.get? flag.name = some (.bool (c.get flag)) := by
  cases flag <;> rfl

theorem overrides_attrs (c c' : Config) : Overrides c'.attrs c c' :=
  ⟨fun flag => by rw [get?_attrs_flag, Option.getD_some], rfl⟩

theorem fits_of_get? (same : ∀ key, c'.attrs.get? key = attrs.get? key) :
    (∀ key, key ∈ attrs.names ↔ key ∈ fieldNames) ∧ Suits attrs ∧ Overrides attrs c c' := by
  refine ⟨fun key => ?_, ⟨fun flag v found => ?_, fun v found => ?_⟩, ⟨fun flag => ?_, ?_⟩⟩
  · change _ ↔ key ∈ c'.attrs.names
    rw [← Bindings.isSome_get?_iff, ← Bindings.isSome_get?_iff, same]
  · rw [← same, get?_attrs_flag] at found
    exact ⟨_, (Option.some.inj found).symm⟩
  · rw [← same] at found
    obtain rfl := Option.some.inj found
    cases c'.gil <;> simp [Gil.name]
  · rw [← same]
    exact (overrides_attrs c c').flag flag
  · rw [← same]
    rfl

theorem ofAttrs_eq_ok_iff : ofAttrs attrs = .ok c ↔ (applyAttrs attrs false).on empty = (.ok (), c) := by
  unfold ofAttrs Change.result
  split <;> simp_all

theorem ofAttrs_ok_iff (distinct : attrs.names.Nodup) : ofAttrs attrs = .ok c ↔ c.attrs.entries.Perm attrs.entries := by
  rw [ofAttrs_eq_ok_iff, on_applyAttrs_ok_iff distinct, Bindings.entries_perm_iff (a := c.attrs) fieldNames_nodup distinct]
  constructor
  · rintro ⟨⟨known, suits, complete⟩, rfl⟩ key
    have overrides := overrides_overridden suits empty
    by_cases field : key ∈ fieldNames
    · obtain ⟨v, found⟩ := Option.isSome_iff_exists.1 (attrs.isSome_get?_iff.2 (complete rfl key field))
      rw [found]
      obtain ⟨flag, rfl⟩ | rfl := mem_fieldNames.1 field
      · rw [get?_attrs_flag, overrides.flag, found, Option.getD_some]
      · exact congrArg some (overrides.gil.trans (by rw [found, Option.getD_some]))
    · rw [(overridden attrs empty).attrs.get?_eq_none_iff.2 field, attrs.get?_eq_none_iff.2 (mt (known key) field)]
  · intro same
    obtain ⟨named, suits, overrides⟩ := fits_of_get? (c := empty) same
    exact ⟨⟨fun key => (named key).1, suits, fun _ key => (named key).2⟩,
      overrides.unique (overrides_overridden suits empty)⟩

end Attrs

/-- How mappings apply. A mapping with distinct keys, in any order, changes a configuration exactly if each key names a
field and each value suits its field; it then has the values of the mapping for the fields named and its own elsewhere, and
is left alone otherwise. A configuration is built from a mapping exactly if in addition all fields are named, and it is the
one whose own mapping has the same entries. Where nothing but unknown keys is at fault, they are counted. -/
theorem mapping_applied (attrs : Namespace) (distinct : attrs.names.Nodup) :
    (∀ c : Config,
      ((∃ c', (applyAttrs attrs true).on c = (.ok (), c')) ↔ (∀ key ∈ attrs.names, key ∈ fieldNames) ∧ Suits attrs) ∧
      (∀ c', (applyAttrs attrs true).on c = (.ok (), c') → Overrides attrs c c') ∧
      (∀ e c', (applyAttrs attrs true).on c = (.error e, c') → c' = c)) ∧
    ((∃ c, ofAttrs attrs = .ok c) ↔
      (∀ key ∈ attrs.names, key ∈ fieldNames) ∧ Suits attrs ∧ ∀ key ∈ fieldNames, key ∈ attrs.names) ∧
    (∀ c, ofAttrs attrs = .ok c ↔ c.attrs.entries.Perm attrs.entries) ∧
    (Suits attrs → unknown attrs ≠ [] → ∀ partly, (partly = false → ∀ key ∈ fieldNames, key ∈ attrs.names) → ∀ c,
      (applyAttrs attrs partly).on c = (.error (.extraItems (unknown attrs).length (unknown attrs)), c)) := by
  refine ⟨fun c => ⟨?_, fun c' ok => ?_, fun e c' => unchanged_of_error⟩, ?_, fun c => ofAttrs_ok_iff distinct,
    fun suits some_there partly complete c => ?_⟩
  · simp [on_applyAttrs_ok_iff distinct]
  · obtain ⟨⟨-, suits, -⟩, rfl⟩ := (on_applyAttrs_ok_iff distinct).1 ok
    exact overrides_overridden suits c
  · simp [ofAttrs_eq_ok_iff, on_applyAttrs_ok_iff distinct]
  · rw [on_applyAttrs_of_suits distinct suits complete, if_neg some_there]

/-- A flag, the lock mode and two keys that name no field: the mapping is refused for the two. -/
def strayMapping : Namespace := ⟨[("x", .int 1), ("gil", .str "own"), ("y", .none), ("allow_fork", .bool true)]⟩

theorem suits_strayMapping : Suits strayMapping where
  flag flag v found := by cases flag <;> cases found; exact ⟨true, rfl⟩
  gil v found := by
    cases found
    exact .inr (.inr rfl)

theorem mapping_applied_stray :
    strayMapping.names.Nodup ∧
      (applyAttrs strayMapping true).on legacy = (.error (.extraItems 2 ["x", "y"]), legacy) ∧
      legacy.attrs.names.reverse.Nodup ∧ ofAttrs ⟨legacy.attrs.entries.reverse⟩ = .ok legacy :=
  ⟨by decide, (mapping_applied strayMapping (by decide)).2.2.2 suits_strayMapping (by decide) true (fun full => by cases full) legacy,
    by decide, ((mapping_applied ⟨legacy.attrs.entries.reverse⟩ (by decide)).2.2.1 legacy).2 (reverse_perm _).symm⟩

end Config
end MonitoredVm
