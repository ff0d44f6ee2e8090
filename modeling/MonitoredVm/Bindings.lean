/-!
# Ordered bindings

A map from names that remembers the order in which the names were first bound: binding a known name replaces
its value in place, a new name goes to the end, removing one closes the gap.
-/

namespace MonitoredVm

/-- Names with their values, in binding order. -/
structure Bindings (α : Type) where
  entries : List (String × α) := []
  deriving Repr

namespace Bindings
variable {α β : Type}

instance : Inhabited (Bindings α) := ⟨{}⟩

def empty : Bindings α := {}

/-- The value of the first entry called `name`. -/
def lookup (name : String) : List (String × α) → Option α
  | [] => none
  | (k, v) :: rest => if k = name then some v else lookup name rest

def get? (b : Bindings α) (name : String) : Option α := lookup name b.entries

def contains (b : Bindings α) (name : String) : Bool := (b.get? name).isSome

/-- Replaces the value of `name` in place, or appends it. -/
def put (name : String) (value : α) : List (String × α) → List (String × α)
  | [] => [(name, value)]
  | (k, v) :: rest => if k = name then (k, value) :: rest else (k, v) :: put name value rest

def insert (b : Bindings α) (name : String) (value : α) : Bindings α := ⟨put name value b.entries⟩

/-- Removes `name`, keeping the order of the others. -/
def remove (name : String) : List (String × α) → List (String × α)
  | [] => []
  | (k, v) :: rest => if k = name then rest else (k, v) :: remove name rest

def erase (b : Bindings α) (name : String) : Bindings α := ⟨remove name b.entries⟩

def names (b : Bindings α) : List String := b.entries.map (·.1)

def values (b : Bindings α) : List α := b.entries.map (·.2)

def size (b : Bindings α) : Nat := b.entries.length

def isEmpty (b : Bindings α) : Bool := b.entries.isEmpty

def insertAll (b : Bindings α) (pairs : List (String × α)) : Bindings α :=
  pairs.foldl (fun b p => b.insert p.1 p.2) b

def ofList (pairs : List (String × α)) : Bindings α := empty.insertAll pairs

theorem get?_insert_any (b : Bindings α) (name other : String) (v : α) :
    (b.insert name v).get? other = if name = other then some v else b.get? other := by
  obtain ⟨entries⟩ := b
  change lookup other (put name v entries) = if name = other then some v else lookup other entries
  induction entries with
  | nil => rfl
  | cons e rest ih =>
    rw [put, lookup]
    split
    next same =>
      subst same
      rw [lookup]
      split <;> rfl
    next differs =>
      rw [lookup, ih]
      split
      next here => rw [if_neg (here ▸ fun same => differs same.symm)]
      next => rfl

theorem isSome_get?_iff (b : Bindings α) {name : String} : (b.get? name).isSome = true ↔ name ∈ b.names := by
  obtain ⟨entries⟩ := b
  change (lookup name entries).isSome = true ↔ name ∈ entries.map (·.1)
  induction entries with
  | nil => simp [lookup]
  | cons e rest ih =>
    rw [lookup, List.map_cons, List.mem_cons, ← ih]
    split
    next here => simp [here]
    next other => simp [Ne.symm other]

theorem get?_eq_none_iff (b : Bindings α) {name : String} : b.get? name = none ↔ name ∉ b.names := by
  rw [← isSome_get?_iff, ← Option.not_isSome_iff_eq_none]

theorem names_insert (b : Bindings α) (name : String) (v : α) :
    (b.insert name v).names = if name ∈ b.names then b.names else b.names ++ [name] := by
  obtain ⟨entries⟩ := b
  change (put name v entries).map (·.1) = if name ∈ entries.map (·.1) then entries.map (·.1) else entries.map (·.1) ++ [name]
  induction entries with
  | nil => rfl
  | cons e rest ih =>
    rw [put, List.map_cons]
    split
    · next here => rw [here, if_pos List.mem_cons_self, List.map_cons]
    · next other =>
      rw [List.map_cons, ih]
      simp only [List.mem_cons, Ne.symm other, false_or]
      split <;> rfl

/-- Names that are bound already keep their places, and new ones follow in order. -/
theorem names_insertAll (b : Bindings α) {pairs : List (String × α)} (distinct : (pairs.map (·.1)).Nodup) :
    (b.insertAll pairs).names = b.names ++ (pairs.map (·.1)).filter (· ∉ b.names) := by
  induction pairs generalizing b with
  | nil => exact (List.append_nil _).symm
  | cons p rest ih =>
    obtain ⟨first, distinct⟩ := List.nodup_cons.1 distinct
    change ((b.insert p.1 p.2).insertAll rest).names = _
    rw [ih _ distinct, names_insert, List.map_cons]
    split
    · next bound => rw [List.filter_cons_of_neg (by simpa using bound)]
    · next new =>
      rw [List.filter_cons_of_pos (by simpa using new), List.append_assoc, List.singleton_append]
      congr 2
      refine List.filter_congr fun name inside => ?_
      have other : name ≠ p.1 := by
        rintro rfl
        exact first inside
      simp [other]

theorem get?_insertAll_of_not_mem (b : Bindings α) {pairs : List (String × α)} {name : String} (absent : name ∉ pairs.map (·.1)) :
    (b.insertAll pairs).get? name = b.get? name := by
  induction pairs generalizing b with
  | nil => rfl
  | cons p rest ih =>
    rw [List.map_cons, List.mem_cons, not_or] at absent
    exact (ih (b.insert p.1 p.2) absent.2).trans ((get?_insert_any b p.1 name p.2).trans (if_neg (Ne.symm absent.1)))

theorem get?_insertAll_of_mem (b : Bindings α) {pairs : List (String × α)} (distinct : (pairs.map (·.1)).Nodup)
    {p : String × α} (inside : p ∈ pairs) : (b.insertAll pairs).get? p.1 = some p.2 := by
  induction pairs generalizing b with
  | nil => cases inside
  | cons first rest ih =>
    obtain ⟨absent, distinct⟩ := List.nodup_cons.1 distinct
    obtain rfl | later := List.mem_cons.1 inside
    · exact (get?_insertAll_of_not_mem (b.insert p.1 p.2) absent).trans ((get?_insert_any b p.1 p.1 p.2).trans (if_pos rfl))
    · exact ih (b.insert first.1 first.2) distinct later

end Bindings
end MonitoredVm
