import MonitoredVm.Monitoring.LineTable
import MonitoredVm.Proofs.Grid

/-!
# Line tables byte by byte

Entries do not overlap, so that a line table is known by its words and its marks (`Shows`), and each change of a table
within its bounds changes one of these at one unit (`Shows.keep`, `Shows.mark`). A table that is filled shows the words of
its instructions, cut to the size of an entry, and its line starts (`shows_fill`). What can stop the filling is one sum that
overflows: the distance of a line is increased by two, and the two largest distances that fit a signed word
do not leave room for it (`fill_eq_error_iff`).
-/

namespace MonitoredVm

open List

/-- The unit whose entry a change is about. -/
def LineEdit.unit : LineEdit → Nat
  | .keep i _ | .mark i | .markLined i => i

namespace LineTable
variable {code : Code} {t : LineTable}

/-! ## Bytes of a word -/

theorem length_toBytes (count word) : (toBytes count word).length = count := by
  induction count generalizing word with
  | zero => rfl
  | succ count ih => rw [toBytes, length_cons, ih]

theorem ofBytes_toBytes (count word) : ofBytes (toBytes count word) = word % 1 <<< (8 * count) := by
  induction count generalizing word with
  | zero => simp [toBytes, ofBytes, Nat.mod_one]
  | succ count ih =>
    have room : 1 <<< (8 * (count + 1)) = 0x100 * 1 <<< (8 * count) := by
      rw [Nat.mul_add, Nat.shiftLeft_add, Nat.shiftLeft_eq (1 <<< (8 * count)), Nat.mul_comm]
    rw [toBytes, ofBytes, ih, room, Nat.mod_mul]
    simp

theorem size_put (a : Array UInt8) (start bytes) : (put a start bytes).size = a.size := by
  induction bytes generalizing a start with
  | nil => rfl
  | cons byte rest ih => rw [put, ih, Array.size_setIfInBounds]

theorem getElem?_put (a : Array UInt8) (start) (bytes : List UInt8) (room : start + bytes.length ≤ a.size) (k) :
    (put a start bytes)[k]? = if start ≤ k ∧ k < start + bytes.length then bytes[k - start]? else a[k]? := by
  induction bytes generalizing a start with
  | nil =>
    rw [if_neg fun within => Nat.not_lt_of_le within.1 within.2]
    rfl
  | cons byte rest ih =>
    rw [length_cons] at room
    rw [put, ih _ _ (by rw [Array.size_setIfInBounds]; omega), length_cons]
    by_cases here : k = start
    · subst here
      rw [if_neg (by omega), if_pos (by omega), Array.getElem?_setIfInBounds_self_of_lt (by omega), Nat.sub_self,
        getElem?_cons_zero]
    · rw [Array.getElem?_setIfInBounds_ne (Ne.symm here)]
      by_cases later : start + 1 ≤ k ∧ k < start + 1 + rest.length
      · rw [if_pos later, if_pos (by omega), show k - start = (k - (start + 1)) + 1 by omega, getElem?_cons_succ]
      · rw [if_neg later, if_neg (by omega)]

theorem write_ok {start bytes} (room : start + bytes.length ≤ t.bytes.size) :
    t.write start bytes = .ok { t with bytes := put t.bytes start bytes } := if_pos room

/-! ## Entries -/

theorem slice_put_self (a : Array UInt8) (start) (bytes : List UInt8) (room : start + bytes.length ≤ a.size) :
    slice (put a start bytes) start bytes.length = bytes := by
  refine ext_getElem (by simp [slice]) fun k lt lt' => ?_
  simp only [slice, getElem_map, getElem_range', Nat.one_mul]
  rw [getElem?_put a start bytes room, if_pos (by omega), Nat.add_sub_cancel_left, getElem?_eq_getElem lt',
    Option.getD_some]

theorem slice_put_apart (a : Array UInt8) (start) (bytes : List UInt8) (room : start + bytes.length ≤ a.size)
    {other count} (apart : other + count ≤ start ∨ start + bytes.length ≤ other) :
    slice (put a start bytes) other count = slice a other count := by
  refine map_congr_left fun k mem => ?_
  obtain ⟨least, most⟩ := mem_range'_1.1 mem
  rw [getElem?_put a start bytes room, if_neg (by omega)]

def word (t : LineTable) (i : Nat) : Nat := ofBytes (slice t.bytes (i * t.entry + 1) (t.entry - 1))

/-- The table has an entry for each unit, with these words and these line starts. -/
structure Shows (t : LineTable) (entry units : Nat) (words : Nat → Nat) (starts : Nat → Bool) : Prop where
  entry_eq : t.entry = entry
  size_eq : t.bytes.size = units * entry
  word_eq : ∀ i < units, t.word i = words i
  start_eq : ∀ i < units, t.startsLine i = starts i

variable {entry units : Nat} {words : Nat → Nat} {starts : Nat → Bool}

theorem Shows.congr (h : t.Shows entry units words starts) (word : ∀ i, words i = words' i)
    (start : ∀ i, starts i = starts' i) : t.Shows entry units words' starts' :=
  ⟨h.entry_eq, h.size_eq, fun i lt => (h.word_eq i lt).trans (word i), fun i lt => (h.start_eq i lt).trans (start i)⟩

theorem entry_le (entry : Nat) (lt : i < j) : i * entry + entry ≤ j * entry := by
  calc i * entry + entry = (i + 1) * entry := (Nat.succ_mul i entry).symm
    _ ≤ j * entry := Nat.mul_le_mul_right entry lt

theorem Shows.put_word (h : t.Shows entry units words starts) (wide : 0 < entry) (inside : i < units) {bytes}
    (fits : bytes.length = entry - 1) :
    { t with bytes := put t.bytes (i * entry + 1) bytes : LineTable }.Shows entry units
      (fun j => if j = i then ofBytes bytes else words j) starts := by
  have within := entry_le entry inside
  have room : i * entry + 1 + bytes.length ≤ t.bytes.size := by rw [h.size_eq]; omega
  refine ⟨h.entry_eq, by rw [size_put, h.size_eq], fun j lt => ?_, fun j lt => ?_⟩
  · rw [word, h.entry_eq, ← fits]
    split
    · next same => rw [same, slice_put_self _ _ _ room]
    · next other =>
      rw [slice_put_apart _ _ _ room ?_, ← h.word_eq j lt, word, h.entry_eq, fits]
      rcases Nat.lt_or_gt_of_ne other with before | after
      · exact .inl (by have := entry_le entry before; omega)
      · exact .inr (by have := entry_le entry after; omega)
  · rw [← h.start_eq j lt, startsLine, startsLine, h.entry_eq, getElem?_put _ _ _ room, if_neg]
    rintro ⟨least, most⟩
    rcases Nat.lt_trichotomy j i with before | same | after
    · have := entry_le entry before; omega
    · rw [same] at least; omega
    · have := entry_le entry after; omega

theorem Shows.put_mark (h : t.Shows entry units words starts) (wide : 0 < entry) (inside : i < units) (byte : UInt8) :
    { t with bytes := put t.bytes (i * entry) [byte] : LineTable }.Shows entry units words
      (fun j => if j = i then byte != 0 else starts j) := by
  have within := entry_le entry inside
  have room : i * entry + [byte].length ≤ t.bytes.size := by rw [h.size_eq, length_singleton]; omega
  refine ⟨h.entry_eq, by rw [size_put, h.size_eq], fun j lt => ?_, fun j lt => ?_⟩
  · rw [← h.word_eq j lt, word, word, h.entry_eq, slice_put_apart _ _ _ room]
    rw [length_singleton]
    rcases Nat.lt_or_ge j i with before | after
    · exact .inl (by have := entry_le entry before; omega)
    · exact .inr (by have := Nat.mul_le_mul_right entry after; omega)
  · rw [startsLine, h.entry_eq, getElem?_put _ _ _ room, length_singleton]
    by_cases same : j = i
    · simp [same]
    · rw [if_neg same, if_neg, ← h.start_eq j lt, startsLine, h.entry_eq]
      rintro ⟨least, most⟩
      exact same (Nat.eq_of_mul_eq_mul_right wide (by omega))

/-! ## Words -/

theorem signed_ok (least : -0x80000000 ≤ n) (most : n < 0x80000000) : signed n = .ok n := if_pos ⟨least, most⟩

theorem signed_overflow (most : 0x80000000 ≤ n) : signed n = .error .overflow :=
  if_neg fun fits => absurd fits.2 (by omega)

/-- The word kept for a line, before it is cut to the size of an entry. -/
def wordFor (code : Code) (line : Option UInt32) : Nat := (distanceFor code line - noLine).toNat

theorem noLine_eq : noLine = -2 := rfl

/-- The distance of a line is kept if it is not above the one before the first and fits a signed word. -/
theorem distanceFor_some (code : Code) (line : UInt32) : distanceFor code (some line) =
    if code.firstLine.toNat ≤ line.toNat + 1 ∧ line.toNat < code.firstLine.toNat + 0x80000000 then
      (line.toNat : Int) - code.firstLine.toNat else noLine := by
  have far := noLine_eq
  have unfolded : distanceFor code (some line) =
      ((signed (line.toNat - code.firstLine.toNat)).toOption.filter (noLine < ·)).getD noLine := rfl
  rw [unfolded, signed]
  by_cases fits : (-0x80000000 : Int) ≤ line.toNat - code.firstLine.toNat ∧
    (line.toNat : Int) - code.firstLine.toNat < 0x80000000
  · rw [if_pos fits]
    by_cases least : noLine < (line.toNat : Int) - code.firstLine.toNat
    · rw [if_pos (by omega)]
      simp [Except.toOption, Option.filter, least]
    · rw [if_neg (by omega)]
      simp [Except.toOption, Option.filter, least]
  · have below := code.firstLine.toNat_lt
    rw [if_neg fits, if_neg (by omega)]
    rfl

theorem noLine_le_distanceFor (code line) : noLine ≤ distanceFor code line ∧ distanceFor code line < 0x80000000 := by
  have far := noLine_eq
  cases line with
  | none => exact ⟨Int.le_refl _, show noLine < 0x80000000 by omega⟩
  | some line =>
    rw [distanceFor_some]
    split <;> omega

def distanceOf (word : Nat) : Int := if word < 0x80000000 then word + noLine else noLine

theorem distance_eq (t : LineTable) (i) : t.distance i =
    .ok (((t.read? (i * t.entry + 1) (t.entry - 1)).map fun bytes => distanceOf (ofBytes bytes)).getD noLine) := by
  have far := noLine_eq
  rw [distance]
  cases t.read? (i * t.entry + 1) (t.entry - 1) with
  | none => rfl
  | some bytes =>
    rw [Option.map_some, Option.getD_some, distanceOf]
    dsimp only
    split
    · exact signed_ok (by omega) (by omega)
    · rfl

section
variable (h : t.Shows entry units words starts) (wide : 0 < entry) {i} (inside : i < units)
include h wide inside

theorem Shows.read? :
    t.read? (i * t.entry + 1) (t.entry - 1) = some (slice t.bytes (i * t.entry + 1) (t.entry - 1)) := by
  have within := entry_le entry inside
  have room : i * t.entry + 1 + (t.entry - 1) ≤ t.bytes.size := by rw [h.size_eq, h.entry_eq]; omega
  exact if_pos room

theorem Shows.distance :
    t.distance i = .ok (distanceOf (words i)) := by
  rw [distance_eq, h.read? wide inside, ← h.word_eq i inside]
  rfl

/-! ## Filling -/

theorem Shows.keep (least : noLine ≤ d) (most : d - noLine < 0x80000000) : ∃ t', t.keep i d = .ok t' ∧
      t'.Shows entry units (fun j => if j = i then (d - noLine).toNat % 1 <<< (8 * (entry - 1)) else words j) starts := by
  obtain rfl := h.entry_eq
  have within := entry_le t.entry inside
  have length := length_toBytes (t.entry - 1) (d - noLine).toNat
  have room : i * t.entry + 1 + (toBytes (t.entry - 1) (d - noLine).toNat).length ≤ t.bytes.size := by
    rw [length, h.size_eq]
    omega
  have changed := h.put_word wide inside length
  rw [ofBytes_toBytes] at changed
  refine ⟨_, ?_, changed⟩
  rw [LineTable.keep, signed_ok (by omega) most]
  exact write_ok room

end

theorem Shows.mark (code : Code) (h : t.Shows entry units words starts) (wide : 0 < entry) (inside : i < units) :
    ∃ t', t.mark code i = .ok t' ∧
      t'.Shows entry units words (fun j => if j = i then (code.opcodeAt i).byte != 0 else starts j) := by
  obtain rfl := h.entry_eq
  have within := entry_le t.entry inside
  have room : i * t.entry + [(code.opcodeAt i).byte].length ≤ t.bytes.size := by
    rw [length_singleton, h.size_eq]
    omega
  refine ⟨_, ?_, h.put_mark wide inside _⟩
  exact write_ok room

/-- The line of a unit lies so far below the first that its word overflows. -/
def Overflows (code : Code) (i : Nat) : Prop := 0x80000000 ≤ wordFor code (code.line i)

/-- Keeps the lines of some units. -/
def keeps (code : Code) (offsets : List Nat) : List LineEdit :=
  offsets.map fun i => .keep i (distanceFor code (code.line i))

theorem Shows.keeps (h : t.Shows entry units words starts) (wide : 0 < entry) (offsets)
    (inside : ∀ i ∈ offsets, i < units) (fits : ∀ i ∈ offsets, ¬ Overflows code i) :
    ∃ t', (keeps code offsets).foldlM (apply code) t = .ok t' ∧ t'.Shows entry units
      (fun i => if i ∈ offsets then wordFor code (code.line i) % 1 <<< (8 * (entry - 1)) else words i) starts := by
  induction offsets generalizing t words with
  | nil => exact ⟨t, rfl, by simpa using h⟩
  | cons i rest ih =>
    have small : ¬ 0x80000000 ≤ wordFor code (code.line i) := fits i mem_cons_self
    have least := (noLine_le_distanceFor code (code.line i)).1
    obtain ⟨t₁, kept, h₁⟩ := h.keep wide (inside i mem_cons_self) least (by unfold wordFor at small; omega)
    obtain ⟨t₂, run, h₂⟩ := ih h₁ (fun j mem => inside j (mem_cons_of_mem i mem))
      fun j mem => fits j (mem_cons_of_mem i mem)
    refine ⟨t₂, ?_, ?_⟩
    · rw [LineTable.keeps, map_cons, foldlM_cons, apply, kept]
      exact run
    · refine h₂.congr (fun j => ?_) fun _ => rfl
      by_cases here : j = i
      · simp [here, wordFor]
      · simp [here]

theorem keeps_overflow (h : t.Shows entry units words starts) (wide : 0 < entry) (offsets)
    (inside : ∀ i ∈ offsets, i < units) (far : ∃ i ∈ offsets, Overflows code i) :
    (keeps code offsets).foldlM (apply code) t = .error .overflow := by
  induction offsets generalizing t words with
  | nil =>
    obtain ⟨i, mem, -⟩ := far
    cases mem
  | cons i rest ih =>
    rw [keeps, map_cons, foldlM_cons, apply]
    by_cases big : Overflows code i
    · unfold Overflows wordFor at big
      rw [keep, signed_overflow (by omega)]
      rfl
    · have least := (noLine_le_distanceFor code (code.line i)).1
      obtain ⟨t₁, kept, h₁⟩ := h.keep wide (inside i mem_cons_self) least
        (by unfold Overflows wordFor at big; omega)
      rw [kept]
      refine ih h₁ (fun j mem => inside j (mem_cons_of_mem i mem)) ?_
      obtain ⟨j, mem, far⟩ := far
      refine ⟨j, (mem_cons.1 mem).resolve_left ?_, far⟩
      rintro rfl
      exact big far

/-- The unit with a word has a line. -/
def lined (words : Nat → Nat) (i : Nat) : Bool := distanceOf (words i) != noLine

theorem Shows.marks (code : Code) (h : t.Shows entry units words starts) (wide : 0 < entry) (changes : List Nat)
    (inside : ∀ i ∈ changes, i < units) : ∃ t', (changes.map .mark).foldlM (apply code) t = .ok t' ∧
      t'.Shows entry units words (fun i => if i ∈ changes then (code.opcodeAt i).byte != 0 else starts i) := by
  induction changes generalizing t starts with
  | nil => exact ⟨t, rfl, by simpa using h⟩
  | cons i rest ih =>
    obtain ⟨t₁, marked, h₁⟩ := h.mark code wide (inside i mem_cons_self)
    obtain ⟨t₂, run, h₂⟩ := ih h₁ fun j mem => inside j (mem_cons_of_mem i mem)
    refine ⟨t₂, ?_, h₂.congr (fun _ => rfl) fun j => ?_⟩
    · rw [map_cons, foldlM_cons, apply, marked]
      exact run
    · by_cases here : j = i
      · simp [here]
      · simp [here]

theorem Shows.apply_markLined (code : Code) (h : t.Shows entry units words starts) (wide : 0 < entry)
    (inside : i < units) : apply code t (.markLined i) = if lined words i then t.mark code i else .ok t := by
  have run : apply code t (.markLined i) = if distanceOf (words i) = noLine then .ok t else t.mark code i := by
    rw [apply, h.distance wide inside]
    rfl
  rw [run, lined]
  by_cases none : distanceOf (words i) = noLine
  · simp [none]
  · simp [none]

theorem Shows.foldlM_markLined (code) (h : t.Shows entry units words starts) (wide : 0 < entry) (targets : List Nat)
    (inside : ∀ i ∈ targets, i < units) : (targets.map .markLined).foldlM (apply code) t =
      ((targets.filter (lined words)).map .mark).foldlM (apply code) t := by
  induction targets generalizing t starts with
  | nil => rfl
  | cons i rest ih =>
    have later : ∀ j ∈ rest, j < units := fun j mem => inside j (mem_cons_of_mem i mem)
    have here := inside i mem_cons_self
    rw [map_cons, foldlM_cons, h.apply_markLined code wide here, filter_cons]
    split
    · obtain ⟨t₁, marked, h₁⟩ := h.mark code wide here
      rw [map_cons, foldlM_cons, apply, marked]
      exact ih h₁ later
    · exact ih h later

/-! ## Filled tables -/

theorem two_le_entryFor (d) : 2 ≤ entryFor d := by
  unfold entryFor
  split
  · decide
  · split
    · decide
    · split <;> decide

theorem shows_blank (code : Code) :
    (blank code).Shows (entryFor (span code)) code.size (fun _ => 0) fun _ => false := by
  have zero : ∀ k : Nat, (((blank code).bytes)[k]?).getD 0 = 0 := by
    intro k
    rw [blank, Array.getElem?_replicate]
    split <;> rfl
  have zeros : ∀ (count start : Nat), ofBytes (slice (blank code).bytes start count) = 0 := by
    intro count
    induction count with
    | zero => exact fun _ => rfl
    | succ count ih =>
      intro start
      have rest : ofBytes ((List.range' (start + 1) count).map fun k => (((blank code).bytes)[k]?).getD 0) = 0 := ih (start + 1)
      rw [slice, range'_succ, map_cons, ofBytes, rest, zero]
      rfl
  exact ⟨rfl, Array.size_replicate, fun i _ => zeros _ _, fun i _ => by rw [startsLine, zero]; rfl⟩

/-- The words of a table, cut to the size of an entry. -/
def wordsOf (code : Code) (i : Nat) : Nat :=
  if i ∈ code.offsetsFrom 0 then wordFor code (code.line i) % 1 <<< (8 * (entryFor (span code) - 1)) else 0

/-- The units that start lines. -/
def startsOf (code : Code) : List Nat :=
  lineChanges code (code.offsetsFrom 0) none ++ (jumpTargets code ++ handlerTargets code).filter (lined (wordsOf code))

theorem mem_of_mem_lineChanges (mem : i ∈ lineChanges code offsets current) :
    i ∈ offsets ∧ (code.line i).isSome = true := by
  induction offsets generalizing current with
  | nil => cases mem
  | cons j rest ih =>
    have later : ∀ {current : Option UInt32}, i ∈ lineChanges code rest current →
        i ∈ j :: rest ∧ (code.line i).isSome = true := fun mem => (ih mem).imp_left (mem_cons_of_mem j)
    rw [lineChanges] at mem
    split at mem
    · exact later mem
    · dsimp only at mem
      split at mem
      · next changes =>
        rcases mem_cons.1 mem with rfl | mem
        · exact ⟨mem_cons_self, (Bool.and_eq_true_iff.1 changes).1⟩
        · exact later mem
      · exact later mem

theorem lt_of_mem_targets (mem : i ∈ jumpTargets code ++ handlerTargets code) : i < code.size := by
  rcases mem_append.1 mem with jump | handler
  · exact of_decide_eq_true (Bool.and_eq_true_iff.1 (mem_filter.1 jump).2).1
  · exact of_decide_eq_true (Bool.and_eq_true_iff.1 (mem_filter.1 handler).2).1

theorem fill_eq (code : Code) : fill code =
    (keeps code (code.offsetsFrom 0)).foldlM (apply code) (blank code) >>= fun t =>
      ((lineChanges code (code.offsetsFrom 0) none).map LineEdit.mark ++
        (jumpTargets code ++ handlerTargets code).map LineEdit.markLined).foldlM (apply code) t :=
  foldlM_append ..

/-- A code object none of whose lines overflows has a table, with the words of its instructions and its line starts. -/
theorem shows_fill (fits : ∀ i ∈ code.offsetsFrom 0, ¬ Overflows code i) : ∃ t, fill code = .ok t ∧
    t.Shows (entryFor (span code)) code.size (wordsOf code)
      fun i => decide (i ∈ startsOf code) && (code.opcodeAt i).byte != 0 := by
  have wide : 0 < entryFor (span code) := Nat.lt_of_lt_of_le (by decide) (two_le_entryFor _)
  have grid : ∀ i ∈ code.offsetsFrom 0, i < code.size := fun i mem => Code.lt_of_mem_offsetsFrom mem
  have changes : ∀ i ∈ lineChanges code (code.offsetsFrom 0) none, i < code.size :=
    fun i mem => grid i (mem_of_mem_lineChanges mem).1
  have inside : ∀ i ∈ startsOf code, i < code.size := by
    intro i mem
    exact (mem_append.1 mem).elim (changes i) fun target => lt_of_mem_targets (mem_filter.1 target).1
  obtain ⟨t₁, kept, h₁⟩ := (shows_blank code).keeps wide (code.offsetsFrom 0) grid fits
  have h₁ : t₁.Shows (entryFor (span code)) code.size (wordsOf code) fun _ => false := h₁
  obtain ⟨t₂, changed, h₂⟩ := h₁.marks code wide _ changes
  obtain ⟨t₃, marked, h₃⟩ := h₁.marks code wide _ inside
  refine ⟨t₃, ?_, h₃.congr (fun _ => rfl) fun i => by split <;> simp [*]⟩
  rw [startsOf, map_append, foldlM_append, changed] at marked
  have targets := h₂.foldlM_markLined code wide (jumpTargets code ++ handlerTargets code) fun i => lt_of_mem_targets
  have marked : ((jumpTargets code ++ handlerTargets code).map .markLined).foldlM (apply code) t₂ = .ok t₃ :=
    targets.trans marked
  rw [fill_eq, kept]
  refine (foldlM_append ..).trans ?_
  rw [changed]
  exact marked

/-! ## Faults -/

theorem overflows_iff : Overflows code i ↔ ∃ line, code.line i = some line ∧
    (line.toNat = code.firstLine.toNat + 0x7ffffffe ∨ line.toNat = code.firstLine.toNat + 0x7fffffff) := by
  have far := noLine_eq
  unfold Overflows wordFor
  cases code.line i with
  | none => simp [distanceFor]
  | some line =>
    simp only [distanceFor_some, Option.some.injEq, exists_eq_left']
    split <;> omega

theorem fill_eq_error_iff :
    fill code = .error fault ↔ fault = .overflow ∧ ∃ i ∈ code.offsetsFrom 0, Overflows code i := by
  by_cases far : ∃ i ∈ code.offsetsFrom 0, Overflows code i
  · have wide : 0 < entryFor (span code) := Nat.lt_of_lt_of_le (by decide) (two_le_entryFor _)
    have stops : fill code = .error .overflow := by
      rw [fill_eq, keeps_overflow (shows_blank code) wide _ (fun i mem => Code.lt_of_mem_offsetsFrom mem) far]
      rfl
    rw [stops]
    exact ⟨fun same => ⟨(Except.error.inj same).symm, far⟩, fun same => same.1 ▸ rfl⟩
  · obtain ⟨t, filled, -⟩ := shows_fill fun i mem big => far ⟨i, mem, big⟩
    rw [filled]
    exact ⟨fun stops => (nomatch stops), fun stops => absurd stops.2 far⟩

theorem apply_cases (code) (t : LineTable) (wide : 0 < t.entry) (edit : LineEdit) :
    apply code t edit = .error .overflow ∨ apply code t edit = .ok t ∨
      ∃ start bytes, apply code t edit = t.write start bytes ∧ edit.unit * t.entry ≤ start ∧
        start + bytes.length ≤ (edit.unit + 1) * t.entry := by
  have marks : ∀ i, i * t.entry + [(code.opcodeAt i).byte].length ≤ (i + 1) * t.entry := by
    intro i
    rw [length_singleton, Nat.succ_mul]
    omega
  cases edit with
  | keep i d =>
    rw [apply, keep]
    by_cases fits : (-0x80000000 : Int) ≤ d - noLine ∧ d - noLine < 0x80000000
    · rw [signed_ok fits.1 fits.2]
      refine .inr (.inr ⟨_, _, rfl, Nat.le_succ _, ?_⟩)
      rw [length_toBytes, LineEdit.unit, Nat.succ_mul]
      omega
    · exact .inl (by rw [signed, if_neg fits]; rfl)
  | mark i => exact .inr (.inr ⟨_, _, rfl, Nat.le_refl _, marks i⟩)
  | markLined i =>
    rw [apply, distance_eq]
    generalize (Option.map _ _).getD noLine = d
    by_cases none : d = noLine
    · exact .inr (.inl (if_pos none))
    · exact .inr (.inr ⟨_, _, if_neg none, Nat.le_refl _, marks i⟩)

theorem unit_lt (mem : edit ∈ edits code) : edit.unit < code.size := by
  rcases mem_append.1 mem with keep | mark
  · obtain ⟨i, offset, rfl⟩ := mem_map.1 keep
    exact Code.lt_of_mem_offsetsFrom offset
  rcases mem_append.1 mark with change | target
  · obtain ⟨i, changes, rfl⟩ := mem_map.1 change
    exact Code.lt_of_mem_offsetsFrom (mem_of_mem_lineChanges changes).1
  · obtain ⟨i, leads, rfl⟩ := mem_map.1 target
    exact lt_of_mem_targets leads

theorem shape_of_apply (wide : 0 < t.entry) (ok : apply code t edit = .ok t') :
    t'.entry = t.entry ∧ t'.bytes.size = t.bytes.size := by
  rcases apply_cases code t wide edit with fault | same | ⟨start, bytes, written, -⟩
  · rw [fault] at ok
    cases ok
  · rw [same] at ok
    cases ok
    exact ⟨rfl, rfl⟩
  · rw [written, write] at ok
    split at ok
    · cases ok
      exact ⟨rfl, size_put ..⟩
    · cases ok

theorem shape_of_foldlM (wide : 0 < t.entry) {front : List LineEdit} {t' : LineTable}
    (ok : front.foldlM (apply code) t = .ok t') : t'.entry = t.entry ∧ t'.bytes.size = t.bytes.size := by
  induction front generalizing t with
  | nil =>
    cases ok
    exact ⟨rfl, rfl⟩
  | cons edit rest ih =>
    rw [foldlM_cons] at ok
    cases first : apply code t edit with
    | error fault =>
      rw [first] at ok
      cases ok
    | ok t₁ =>
      rw [first] at ok
      have shape := shape_of_apply wide first
      have later := ih (by rw [shape.1]; exact wide) ok
      exact ⟨later.1.trans shape.1, later.2.trans shape.2⟩

/-- Each change is about an entry inside the table as it is by then, and writes or reads nothing outside. -/
theorem inside_of_edits {front back : List LineEdit} {edit : LineEdit} (split_eq : edits code = front ++ edit :: back)
    (run : front.foldlM (apply code) (blank code) = .ok t) :
    (edit.unit + 1) * t.entry ≤ t.bytes.size ∧ apply code t edit ≠ .error .outside ∧
      (t.read? (edit.unit * t.entry + 1) (t.entry - 1)).isSome = true := by
  have wide : 0 < (blank code).entry := Nat.lt_of_lt_of_le (by decide) (two_le_entryFor _)
  obtain ⟨entry, size⟩ := shape_of_foldlM wide run
  rw [← entry] at wide
  have unit : edit.unit < code.size := unit_lt (by rw [split_eq]; simp)
  have inside : (edit.unit + 1) * t.entry ≤ t.bytes.size := by
    rw [size, entry]
    exact Nat.le_trans (Nat.mul_le_mul_right _ unit) (Nat.le_of_eq (shows_blank code).size_eq.symm)
  refine ⟨inside, fun fault => ?_, ?_⟩
  · rcases apply_cases code t wide edit with overflow | same | ⟨start, bytes, written, -, most⟩
    · rw [overflow] at fault
      cases fault
    · rw [same] at fault
      cases fault
    · rw [written, write_ok (Nat.le_trans most inside)] at fault
      cases fault
  · rw [Nat.succ_mul] at inside
    rw [read?, if_pos (by omega)]
    rfl

/-- Filling a line table stays in range but for one sum, and that exactly for the two largest distances of 32 bits: two is
added to the distance of a line. No byte outside the table is written or asked for, and no distance that is read overflows. -/
theorem fill_in_range (code : Code) :
    (fill code = .error .overflow ↔ ∃ i ∈ code.offsetsFrom 0, ∃ line, code.line i = some line ∧
      (line.toNat = code.firstLine.toNat + 0x7ffffffe ∨ line.toNat = code.firstLine.toNat + 0x7fffffff)) ∧
    fill code ≠ .error .outside ∧
    (∀ front edit back t, edits code = front ++ edit :: back → front.foldlM (apply code) (blank code) = .ok t →
      (edit.unit + 1) * t.entry ≤ t.bytes.size ∧ apply code t edit ≠ .error .outside ∧
        (t.read? (edit.unit * t.entry + 1) (t.entry - 1)).isSome = true) ∧
    ∀ (t : LineTable) (i : Nat), ∃ d, t.distance i = .ok d := by
  refine ⟨?_, fun fault => ?_, fun front edit back t split_eq run => inside_of_edits split_eq run,
    fun t i => ⟨_, distance_eq t i⟩⟩
  · rw [fill_eq_error_iff]
    exact (and_iff_right rfl).trans (exists_congr fun i => and_congr_right fun _ => overflows_iff)
  · cases (fill_eq_error_iff.1 fault).1

end LineTable
end MonitoredVm
