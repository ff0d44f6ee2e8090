import MonitoredVm.Proofs.LineBytes

/-!
# Where lines start

The line table of a code object knows the lines of its traceable instructions, but for lines that lie above the one before
the first or too far below it (`line_of_build`). It marks each instruction where control can arrive from another line: by going on to the next
instruction, along a jump or at a handler (`startsLine_of_entersLine`). Of the three passes that mark line starts one is enough for
each of these.
-/

namespace MonitoredVm

open List Option

namespace Code
variable {c : Code}

/-- Control passes from the instruction at `p`: on to the next one, along its jump, or to a handler that covers it. -/
inductive Edge (c : Code) (p : Nat) : Nat → Prop where
  | next : Edge c p (c.next p)
  | jump {q} : c.jumpTarget p = some q → Edge c p q
  | handler {h} : h ∈ c.handlers → h.start ≤ p → p < h.stop → Edge c p h.target

/-- A traceable instruction that may start a line. -/
structure Ordinary (c : Code) (i : Nat) : Prop where
  mem : i ∈ c.offsetsFrom c.firstTraceable
  starts : (c.opcodeAt i).neverStartsLine = false
  filled : c.opcodeAt i ≠ .cache

/-- Control passes from `p` to `q`, and there to another line, which is not above the one before the first. -/
structure EntersLine (c : Code) (p q : Nat) (line : UInt32) : Prop where
  edge : c.Edge p q
  leaves : c.Ordinary p
  arrives : c.Ordinary q
  known : c.line q = some line
  above : c.firstLine.toNat ≤ line.toNat + 1
  differs : c.line p ≠ some line

/-- A line that a table can keep: not above the one before the first, and with a distance that leaves room for two more in a
signed word of 32 bits. -/
def inReach (c : Code) (line : UInt32) : Bool :=
  decide (c.firstLine.toNat ≤ line.toNat + 1 ∧ line.toNat < c.firstLine.toNat + 0x7ffffffe)

theorem inReach_iff {line : UInt32} :
    c.inReach line = true ↔ c.firstLine.toNat ≤ line.toNat + 1 ∧ line.toNat < c.firstLine.toNat + 0x7ffffffe :=
  decide_eq_true_iff

/-- No line lies too far below the first to be kept in a signed word of 32 bits. -/
def Near (c : Code) : Prop :=
  ∀ i ∈ c.offsetsFrom 0, ∀ line ∈ c.line i, line.toNat ≤ c.firstLine.toNat + (0x80000000 - 3)

theorem walk_split {count i p : Nat} (room : c.size - i ≤ count) (mem : p ∈ c.walk count i) :
    ∃ front count', c.walk count i = front ++ p :: c.walk count' (c.next p) ∧ c.size - c.next p ≤ count' := by
  induction count generalizing i with
  | zero => cases mem
  | succ count ih =>
    have step := c.lt_next i
    rw [walk] at mem ⊢
    split at mem
    · next lt =>
      rw [if_pos lt]
      rcases mem_cons.1 mem with rfl | later
      · exact ⟨[], count, rfl, by omega⟩
      · obtain ⟨front, count', split_eq, room'⟩ := ih (by omega) later
        exact ⟨i :: front, count', by rw [split_eq, cons_append], room'⟩
    · cases mem

theorem offsetsFrom_split (mem : p ∈ c.offsetsFrom i) (inside : c.next p < c.size) :
    ∃ front back, c.offsetsFrom i = front ++ p :: c.next p :: back := by
  obtain ⟨front, count, split_eq, room⟩ := walk_split (Nat.le_refl _) mem
  obtain ⟨count, rfl⟩ : ∃ n, count = n + 1 := ⟨count - 1, by omega⟩
  rw [walk, if_pos inside] at split_eq
  exact ⟨front, c.walk count (c.next (c.next p)), split_eq⟩

end Code

theorem Opcode.byte_ne_zero {op : Opcode} (filled : op ≠ .cache) : op.byte ≠ 0 := by
  intro zero
  have back := Opcode.ofByte_byte op
  rw [zero] at back
  exact filled back.symm

namespace LineTable
variable {code : Code} {t : LineTable}

/-! ## Words -/

theorem le_foldl_max (first) (lines : List UInt32) (d) :
    d ≤ lines.foldl (fun d line => max d ((line.toNat : Int) - first)) d ∧
      ∀ line ∈ lines, (line.toNat : Int) - first ≤ lines.foldl (fun d line => max d ((line.toNat : Int) - first)) d := by
  induction lines generalizing d with
  | nil => exact ⟨Int.le_refl d, fun _ none_there => absurd none_there not_mem_nil⟩
  | cons l rest ih =>
    obtain ⟨least, all⟩ := ih (max d ((l.toNat : Int) - first))
    refine ⟨Int.le_trans (Int.le_max_left ..) least, fun line mem => ?_⟩
    rcases mem_cons.1 mem with rfl | later
    · exact Int.le_trans (Int.le_max_right ..) least
    · exact all line later

theorem one_le_span (code) : 1 ≤ span code := (le_foldl_max _ _ 1).1

theorem le_span (mem : i ∈ code.offsetsFrom code.firstTraceable) {line : UInt32} (known : code.line i = some line) :
    (line.toNat : Int) - code.firstLine.toNat ≤ span code :=
  (le_foldl_max _ _ 1).2 line (mem_filterMap.2 ⟨i, mem, known⟩)

theorem word_lt {word : Nat} (le : (word : Int) ≤ d + 2) (small : word < 0x80000000) :
    word < 1 <<< (8 * (entryFor d - 1)) := by
  have far := noLine_eq
  unfold entryFor
  split
  · simp; omega
  · split
    · simp; omega
    · split
      · simp; omega
      · simp; omega

theorem of_build (built : build code = some t) : (∀ i ∈ code.offsetsFrom 0, ¬ Overflows code i) ∧
    t.Shows (entryFor (span code)) code.size (wordsOf code)
      fun i => decide (i ∈ startsOf code) && (code.opcodeAt i).byte != 0 := by
  have fits : ∀ i ∈ code.offsetsFrom 0, ¬ Overflows code i := by
    intro i mem far
    rw [build, fill_eq_error_iff.2 ⟨rfl, i, mem, far⟩] at built
    cases built
  obtain ⟨t', filled, shows⟩ := shows_fill fits
  rw [build, filled] at built
  cases built
  exact ⟨fits, shows⟩

theorem isSome_build_of_fits (fits : ∀ i ∈ code.offsetsFrom 0, ¬ Overflows code i) : (build code).isSome = true := by
  obtain ⟨t, filled, -⟩ := shows_fill fits
  rw [build, filled]
  rfl

theorem isSome_build (near : code.Near) : (build code).isSome = true := by
  refine isSome_build_of_fits fun i mem far => ?_
  obtain ⟨line, known, far⟩ := overflows_iff.1 far
  have bound := near i mem line known
  omega

theorem wordsOf_traceable (built : build code = some t) (grid : code.OnGrid)
    (mem : i ∈ code.offsetsFrom code.firstTraceable) : wordsOf code i = wordFor code (code.line i) := by
  have small := (of_build built).1 i (grid.mem mem)
  have far := noLine_eq
  rw [wordsOf, if_pos (grid.mem mem)]
  refine Nat.mod_eq_of_lt (word_lt ?_ (Nat.lt_of_not_le small))
  have least := one_le_span code
  unfold wordFor
  cases known : code.line i with
  | none => simp [distanceFor]; omega
  | some line =>
    have le := le_span mem known
    rw [distanceFor_some]
    split <;> omega

def lineAt (code : Code) (distance : Int) : Option UInt32 :=
  if distance ≠ noLine ∧ 0 ≤ code.firstLine.toNat + distance ∧ code.firstLine.toNat + distance < UInt32.size then
    some (UInt32.ofNat (code.firstLine.toNat + distance).toNat)
  else none

theorem line_of_distance (read : t.distance i = .ok d) : t.line code i = lineAt code d := by
  rw [line, read]
  rfl

theorem lineAt_eq_some_iff {line : UInt32} :
    lineAt code d = some line ↔ d ≠ noLine ∧ (code.firstLine.toNat : Int) + d = line.toNat := by
  have below := line.toNat_lt
  unfold lineAt
  split
  · next there =>
    simp only [UInt32.size] at there
    have small : (code.firstLine.toNat + d).toNat < 2 ^ 32 := by omega
    rw [Option.some.injEq, ← UInt32.toNat_inj, UInt32.toNat_ofNat', Nat.mod_eq_of_lt small]
    constructor
    · exact fun same => ⟨there.1, by omega⟩
    · exact fun same => by omega
  · next nowhere =>
    simp only [UInt32.size] at nowhere
    constructor
    · exact fun none_there => nomatch none_there
    · exact fun same => absurd ⟨same.1, by omega, by omega⟩ nowhere

/-- The word of an instruction is its distance and two more if its line is in reach, and zero otherwise. -/
theorem wordFor_eq (fits : ¬ Overflows code i) : wordFor code (code.line i) =
      (((code.line i).filter code.inReach).map fun line => line.toNat + 2 - code.firstLine.toNat).getD 0 := by
  have far := noLine_eq
  rw [overflows_iff] at fits
  rw [wordFor]
  cases known : code.line i with
  | none => rfl
  | some line =>
    have beside : ¬ (line.toNat = code.firstLine.toNat + 0x7ffffffe ∨ line.toNat = code.firstLine.toNat + 0x7fffffff) :=
      fun same => fits ⟨line, known, same⟩
    rw [distanceFor_some, filter_some]
    by_cases reach : code.inReach line
    · have bounds := Code.inReach_iff.1 reach
      rw [if_pos ⟨bounds.1, by omega⟩, if_pos reach, map_some, getD_some]
      omega
    · have bounds := mt Code.inReach_iff.2 reach
      rw [if_neg (by omega), if_neg reach]
      rfl

theorem lineAt_wordFor (fits : ¬ Overflows code i) :
    lineAt code (distanceOf (wordFor code (code.line i))) = (code.line i).filter code.inReach := by
  have far := noLine_eq
  have small : wordFor code (code.line i) < 0x80000000 := Nat.lt_of_not_le fits
  rw [distanceOf, if_pos small, wordFor_eq fits]
  cases known : (code.line i).filter code.inReach with
  | none => exact if_neg fun at_all => at_all.1 rfl
  | some line =>
    have bounds := Code.inReach_iff.1 (filter_eq_some_iff.1 known).2
    refine lineAt_eq_some_iff.2 ⟨?_, ?_⟩
    · rw [map_some, getD_some]
      omega
    · rw [map_some, getD_some]
      omega

theorem line_of_build (built : build code = some t) (grid : code.OnGrid)
    (mem : i ∈ code.offsetsFrom code.firstTraceable) : t.line code i = (code.line i).filter code.inReach := by
  obtain ⟨fits, shows⟩ := of_build built
  have wide : 0 < entryFor (span code) := Nat.lt_of_lt_of_le (by decide) (two_le_entryFor _)
  rw [line_of_distance (shows.distance wide (Code.lt_of_mem_offsetsFrom mem)), wordsOf_traceable built grid mem]
  exact lineAt_wordFor (fits i (grid.mem mem))

/-! ## Marks -/

theorem mem_lineChanges_append (found : ∀ current, q ∈ lineChanges code offsets current) (front current) :
    q ∈ lineChanges code (front ++ offsets) current := by
  induction front generalizing current with
  | nil => exact found current
  | cons i rest ih =>
    rw [cons_append, lineChanges]
    split
    · exact ih current
    · dsimp only
      split
      · exact mem_cons_of_mem _ (ih _)
      · exact ih _

theorem mem_lineChanges (leaves : code.Ordinary p) (arrives : code.Ordinary (code.next p)) {line : UInt32}
    (known : code.line (code.next p) = some line) (differs : code.line p ≠ some line) (grid : code.OnGrid) :
    code.next p ∈ lineChanges code (code.offsetsFrom 0) none := by
  have traceable : ∀ {i : Nat}, i ∈ code.offsetsFrom code.firstTraceable → ¬ i < code.firstTraceable := fun mem =>
    Nat.not_lt.2 (Code.mem_offsetsFrom.1 mem).1.le
  obtain ⟨front, back, split_eq⟩ := Code.offsetsFrom_split (grid.mem leaves.mem) (Code.lt_of_mem_offsetsFrom arrives.mem)
  rw [split_eq]
  refine mem_lineChanges_append (fun current => ?_) front none
  have second : code.next p ∈ lineChanges code (code.next p :: back) (code.line p) := by
    rw [lineChanges, if_neg (by simp [traceable arrives.mem, arrives.starts])]
    dsimp only
    rw [known, if_pos (by simpa using fun same => differs same.symm)]
    exact mem_cons_self
  rw [lineChanges, if_neg (by simp [traceable leaves.mem, leaves.starts])]
  dsimp only
  split
  · exact mem_cons_of_mem _ second
  · exact second

theorem inReach_of_entersLine (near : code.Near) (grid : code.OnGrid) {line : UInt32}
    (enters : code.EntersLine p q line) : code.inReach line = true := by
  have bound := near q (grid.mem enters.arrives.mem) line enters.known
  exact Code.inReach_iff.2 ⟨enters.above, by omega⟩

theorem line_of_entersLine (near : code.Near) (built : build code = some t) (grid : code.OnGrid) {line : UInt32}
    (enters : code.EntersLine p q line) : t.line code q = some line := by
  rw [line_of_build built grid enters.arrives.mem, enters.known, filter_some,
    if_pos (inReach_of_entersLine near grid enters)]

theorem startsLine_of_entersLine (near : code.Near) (built : build code = some t) (grid : code.OnGrid) {p q : Nat}
    {line : UInt32} (enters : code.EntersLine p q line) : t.startsLine q = true := by
  have inside := Code.lt_of_mem_offsetsFrom enters.arrives.mem
  obtain ⟨fits, shows⟩ := of_build built
  have has : lined (wordsOf code) q = true := by
    have there := lineAt_wordFor (fits q (grid.mem enters.arrives.mem))
    rw [enters.known, filter_some, if_pos (inReach_of_entersLine near grid enters), lineAt] at there
    rw [lined, wordsOf_traceable built grid enters.arrives.mem, enters.known, bne_iff_ne]
    intro none
    rw [if_neg fun at_all => at_all.1 none] at there
    cases there
  have found : q ∈ startsOf code := by
    rw [startsOf, mem_append, mem_filter, mem_append]
    have ordinary : ∀ op : Opcode, op.neverStartsLine = true → code.opcodeAt q ≠ op := by
      rintro op never rfl
      rw [enters.arrives.starts] at never
      cases never
    obtain ⟨edge, leaves, arrives, known, -, differs⟩ := enters
    cases edge with
    | next => exact .inl (mem_lineChanges leaves arrives known differs grid)
    | jump leads =>
      refine .inr ⟨.inl (mem_filter.2 ⟨mem_filterMap.2 ⟨p, leaves.mem, leads⟩, ?_⟩), has⟩
      simp [inside, ordinary .popIter rfl]
    | handler mem _ _ =>
      refine .inr ⟨.inr (mem_filter.2 ⟨mem_map.2 ⟨_, mem, rfl⟩, ?_⟩), has⟩
      simp [inside, ordinary .endAsyncFor rfl]
  rw [shows.start_eq q inside]
  simp [found, Opcode.byte_ne_zero enters.arrives.filled]

theorem line_ne_of_entersLine (built : build code = some t) (grid : code.OnGrid) {line : UInt32}
    (enters : code.EntersLine p q line) : t.line code p ≠ some line := by
  rw [line_of_build built grid enters.leaves.mem]
  exact fun same => enters.differs (eq_some_of_filter_eq_some same)

end LineTable
end MonitoredVm
