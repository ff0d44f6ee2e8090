import MonitoredVm.Machine.State
import MonitoredVm.Proofs.Grammar

/-!
# Values that cross as JSON

A value with a list, a dict or an exception in it crosses between interpreters as JSON text. The text is read back
exactly if its brackets nest less than `Datum.maxNesting` deep and every number in it is finite and is what the reader
makes of its digits; taking the snapshot looks at neither.

Main statement: `json_transfer`. Reading fails where the datum says so (`readOver_ok_iff`), what is read differs from
what was written in the numbers only (`rereadNumbers_eq_iff`), and portable forms and values are in one-to-one
correspondence (`toValue_of_portable`, `portable_of_toValue`).
-/

namespace MonitoredVm

open Grammar (bind_eq_ok)

/-! ## Reading the text -/

mutual

/-- How many brackets of the text are open at once. -/
def Datum.nesting : Datum → Nat
  | .present d => d.nesting
  | .seq items => Datum.nestingAll items + 1
  | .tuple items => Datum.nestingAll items + 1
  | .record fields => Datum.nestingFields fields + 1
  | .variant _ _ content => content.nesting + 1
  | .bool _ | .int _ | .nat _ | .byte _ | .float _ | .str _ | .absent | .choice _ _ => 0

def Datum.nestingAll : List Datum → Nat
  | [] => 0
  | d :: rest => max d.nesting (Datum.nestingAll rest)

def Datum.nestingFields : List (String × Datum) → Nat
  | [] => 0
  | (_, d) :: rest => max d.nesting (Datum.nestingFields rest)

end

mutual

def Datum.floats : Datum → List Binary64
  | .float x => [x]
  | .present d => d.floats
  | .seq items => Datum.floatsAll items
  | .tuple items => Datum.floatsAll items
  | .record fields => Datum.floatsFields fields
  | .variant _ _ content => content.floats
  | .bool _ | .int _ | .nat _ | .byte _ | .str _ | .absent | .choice _ _ => []

def Datum.floatsAll : List Datum → List Binary64
  | [] => []
  | d :: rest => d.floats ++ Datum.floatsAll rest

def Datum.floatsFields : List (String × Datum) → List Binary64
  | [] => []
  | (_, d) :: rest => d.floats ++ Datum.floatsFields rest

end

/-- The text of the number is read as a number. -/
def Binary64.Readable (x : Binary64) : Prop := x.isFinite = true ∧ x.reread?.isSome = true

def Datum.Reads (result : Except ReadFault Nat) : Prop := ∃ read, result = .ok read

namespace Datum

theorem reads_ok (read) : Reads (.ok read) := ⟨read, rfl⟩

theorem reads_bind {x f P} (second : ∀ read, Reads (f read) ↔ P) : Reads (x >>= f) ↔ Reads x ∧ P := by
  cases x with
  | error fault => simp [Reads, bind, Except.bind]
  | ok read =>
    show Reads (f read) ↔ _
    simpa [reads_ok] using second read

theorem reads_number (x : Binary64) (read) : Reads (readNumber x read) ↔ x.Readable := by
  unfold readNumber Binary64.Readable
  cases x.isFinite <;> cases x.reread?.isSome <;> simp [Reads]

theorem reads_bracket {depth read x} {f : Nat → Nat} :
    Reads (do
      openBracket read depth
      let read ← x
      return f read) ↔ depth + 1 < maxNesting ∧ Reads x := by
  unfold openBracket
  split
  · next fits =>
    have inner := @reads_bind x (fun read => .ok (f read)) True fun read => by simp [reads_ok]
    show Reads (x >>= fun read => .ok (f read)) ↔ _
    simpa [fits] using inner
  · next fits =>
    simp [fits, Reads, bind, Except.bind]

end Datum

theorem Datum.bracket_iff {depth inner reads fine}
    (h : depth + 1 < maxNesting → (reads ↔ depth + 1 + inner < maxNesting ∧ fine)) :
    depth + 1 < maxNesting ∧ reads ↔ depth + (inner + 1) < maxNesting ∧ fine := by
  constructor
  · rintro ⟨opens, done⟩
    obtain ⟨shallow, good⟩ := (h opens).1 done
    exact ⟨by omega, good⟩
  · rintro ⟨shallow, good⟩
    have opens : depth + 1 < maxNesting := by omega
    exact ⟨opens, (h opens).2 ⟨by omega, good⟩⟩

theorem Datum.beside_iff {depth first second : Nat} {xs ys : List Binary64} :
    (depth + first < maxNesting ∧ ∀ x ∈ xs, x.Readable) ∧ depth + second < maxNesting ∧ (∀ x ∈ ys, x.Readable) ↔
      depth + max first second < maxNesting ∧ ∀ x ∈ xs ++ ys, x.Readable := by
  rw [List.forall_mem_append]
  constructor
  · rintro ⟨⟨shallow, fine⟩, shallow', fine'⟩
    exact ⟨by omega, fine, fine'⟩
  · rintro ⟨both, fine, fine'⟩
    exact ⟨⟨by omega, fine⟩, by omega, fine'⟩

mutual

/-- The text of a datum is read through exactly if it does not nest too deeply and its numbers are readable. -/
theorem readOver_ok_iff : (d : Datum) → {depth : Nat} → depth < Datum.maxNesting → (read : Nat) →
    (Datum.Reads (d.readOver depth read) ↔ depth + d.nesting < Datum.maxNesting ∧ ∀ x ∈ d.floats, x.Readable)
  | .float x, _, fits, read => by
    rw [Datum.readOver, Datum.reads_number]
    simp [Datum.nesting, Datum.floats, fits]
  | .present d, _, fits, read => readOver_ok_iff d fits read
  | .seq items, depth, fits, read => by
    rw [Datum.readOver, Datum.reads_bracket, Datum.nesting, Datum.floats]
    exact Datum.bracket_iff fun opens => readOverAll_ok_iff items opens read
  | .tuple items, depth, fits, read => by
    rw [Datum.readOver, Datum.reads_bracket, Datum.nesting, Datum.floats]
    exact Datum.bracket_iff fun opens => readOverAll_ok_iff items opens read
  | .record fields, depth, fits, read => by
    rw [Datum.readOver, Datum.reads_bracket, Datum.nesting, Datum.floats]
    exact Datum.bracket_iff fun opens => readOverFields_ok_iff fields opens read
  | .variant _ name content, depth, fits, read => by
    rw [Datum.readOver, Datum.reads_bracket, Datum.nesting, Datum.floats]
    exact Datum.bracket_iff fun opens => readOver_ok_iff content opens _
  | .bool _, _, fits, _ | .int _, _, fits, _ | .nat _, _, fits, _ | .byte _, _, fits, _ | .str _, _, fits, _ | .absent, _, fits, _
  | .choice _ _, _, fits, _ => by
    simp [Datum.readOver, Datum.reads_ok, Datum.nesting, Datum.floats, fits]

theorem readOverAll_ok_iff : (ds : List Datum) → {depth : Nat} → depth < Datum.maxNesting → (read : Nat) →
    (Datum.Reads (Datum.readOverAll depth ds read) ↔
      depth + Datum.nestingAll ds < Datum.maxNesting ∧ ∀ x ∈ Datum.floatsAll ds, x.Readable)
  | [], _, fits, read => by simp [Datum.readOverAll, Datum.reads_ok, Datum.nestingAll, Datum.floatsAll, fits]
  | d :: rest, depth, fits, read => by
    rw [Datum.readOverAll, Datum.reads_bind (readOverAll_ok_iff rest fits), readOver_ok_iff d fits, Datum.nestingAll,
      Datum.floatsAll]
    exact Datum.beside_iff

theorem readOverFields_ok_iff : (ds : List (String × Datum)) → {depth : Nat} → depth < Datum.maxNesting → (read : Nat) →
    (Datum.Reads (Datum.readOverFields depth ds read) ↔
      depth + Datum.nestingFields ds < Datum.maxNesting ∧ ∀ x ∈ Datum.floatsFields ds, x.Readable)
  | [], _, fits, read => by simp [Datum.readOverFields, Datum.reads_ok, Datum.nestingFields, Datum.floatsFields, fits]
  | (_, d) :: rest, depth, fits, read => by
    rw [Datum.readOverFields, Datum.reads_bind (readOverFields_ok_iff rest fits), readOver_ok_iff d fits,
      Datum.nestingFields, Datum.floatsFields]
    exact Datum.beside_iff

end

/-! ## The numbers that are read -/

/-- Reading its text gives the number itself. -/
def Binary64.Kept (x : Binary64) : Prop := x.reread = x

theorem Datum.floatsAll_bytes (b : List UInt8) : Datum.floatsAll (b.map .byte) = [] := by
  induction b with
  | nil => rfl
  | cons x b ih => exact ih

mutual

theorem Expr.reread_eq_iff : (e : Expr) → (e.reread = e ↔ ∀ x ∈ e.datum.floats, x.Kept)
  | .none | .bool _ | .int _ | .str _ | .name _ => by simp [Expr.reread, Expr.datum, Datum.floats]
  | .bytes b => by simp [Expr.reread, Expr.datum, Datum.floats, Datum.ofBytes, Datum.floatsAll_bytes]
  | .float x => by simp [Expr.reread, Expr.datum, Datum.floats, Binary64.Kept]
  | .tuple items => by
    have inner := Expr.rereadAll_eq_iff items
    simp [Expr.reread, Expr.datum, Datum.floats, inner]
  | .list items => by
    have inner := Expr.rereadAll_eq_iff items
    simp [Expr.reread, Expr.datum, Datum.floats, inner]
  | .dict items => by
    have inner := Expr.rereadPairs_eq_iff items
    simp [Expr.reread, Expr.datum, Datum.floats, inner]
  | .call func args kwargs => by
    have callee := Expr.reread_eq_iff func
    have inner := Expr.rereadAll_eq_iff args
    have named := Expr.rereadNamed_eq_iff kwargs
    simp [Expr.reread, Expr.datum, Datum.floats, Datum.floatsFields, callee, inner, named, or_imp, forall_and]

theorem Expr.rereadAll_eq_iff : (es : List Expr) → (Expr.rereadAll es = es ↔ ∀ x ∈ Datum.floatsAll (Expr.data es), x.Kept)
  | [] => by simp [Expr.rereadAll, Expr.data, Datum.floatsAll]
  | e :: es => by
    have first := Expr.reread_eq_iff e
    have others := Expr.rereadAll_eq_iff es
    simp [Expr.rereadAll, Expr.data, Datum.floatsAll, first, others, or_imp, forall_and]

theorem Expr.rereadPairs_eq_iff : (es : List (Expr × Expr)) →
    (Expr.rereadPairs es = es ↔ ∀ x ∈ Datum.floatsAll (Expr.pairData es), x.Kept)
  | [] => by simp [Expr.rereadPairs, Expr.pairData, Datum.floatsAll]
  | (k, v) :: es => by
    have key := Expr.reread_eq_iff k
    have value := Expr.reread_eq_iff v
    have others := Expr.rereadPairs_eq_iff es
    simp [Expr.rereadPairs, Expr.pairData, Datum.floatsAll, Datum.floats, key, value, others, or_imp, forall_and, and_assoc]

theorem Expr.rereadNamed_eq_iff : (es : List (String × Expr)) →
    (Expr.rereadNamed es = es ↔ ∀ x ∈ Datum.floatsAll (Expr.namedData es), x.Kept)
  | [] => by simp [Expr.rereadNamed, Expr.namedData, Datum.floatsAll]
  | (_, e) :: es => by
    have first := Expr.reread_eq_iff e
    have others := Expr.rereadNamed_eq_iff es
    simp [Expr.rereadNamed, Expr.namedData, Datum.floatsAll, Datum.floats, first, others, or_imp, forall_and]

end

theorem Datum.floats_ofOption (d : Option Datum) : (ofOption d).floats = (d.map floats).getD [] := by
  cases d <;> rfl

theorem Expr.rereadOption_eq_iff (e : Option Expr) :
    e.map Expr.reread = e ↔ ∀ x ∈ (Datum.ofOption (e.map Expr.datum)).floats, x.Kept := by
  rw [Datum.floats_ofOption]
  cases e with
  | none => simp
  | some e => simpa using e.reread_eq_iff

theorem Param.reread_eq_iff (p : Param) : p.reread = p ↔ ∀ x ∈ p.datum.floats, x.Kept := by
  have inner := Expr.rereadOption_eq_iff p.default
  obtain ⟨name, default⟩ := p
  simpa [Param.reread, Param.datum, Datum.floats, Datum.floatsFields] using inner

theorem Param.rereadAll_eq_iff (ps : List Param) :
    ps.map Param.reread = ps ↔ ∀ x ∈ Datum.floatsAll (ps.map Param.datum), x.Kept := by
  induction ps with
  | nil => simp [Datum.floatsAll]
  | cons p ps ih => simp [Datum.floatsAll, p.reread_eq_iff, ih, or_imp, forall_and]

theorem Action.reread_eq_iff (a : Action) : a.reread = a ↔ ∀ x ∈ a.datum.floats, x.Kept := by
  cases a with
  | pass | delete => simp [Action.reread, Action.datum, Datum.floats]
  | assign name e => simpa [Action.reread, Action.datum, Datum.floats, Datum.floatsAll] using e.reread_eq_iff
  | raise type message =>
    simpa [Action.reread, Action.datum, Datum.floats, Datum.floatsAll, Datum.ofExcType] using Expr.rereadOption_eq_iff message
  | ret e => simpa [Action.reread, Action.datum, Datum.floats] using Expr.rereadOption_eq_iff e
  | eval e => simpa [Action.reread, Action.datum, Datum.floats] using e.reread_eq_iff

mutual

theorem Stmt.reread_eq_iff : (s : Stmt) → (s.reread = s ↔ ∀ x ∈ s.datum.floats, x.Kept)
  | .act line a => by simpa [Stmt.reread, Stmt.datum, Datum.floats, Datum.floatsFields] using a.reread_eq_iff
  | .define line ⟨name, qualname, filename, start, params, body⟩ => by
    have parameters := Param.rereadAll_eq_iff params
    have inner := Stmt.rereadAll_eq_iff body
    simp [Stmt.reread, Stmt.datum, FunctionOf.datumAround, Datum.floats, Datum.floatsFields, parameters, inner, or_imp, forall_and]

theorem Stmt.rereadAll_eq_iff : (ss : List Stmt) → (Stmt.rereadAll ss = ss ↔ ∀ x ∈ Datum.floatsAll (Stmt.data ss), x.Kept)
  | [] => by simp [Stmt.rereadAll, Stmt.data, Datum.floatsAll]
  | s :: ss => by
    have first := Stmt.reread_eq_iff s
    have others := Stmt.rereadAll_eq_iff ss
    simp [Stmt.rereadAll, Stmt.data, Datum.floatsAll, first, others, or_imp, forall_and]

end

theorem FunctionOf.reread_eq_iff (f) : FunctionOf.reread f = f ↔ ∀ x ∈ (FunctionOf.datum f).floats, x.Kept := by
  have parameters := Param.rereadAll_eq_iff f.params
  have inner := Stmt.rereadAll_eq_iff f.body
  obtain ⟨name, qualname, filename, start, params, body⟩ := f
  simp [FunctionOf.reread, FunctionOf.datum, FunctionOf.datumAround, Datum.floats, Datum.floatsFields, parameters, inner, or_imp,
    forall_and]

theorem Datum.floatsAll_frames (frames : List Frame) : floatsAll (frames.map ofFrame) = [] := by
  induction frames with
  | nil => rfl
  | cons f frames ih => exact ih

theorem Datum.floats_ofIncident (i) (cause : Datum) : (ofIncident i cause).floats = cause.floats := by
  cases shape : i.message <;> simp [ofIncident, floats, floatsFields, floats_ofOption, floatsAll_frames, ofExcType, shape]

theorem Datum.floats_ofException (e) : (ofException e).floats = [] := by
  rw [ofException, floats_ofIncident]
  induction e.causes with
  | nil => rfl
  | cons i causes ih => rw [List.foldr_cons, floats, floats_ofIncident, ih]

mutual

theorem rereadNumbers_eq_iff : (p : Portable) → (p.rereadNumbers = p ↔ ∀ x ∈ p.datum.floats, x.Kept)
  | .none | .bool _ | .int _ | .str _ | .native _ => by simp [Portable.rereadNumbers, Portable.datum, Datum.floats]
  | .bytes b => by simp [Portable.rereadNumbers, Portable.datum, Datum.floats, Datum.ofBytes, Datum.floatsAll_bytes]
  | .float x => by simp [Portable.rereadNumbers, Portable.datum, Datum.floats, Binary64.Kept]
  | .tuple items => by simp [Portable.rereadNumbers, Portable.datum, Datum.floats, rereadAll_eq_iff items]
  | .list items => by simp [Portable.rereadNumbers, Portable.datum, Datum.floats, rereadAll_eq_iff items]
  | .dict items => by simp [Portable.rereadNumbers, Portable.datum, Datum.floats, rereadPairs_eq_iff items]
  | .defined f => by simpa [Portable.rereadNumbers, Portable.datum, Datum.floats] using FunctionOf.reread_eq_iff f
  | .exception e => by simp [Portable.rereadNumbers, Portable.datum, Datum.floats, Datum.floats_ofException]

theorem rereadAll_eq_iff : (ps : List Portable) →
    (Portable.rereadAll ps = ps ↔ ∀ x ∈ Datum.floatsAll (Portable.data ps), x.Kept)
  | [] => by simp [Portable.rereadAll, Portable.data, Datum.floatsAll]
  | p :: ps => by
    have first := rereadNumbers_eq_iff p
    have others := rereadAll_eq_iff ps
    simp [Portable.rereadAll, Portable.data, Datum.floatsAll, first, others, or_imp, forall_and]

theorem rereadPairs_eq_iff : (ps : List (Portable × Portable)) →
    (Portable.rereadPairs ps = ps ↔ ∀ x ∈ Datum.floatsAll (Portable.pairData ps), x.Kept)
  | [] => by simp [Portable.rereadPairs, Portable.pairData, Datum.floatsAll]
  | (k, v) :: ps => by
    have key := rereadNumbers_eq_iff k
    have value := rereadNumbers_eq_iff v
    have others := rereadPairs_eq_iff ps
    simp [Portable.rereadPairs, Portable.pairData, Datum.floatsAll, Datum.floats, key, value, others, or_imp, forall_and,
      and_assoc]

end

/-! ## Portable forms and values -/

mutual

/-- A list, a dict or an exception stands in it, possibly inside tuples. -/
def Value.hasContainer : Value → Bool
  | .list _ | .dict _ | .exception _ => true
  | .tuple items => Value.anyContainer items
  | _ => false

def Value.anyContainer : List Value → Bool
  | [] => false
  | v :: vs => v.hasContainer || Value.anyContainer vs

end

mutual

def Value.natives : Value → List String
  | .native n => [n]
  | .tuple items => Value.nativesAll items
  | .list items => Value.nativesAll items
  | .dict items => Value.nativesPairs items
  | _ => []

def Value.nativesAll : List Value → List String
  | [] => []
  | v :: vs => v.natives ++ Value.nativesAll vs

def Value.nativesPairs : List (Value × Value) → List String
  | [] => []
  | (k, v) :: rest => k.natives ++ v.natives ++ Value.nativesPairs rest

end

mutual

theorem portable_false_error : (v : Value) → v.hasContainer = true → ∃ blocker, v.portable false = .error blocker
  | .list _, _ => ⟨"list", rfl⟩
  | .dict _, _ => ⟨"dict", rfl⟩
  | .exception e, _ => ⟨e.type.name, rfl⟩
  | .tuple items, inside => by
    obtain ⟨blocker, blocked⟩ := portableAll_false_error items inside
    refine ⟨blocker, ?_⟩
    rw [Value.portable, blocked]
    rfl

theorem portableAll_false_error : (vs : List Value) → Value.anyContainer vs = true →
    ∃ blocker, Value.portableAll false vs = .error blocker
  | v :: vs, inside => by
    cases first : v.portable false with
    | error blocker =>
      refine ⟨blocker, ?_⟩
      rw [Value.portableAll, first]
      rfl
    | ok p =>
      have rest : Value.anyContainer vs = true := by
        obtain here | there := Bool.or_eq_true_iff.1 inside
        · obtain ⟨blocker, blocked⟩ := portable_false_error v here
          rw [first] at blocked
          cases blocked
        · exact there
      obtain ⟨blocker, blocked⟩ := portableAll_false_error vs rest
      refine ⟨blocker, ?_⟩
      rw [Value.portableAll, first, blocked]
      rfl

end

mutual

/-- The value a portable form stands for where all native functions are known. -/
def Portable.value : Portable → Value
  | .none => .none
  | .bool b => .bool b
  | .int i => .int i
  | .float x => .float x
  | .str s => .str s
  | .bytes b => .bytes b
  | .tuple items => .tuple (Portable.values items)
  | .list items => .list (Portable.values items)
  | .dict items => .dict (Portable.pairValues items)
  | .native name => .native name
  | .defined f => .function f
  | .exception e => .exception e

def Portable.values : List Portable → List Value
  | [] => []
  | p :: ps => p.value :: Portable.values ps

def Portable.pairValues : List (Portable × Portable) → List (Value × Value)
  | [] => []
  | (k, v) :: rest => (k.value, v.value) :: Portable.pairValues rest

end

section Known
variable {knows : String → Bool}

theorem rebuilt_iff {α β : Type} {x : Except String α} {f : α → Except String β} {a : α} {b : β} {known built : Prop}
    (first : ∀ c, x = .ok c ↔ known ∧ c = a) (then' : f a = .ok b ↔ built) : (x >>= f) = .ok b ↔ known ∧ built := by
  constructor
  · intro done
    obtain ⟨c, read, done⟩ := bind_eq_ok done
    obtain ⟨fine, rfl⟩ := (first c).1 read
    exact ⟨fine, then'.1 done⟩
  · rintro ⟨fine, done⟩
    rw [(first a).2 ⟨fine, rfl⟩]
    exact then'.2 done

theorem ok_iff_eq {α : Type} {a b : α} : (Except.ok b : Except String α) = .ok a ↔ a = b := by
  rw [Except.ok.injEq, eq_comm]

mutual

/-- A portable form is turned into the value it stands for exactly where the native functions in it are known. -/
theorem toValue_ok_iff : (p : Portable) → (v : Value) →
    (p.toValue knows = .ok v ↔ (∀ n ∈ p.value.natives, knows n = true) ∧ v = p.value)
  | .none, v | .bool _, v | .int _, v | .float _, v | .str _, v | .bytes _, v | .defined _, v | .exception _, v => by
    rw [Portable.toValue, ok_iff_eq]
    simp [Portable.value, Value.natives]
  | .native n, v => by
    rw [Portable.toValue, Portable.value, Value.natives, List.forall_mem_singleton]
    split
    · next known => rw [and_iff_right known, ok_iff_eq]
    · next unknown => exact ⟨fun built => (by cases built), fun both => absurd both.1 unknown⟩
  | .tuple items, v | .list items, v => by
    rw [Portable.toValue]
    exact rebuilt_iff (toValues_ok_iff items) ok_iff_eq
  | .dict items, v => by
    rw [Portable.toValue]
    exact rebuilt_iff (toPairs_ok_iff items) ok_iff_eq

theorem toValues_ok_iff : (ps : List Portable) → (vs : List Value) → (Portable.toValues knows ps = .ok vs ↔
    (∀ n ∈ Value.nativesAll (Portable.values ps), knows n = true) ∧ vs = Portable.values ps)
  | [], vs => by
    rw [Portable.toValues, ok_iff_eq]
    simp [Portable.values, Value.nativesAll]
  | p :: ps, vs => by
    rw [Portable.toValues, Portable.values, Value.nativesAll, List.forall_mem_append, and_assoc]
    exact rebuilt_iff (toValue_ok_iff p) (rebuilt_iff (toValues_ok_iff ps) ok_iff_eq)

theorem toPairs_ok_iff : (ps : List (Portable × Portable)) → (vs : List (Value × Value)) →
    (Portable.toPairs knows ps = .ok vs ↔
      (∀ n ∈ Value.nativesPairs (Portable.pairValues ps), knows n = true) ∧ vs = Portable.pairValues ps)
  | [], vs => by
    rw [Portable.toPairs, ok_iff_eq]
    simp [Portable.pairValues, Value.nativesPairs]
  | (p, q) :: ps, vs => by
    rw [Portable.toPairs, Portable.pairValues, Value.nativesPairs, List.forall_mem_append, List.forall_mem_append, and_assoc,
      and_assoc]
    exact rebuilt_iff (toValue_ok_iff p) (rebuilt_iff (toValue_ok_iff q) (rebuilt_iff (toPairs_ok_iff ps) ok_iff_eq))

end

mutual

theorem value_of_portable : (v : Value) → {full : Bool} → {p : Portable} → v.portable full = .ok p → p.value = v
  | .none, full, p, made | .bool _, full, p, made | .int _, full, p, made | .float _, full, p, made | .str _, full, p, made
  | .bytes _, full, p, made | .native _, full, p, made | .function _, full, p, made | .exception _, true, p, made => by
    cases made
    rfl
  | .tuple items, full, p, made | .list items, true, p, made => by
    obtain ⟨ps, all, made⟩ := bind_eq_ok made
    cases made
    rw [Portable.value, values_of_portableAll items all]
  | .dict items, true, p, made => by
    obtain ⟨ps, all, made⟩ := bind_eq_ok made
    cases made
    rw [Portable.value, pairValues_of_portablePairs items all]

theorem values_of_portableAll : (vs : List Value) → {full : Bool} → {ps : List Portable} →
    Value.portableAll full vs = .ok ps → Portable.values ps = vs
  | [], full, ps, made => by
    cases made
    rfl
  | v :: vs, full, ps, made => by
    obtain ⟨p, first, made⟩ := bind_eq_ok made
    obtain ⟨rest, others, made⟩ := bind_eq_ok made
    cases made
    rw [Portable.values, value_of_portable v first, values_of_portableAll vs others]

theorem pairValues_of_portablePairs : (vs : List (Value × Value)) → {full : Bool} → {ps : List (Portable × Portable)} →
    Value.portablePairs full vs = .ok ps → Portable.pairValues ps = vs
  | [], full, ps, made => by
    cases made
    rfl
  | (k, v) :: vs, full, ps, made => by
    obtain ⟨p, key, made⟩ := bind_eq_ok made
    obtain ⟨q, value, made⟩ := bind_eq_ok made
    obtain ⟨rest, others, made⟩ := bind_eq_ok made
    cases made
    rw [Portable.pairValues, value_of_portable k key, value_of_portable v value, pairValues_of_portablePairs vs others]

end

mutual

theorem portable_value : (p : Portable) → p.value.portable true = .ok p
  | .none | .bool _ | .int _ | .float _ | .str _ | .bytes _ | .native _ | .defined _ | .exception _ => rfl
  | .tuple items | .list items => by
    rw [Portable.value, Value.portable, portableAll_values items]
    rfl
  | .dict items => by
    rw [Portable.value, Value.portable, portablePairs_pairValues items]
    rfl

theorem portableAll_values : (ps : List Portable) → Value.portableAll true (Portable.values ps) = .ok ps
  | [] => rfl
  | p :: ps => by
    rw [Portable.values, Value.portableAll, portable_value p, portableAll_values ps]
    rfl

theorem portablePairs_pairValues : (ps : List (Portable × Portable)) →
    Value.portablePairs true (Portable.pairValues ps) = .ok ps
  | [] => rfl
  | (p, q) :: ps => by
    rw [Portable.pairValues, Value.portablePairs, portable_value p, portable_value q, portablePairs_pairValues ps]
    rfl

end

mutual

theorem natives_reread : (p : Portable) → p.rereadNumbers.value.natives = p.value.natives
  | .none | .bool _ | .int _ | .float _ | .str _ | .bytes _ | .native _ | .defined _ | .exception _ => rfl
  | .tuple items | .list items => nativesAll_reread items
  | .dict items => nativesPairs_reread items

theorem nativesAll_reread : (ps : List Portable) →
    Value.nativesAll (Portable.values (Portable.rereadAll ps)) = Value.nativesAll (Portable.values ps)
  | [] => rfl
  | p :: ps => by
    simp only [Portable.rereadAll, Portable.values, Value.nativesAll, natives_reread p, nativesAll_reread ps]

theorem nativesPairs_reread : (ps : List (Portable × Portable)) →
    Value.nativesPairs (Portable.pairValues (Portable.rereadPairs ps)) = Value.nativesPairs (Portable.pairValues ps)
  | [] => rfl
  | (p, q) :: ps => by
    simp only [Portable.rereadPairs, Portable.pairValues, Value.nativesPairs, natives_reread p, natives_reread q,
      nativesPairs_reread ps]

end

/-- The portable form of a value stands for that value and no other, exactly where its native functions are known. -/
theorem toValue_portable_iff (v : Value) (made : v.portable full = .ok p) :
    p.toValue knows = .ok w ↔ w = v ∧ ∀ n ∈ v.natives, knows n = true := by
  rw [toValue_ok_iff, value_of_portable v made, and_comm]

theorem toValue_of_portable (v : Value) (made : v.portable true = .ok p) (known : ∀ n ∈ v.natives, knows n = true) :
    p.toValue knows = .ok v := (toValue_portable_iff v made).2 ⟨rfl, known⟩

theorem portable_of_toValue (p : Portable) (built : p.toValue knows = .ok v) : v.portable true = .ok p := by
  obtain ⟨-, rfl⟩ := (toValue_ok_iff p v).1 built
  exact portable_value p

theorem toValue_reread (p : Portable) (built : p.toValue knows = .ok v) : ∃ w, p.rereadNumbers.toValue knows = .ok w := by
  refine ⟨_, (toValue_ok_iff _ _).2 ⟨?_, rfl⟩⟩
  rw [natives_reread]
  exact ((toValue_ok_iff p v).1 built).1

end Known

/-! ## Crossing -/

theorem snapshot_json {m : Machine} {m' source} {v : Value} {s} (container : v.hasContainer = true)
    (taken : m.snapshot source v true = (m', .ok s)) :
    m' = m ∧ ∃ p, v.portable true = .ok p ∧ s = ⟨source, .json p⟩ := by
  obtain ⟨blocker, blocked⟩ := portable_false_error v container
  unfold Machine.snapshot at taken
  split at taken
  · cases container
  · obtain ⟨rfl, content⟩ := Prod.mk.inj taken
    rw [blocked] at content
    cases made : v.portable true with
    | error other =>
      rw [made] at content
      cases content
    | ok p =>
      rw [made] at content
      exact ⟨rfl, p, rfl, (Except.ok.inj content).symm⟩

theorem toValue_json_iff {knows} (source) (p : Portable) (w) :
    Snapshot.toValue knows ⟨source, .json p⟩ = .ok w ↔
      (p.datum.nesting < Datum.maxNesting ∧ ∀ x ∈ p.datum.floats, x.Readable) ∧ p.rereadNumbers.toValue knows = .ok w := by
  have reads := readOver_ok_iff p.datum (by decide : 0 < Datum.maxNesting) 0
  rw [Nat.zero_add] at reads
  rw [← reads]
  unfold Snapshot.toValue Portable.throughJson
  dsimp only
  cases result : p.datum.readOver 0 0 with
  | error fault => simp [Datum.Reads, bind, Except.bind]
  | ok read =>
    have through : Datum.Reads (.ok read) := ⟨read, rfl⟩
    rw [and_iff_right through]
    change (p.rereadNumbers.toValue knows).mapError CrossError.unknownNative = .ok w ↔ _
    cases p.rereadNumbers.toValue knows with
    | error e => exact ⟨fun failed => (by cases failed), fun failed => (by cases failed)⟩
    | ok v => exact ⟨fun same => congrArg Except.ok (Except.ok.inj same), fun same => congrArg Except.ok (Except.ok.inj same)⟩

theorem Binary64.reread_eq_iff {x : Binary64} (readable : x.reread?.isSome = true) : x.Kept ↔ x.reread? = some x := by
  obtain ⟨y, same⟩ := Option.isSome_iff_exists.1 readable
  simp [Binary64.Kept, Binary64.reread, same]

/-- What crosses as JSON is the value that was taken exactly if its text can be read and each number in it is what the
reader makes of its text. -/
theorem toValue_json_eq_iff {v p knows} (source) (made : v.portable true = .ok p) (known : ∀ n ∈ v.natives, knows n = true) :
    Snapshot.toValue knows ⟨source, .json p⟩ = .ok v ↔
      p.datum.nesting < Datum.maxNesting ∧ ∀ x ∈ p.datum.floats, x.isFinite = true ∧ x.reread? = some x := by
  have stands := toValue_of_portable v made known
  rw [toValue_json_iff]
  constructor
  · rintro ⟨⟨shallow, readable⟩, back⟩
    have same : p.rereadNumbers = p := by
      have form := portable_of_toValue p.rereadNumbers back
      rw [made] at form
      exact (Except.ok.inj form).symm
    refine ⟨shallow, fun x inside => ⟨(readable x inside).1, ?_⟩⟩
    exact (Binary64.reread_eq_iff (readable x inside).2).1 ((rereadNumbers_eq_iff p).1 same x inside)
  · rintro ⟨shallow, precise⟩
    have readable : ∀ x ∈ p.datum.floats, x.Readable := by
      intro x inside
      obtain ⟨finite, same⟩ := precise x inside
      exact ⟨finite, by rw [same]; rfl⟩
    have same : p.rereadNumbers = p := by
      rw [rereadNumbers_eq_iff]
      intro x inside
      exact (Binary64.reread_eq_iff (readable x inside).2).2 (precise x inside).2
    rw [same]
    exact ⟨⟨shallow, readable⟩, stands⟩

/-- A value with a list, a dict or an exception in it, taken in full. The snapshot can be turned into a value again exactly
if the brackets of its text nest less than `Datum.maxNesting` deep and its numbers are finite and read without overflow; it is
the value that was taken exactly if, moreover, each number is what the reader makes of its text. -/
theorem json_transfer {m m' : Machine} {source : Int} {v : Value} {s : Snapshot} {knows : String → Bool}
    (container : v.hasContainer = true) (taken : m.snapshot source v true = (m', .ok s))
    (known : ∀ n ∈ v.natives, knows n = true) :
    m' = m ∧ ∃ p, v.portable true = .ok p ∧ s = ⟨source, .json p⟩ ∧
      ((∃ w, s.toValue knows = .ok w) ↔
        p.datum.nesting < Datum.maxNesting ∧ ∀ x ∈ p.datum.floats, x.isFinite = true ∧ x.reread?.isSome = true) ∧
      (s.toValue knows = .ok v ↔
        p.datum.nesting < Datum.maxNesting ∧ ∀ x ∈ p.datum.floats, x.isFinite = true ∧ x.reread? = some x) := by
  obtain ⟨rfl, p, made, rfl⟩ := snapshot_json container taken
  refine ⟨rfl, p, made, rfl, ?_, toValue_json_eq_iff source made known⟩
  obtain ⟨w, back⟩ := toValue_reread p (toValue_of_portable v made known)
  constructor
  · rintro ⟨u, crossed⟩
    exact ((toValue_json_iff source p u).1 crossed).1
  · intro readable
    exact ⟨w, (toValue_json_iff source p w).2 ⟨readable, back⟩⟩

/-- A native function and a list with one number. -/
def listed (bits : UInt64) : Value := .tuple [.native "f", .list [.float ⟨bits⟩]]

/-- One and a half comes back, not-a-number cannot be read, and 1.1841530126271647 comes back as another number. -/
theorem json_transfer_numbers :
    (∃ s, Machine.snapshot {} 0 (listed 0x3ff8000000000000) true = ({}, .ok s) ∧
      s.toValue (· == "f") = .ok (listed 0x3ff8000000000000)) ∧
    (∃ s, Machine.snapshot {} 0 (listed 0x7ff8000000000000) true = ({}, .ok s) ∧ ¬ ∃ w, s.toValue (· == "f") = .ok w) ∧
    (∃ s, Machine.snapshot {} 0 (listed 0x3ff2f24a6deb18c5) true = ({}, .ok s) ∧
      (∃ w, s.toValue (· == "f") = .ok w) ∧ s.toValue (· == "f") ≠ .ok (listed 0x3ff2f24a6deb18c5)) := by
  have known : ∀ bits, ∀ n ∈ (listed bits).natives, (n == "f") = true := by
    intro bits n inside
    obtain rfl : n = "f" := by simpa [listed, Value.natives, Value.nativesAll] using inside
    rfl
  have taken : ∀ bits, Machine.snapshot {} 0 (listed bits) true =
      ({}, .ok ⟨0, .json (.tuple [.native "f", .list [.float ⟨bits⟩]])⟩) := fun _ => rfl
  refine ⟨⟨_, taken _, ?_⟩, ⟨_, taken _, ?_⟩, _, taken _, ?_, ?_⟩
  · obtain ⟨-, p, made, -, -, kept⟩ := json_transfer rfl (taken 0x3ff8000000000000) (known _)
    cases made
    refine kept.2 ⟨by decide, fun x inside => ?_⟩
    obtain rfl := List.mem_singleton.1 inside
    decide +kernel
  · obtain ⟨-, p, made, -, reads, -⟩ := json_transfer rfl (taken 0x7ff8000000000000) (known _)
    cases made
    intro crossed
    have finite := ((reads.1 crossed).2 _ List.mem_cons_self).1
    exact absurd finite (by decide +kernel)
  · obtain ⟨-, p, made, -, reads, -⟩ := json_transfer rfl (taken 0x3ff2f24a6deb18c5) (known _)
    cases made
    refine reads.2 ⟨by decide, fun x inside => ?_⟩
    obtain rfl := List.mem_singleton.1 inside
    decide +kernel
  · obtain ⟨-, p, made, -, -, kept⟩ := json_transfer rfl (taken 0x3ff2f24a6deb18c5) (known _)
    cases made
    intro crossed
    have same := ((kept.1 crossed).2 _ List.mem_cons_self).2
    exact absurd same (by decide +kernel)

end MonitoredVm
