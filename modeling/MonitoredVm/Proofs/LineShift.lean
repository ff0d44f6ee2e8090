import MonitoredVm.Proofs.Correspondence
import MonitoredVm.Proofs.Statements

/-!
# Runs up to line numbers

Moving code down leaves what it does unchanged as long as nothing looks at line numbers. Two things do: tracebacks, and
the comparison of functions, which the keys of a dict go through.

Main statement: if some of the functions met are moved down and moving them changes no comparison, then runs on both
sides correspond (`shift_lawful`): the same results up to the lines in tracebacks and in functions.
-/

namespace MonitoredVm

open Value

/-! ## Values up to their functions -/

section Values
variable (R : FunctionDef → FunctionDef → Prop)

mutual

/-- The same value up to the functions in it, which are related by `R`. -/
def Value.Rel : Value → Value → Prop
  | .function f, w => ∃ g, w = .function g ∧ R f g
  | .tuple xs, w => ∃ ys, w = .tuple ys ∧ Value.RelAll xs ys
  | .list xs, w => ∃ ys, w = .list ys ∧ Value.RelAll xs ys
  | .dict ps, w => ∃ qs, w = .dict qs ∧ Value.RelPairs ps qs
  | v, w => w = v

def Value.RelAll : List Value → List Value → Prop
  | [], ws => ws = []
  | x :: xs, ws => ∃ y ys, ws = y :: ys ∧ x.Rel y ∧ Value.RelAll xs ys

def Value.RelPairs : List (Value × Value) → List (Value × Value) → Prop
  | [], ws => ws = []
  | (k, v) :: ps, ws => ∃ k' v' qs, ws = (k', v') :: qs ∧ k.Rel k' ∧ v.Rel v' ∧ Value.RelPairs ps qs

end
end Values

namespace Value
variable {R : FunctionDef → FunctionDef → Prop}

theorem relAll_iff : Value.RelAll R xs ys ↔ List.Forall₂ (Value.Rel R) xs ys := by
  induction xs generalizing ys with
  | nil =>
    constructor
    · rintro rfl
      exact .nil
    · intro all
      cases all
      rfl
  | cons x xs ih =>
    constructor
    · rintro ⟨y, ys, rfl, first, others⟩
      exact .cons first (ih.1 others)
    · intro all
      cases all with
      | cons first others => exact ⟨_, _, rfl, first, ih.2 others⟩

theorem relPairs_iff : Value.RelPairs R ps qs ↔ List.Forall₂ (fun p q => p.1.Rel R q.1 ∧ p.2.Rel R q.2) ps qs := by
  induction ps generalizing qs with
  | nil =>
    constructor
    · rintro rfl
      exact .nil
    · intro all
      cases all
      rfl
  | cons p ps ih =>
    obtain ⟨k, v⟩ := p
    constructor
    · rintro ⟨k', v', qs, rfl, first, second, others⟩
      exact .cons ⟨first, second⟩ (ih.1 others)
    · intro all
      cases all with
      | cons both others => exact ⟨_, _, _, rfl, both.1, both.2, ih.2 others⟩

/-- Neither a function of a script nor a container. -/
def isPlain : Value → Bool
  | .function _ | .tuple _ | .list _ | .dict _ => false
  | _ => true

theorem rel_plain {v w : Value} (plain : v.isPlain = true) (like : v.Rel R w) : w = v := by
  cases v with
  | function | tuple | list | dict => cases plain
  | _ => exact like

theorem same_plain {v v' w w' : Value} (plain : v.isPlain = true) (same : v.Rel R v') (like : w.Rel R w') :
    v.same w = v'.same w' := by
  rw [rel_plain plain same]
  cases w with
  | function | tuple | list | dict =>
    obtain ⟨_, rfl, _⟩ := like
    cases v with
    | function | tuple | list | dict => cases plain
    | _ => rfl
  | _ =>
    obtain rfl := like
    rfl

section
variable (functions : ∀ {f f' g g'}, R f f' → R g g' → f.same g = f'.same g')
include functions

mutual

theorem same_rel : (v : Value) → {v' w w' : Value} → v.Rel R v' → w.Rel R w' → v.same w = v'.same w'
  | .function f, v', w, w', ⟨g, same, like⟩, other => by
    subst same
    cases w with
    | function => obtain ⟨_, rfl, like'⟩ := other; exact functions like like'
    | tuple | list | dict => obtain ⟨_, rfl, _⟩ := other; rfl
    | _ => obtain rfl := other; rfl
  | .tuple xs, v', w, w', ⟨ys, same, like⟩, other => by
    subst same
    cases w with
    | tuple => obtain ⟨_, rfl, like'⟩ := other; exact sameAll_rel xs like like'
    | function | list | dict => obtain ⟨_, rfl, _⟩ := other; rfl
    | _ => obtain rfl := other; rfl
  | .list xs, v', w, w', ⟨ys, same, like⟩, other => by
    subst same
    cases w with
    | list => obtain ⟨_, rfl, like'⟩ := other; exact sameAll_rel xs like like'
    | function | tuple | dict => obtain ⟨_, rfl, _⟩ := other; rfl
    | _ => obtain rfl := other; rfl
  | .dict ps, v', w, w', ⟨qs, same, like⟩, other => by
    subst same
    cases w with
    | dict => obtain ⟨_, rfl, like'⟩ := other; exact samePairs_rel ps like like'
    | function | tuple | list => obtain ⟨_, rfl, _⟩ := other; rfl
    | _ => obtain rfl := other; rfl
  | .none, _, _, _, same, other | .bool _, _, _, _, same, other | .int _, _, _, _, same, other
  | .float _, _, _, _, same, other | .str _, _, _, _, same, other | .bytes _, _, _, _, same, other
  | .buffer _ _, _, _, _, same, other | .native _, _, _, _, same, other | .exception _, _, _, _, same, other
  | .host _ _, _, _, _, same, other => same_plain rfl same other

theorem sameAll_rel : (vs : List Value) → {vs' ws ws' : List Value} → Value.RelAll R vs vs' → Value.RelAll R ws ws' →
    Value.sameAll vs ws = Value.sameAll vs' ws'
  | [], vs', ws, ws', same, other => by
    obtain rfl : vs' = [] := same
    cases ws with
    | nil => obtain rfl : ws' = [] := other; rfl
    | cons => obtain ⟨_, _, rfl, -⟩ := other; rfl
  | v :: vs, vs', ws, ws', ⟨v', us, same, first, others⟩, other => by
    subst same
    cases ws with
    | nil => obtain rfl : ws' = [] := other; rfl
    | cons w ws =>
      obtain ⟨w', us', rfl, first', others'⟩ := other
      rw [Value.sameAll, Value.sameAll, same_rel v first first', sameAll_rel vs others others']

theorem samePairs_rel : (vs : List (Value × Value)) → {vs' ws ws' : List (Value × Value)} → Value.RelPairs R vs vs' →
    Value.RelPairs R ws ws' → Value.samePairs vs ws = Value.samePairs vs' ws'
  | [], vs', ws, ws', same, other => by
    obtain rfl : vs' = [] := same
    cases ws with
    | nil => obtain rfl : ws' = [] := other; rfl
    | cons => obtain ⟨_, _, _, rfl, -⟩ := other; rfl
  | (k, v) :: vs, vs', ws, ws', ⟨k', v', us, same, key, value, others⟩, other => by
    subst same
    cases ws with
    | nil => obtain rfl : ws' = [] := other; rfl
    | cons w ws =>
      obtain ⟨c, d⟩ := w
      obtain ⟨c', d', us', rfl, key', value', others'⟩ := other
      rw [Value.samePairs, Value.samePairs, same_rel k key key', same_rel v value value',
        samePairs_rel vs others others']

end
end

section
variable (names : ∀ {f g}, R f g → f.qualname = g.qualname)
include names

mutual

theorem reprChars_rel : (v : Value) → {w : Value} → v.Rel R w → v.reprChars = w.reprChars
  | .function f, _, ⟨g, same, like⟩ => by rw [same, reprChars, reprChars, names like]
  | .tuple [], _, ⟨ys, same, like⟩ => by
    obtain rfl : ys = [] := like
    rw [same]
  | .tuple [v], _, ⟨ys, same, like⟩ => by
    obtain ⟨w, zs, rfl, first, none⟩ := like
    obtain rfl : zs = [] := none
    rw [same, reprChars, reprChars, reprChars_rel v first]
  | .tuple (v :: u :: vs), _, ⟨ys, same, like⟩ => by
    have items := reprItems_rel (v :: u :: vs) like
    obtain ⟨v', us, rfl, -, others⟩ := like
    obtain ⟨u', us, rfl, -, -⟩ := others
    rw [same]
    show '(' :: reprItems (v :: u :: vs) ++ [')'] = '(' :: reprItems (v' :: u' :: us) ++ [')']
    rw [items]
  | .list xs, _, ⟨ys, same, like⟩ => by rw [same, reprChars, reprChars, reprItems_rel xs like]
  | .dict ps, _, ⟨qs, same, like⟩ => by rw [same, reprChars, reprChars, reprPairs_rel ps like]
  | .none, _, same | .bool _, _, same | .int _, _, same | .float _, _, same | .str _, _, same | .bytes _, _, same
  | .buffer _ _, _, same | .native _, _, same | .exception _, _, same | .host _ _, _, same =>
    congrArg reprChars (rel_plain rfl same).symm

theorem reprItems_rel : (vs : List Value) → {ws : List Value} → Value.RelAll R vs ws → reprItems vs = reprItems ws
  | [], _, same => congrArg reprItems (Eq.symm same)
  | v :: vs, _, ⟨w, ws, same, first, others⟩ => by
    rw [same, reprItems, reprItems, reprChars_rel v first, reprRest_rel vs others]

theorem reprRest_rel : (vs : List Value) → {ws : List Value} → Value.RelAll R vs ws → reprRest vs = reprRest ws
  | [], _, same => congrArg reprRest (Eq.symm same)
  | v :: vs, _, ⟨w, ws, same, first, others⟩ => by
    rw [same, reprRest, reprRest, reprChars_rel v first, reprRest_rel vs others]

theorem reprPairs_rel : (ps : List (Value × Value)) → {qs : List (Value × Value)} → Value.RelPairs R ps qs → reprPairs ps = reprPairs qs
  | [], _, same => congrArg reprPairs (Eq.symm same)
  | (k, v) :: ps, _, ⟨k', v', qs, same, key, value, others⟩ => by
    rw [same, reprPairs, reprPairs, reprChars_rel k key, reprChars_rel v value,
      reprPairsRest_rel ps others]

theorem reprPairsRest_rel : (ps : List (Value × Value)) → {qs : List (Value × Value)} → Value.RelPairs R ps qs →
    reprPairsRest ps = reprPairsRest qs
  | [], _, same => congrArg reprPairsRest (Eq.symm same)
  | (k, v) :: ps, _, ⟨k', v', qs, same, key, value, others⟩ => by
    rw [same, reprPairsRest, reprPairsRest, reprChars_rel k key, reprChars_rel v value,
      reprPairsRest_rel ps others]

end

theorem repr_rel {v w : Value} (like : v.Rel R w) :
    v.repr = w.repr := congrArg String.ofList (reprChars_rel names v like)

end

theorem typeName_rel {v w : Value} (like : v.Rel R w) : v.typeName = w.typeName := by
  cases v with
  | function | tuple | list | dict =>
    obtain ⟨_, rfl, _⟩ := like
    rfl
  | _ => rw [rel_plain rfl like]

end Value

/-! ## Moving down -/

theorem beq_add_right (k l m : Nat) : (l + k == m + k) = (l == m) := by
  rw [Bool.eq_iff_iff]
  simp

mutual

theorem Stmt.same_shift (k : Nat) : (s t : Stmt) → (s.shift k).same (t.shift k) = s.same t
  | .act l a, .act m b => congrArg (· && a.same b) (beq_add_right k l m)
  | .act _ _, .define _ _ => rfl
  | .define _ _, .act _ _ => rfl
  | .define l ⟨n, q, f, i, ps, body⟩, .define m g => by
    rw [Stmt.shift_define, Stmt.shift_define]
    simp only [FunctionOf.shift, Stmt.same, beq_add_right, Stmt.sameAll_shift k body g.body]

theorem Stmt.sameAll_shift (k) :
    (ss ts : List Stmt) → Stmt.sameAll (Stmt.shiftAll k ss) (Stmt.shiftAll k ts) = Stmt.sameAll ss ts
  | [], [] => rfl
  | [], _ :: _ => rfl
  | _ :: _, [] => rfl
  | s :: ss, t :: ts => by
    simp only [Stmt.shiftAll, Stmt.sameAll, Stmt.same_shift k s t, Stmt.sameAll_shift k ss ts]

end

theorem FunctionOf.same_shift (k : Nat) (f g : FunctionDef) : FunctionOf.same (f.shift k) (g.shift k) = FunctionOf.same f g := by
  simp only [FunctionOf.shift, FunctionOf.same, beq_add_right, Stmt.sameAll_shift]

/-- The same frame, possibly `k` lines further down. -/
structure Frame.Moved (k : Nat) (f g : Frame) : Prop where
  filename : g.filename = f.filename
  name : g.name = f.name
  line : g.line = f.line ∨ g.line = f.line + k

/-- The same exception, with some frames of its traceback `k` lines further down. -/
structure Exception.Moved (k : Nat) (e e' : Exception) : Prop where
  type : e'.type = e.type
  message : e'.message = e.message
  causes : e'.causes = e.causes
  traceback : List.Forall₂ (Frame.Moved k) e.traceback e'.traceback

/-- A function that stays where it is or one that is moved `k` lines down. -/
def Moves (k : Nat) (kept moved : FunctionDef → Prop) (f g : FunctionDef) : Prop :=
  (kept f ∧ g = f) ∨ (moved f ∧ g = f.shift k)

/-- The functions defined in a function with the property have it too. -/
def Nested (p : FunctionDef → Prop) : Prop := ∀ f, p f → ∀ s ∈ f.body, s.Defines p

/-- Moving functions `k` lines down changes no comparison with those that stay. -/
def Unmixed (k : Nat) (kept moved : FunctionDef → Prop) : Prop :=
  ∀ f g, kept f → moved g → FunctionOf.same f (g.shift k) = f.same g ∧ FunctionOf.same (g.shift k) f = g.same f

/-- Values up to moving some functions, exceptions up to moving frames, and hosts related by `H`. -/
def shiftLikeness {σ τ : Type} (k : Nat) (kept moved : FunctionDef → Prop) (H : σ → τ → Prop) : Likeness σ τ where
  value := Value.Rel (Moves k kept moved)
  function := Moves k kept moved
  exception := Exception.Moved k
  line l m := m = l ∨ m = l + k
  host := H

section Shift
variable {σ τ : Type} {k : Nat} {kept moved : FunctionDef → Prop} {H : σ → τ → Prop}

theorem Exception.Moved.refl (k) (e : Exception) : e.Moved k e :=
  ⟨rfl, rfl, rfl, List.forall₂_same.2 fun _ _ => ⟨rfl, rfl, .inl rfl⟩⟩

theorem Moves.qualname (h : Moves k kept moved f g) : f.qualname = g.qualname := by
  obtain ⟨-, rfl⟩ | ⟨-, rfl⟩ := h <;> rfl

theorem statements_kept (H : σ → τ → Prop) (defines : ∀ s ∈ ss, s.Defines kept) :
    List.Forall₂ (shiftLikeness k kept moved H).Statement ss ss := by
  refine List.forall₂_same.2 fun s inside => ?_
  have fine := defines s inside
  cases s with
  | act line action => exact .act action (.inl rfl)
  | define line f => exact .define (.inl rfl) (.inl ⟨fine, rfl⟩)

theorem statements_moved (H : σ → τ → Prop) (defines : ∀ s ∈ ss, s.Defines moved) :
    List.Forall₂ (shiftLikeness k kept moved H).Statement ss (Stmt.shiftAll k ss) := by
  induction ss with
  | nil => exact .nil
  | cons s ss ih =>
    refine .cons ?_ (ih fun t inside => defines t (List.mem_cons_of_mem _ inside))
    have fine := defines s List.mem_cons_self
    cases s with
    | act line action => exact .act action (.inr rfl)
    | define line f => exact .define (.inr rfl) (.inr ⟨fine, rfl⟩)

theorem Moves.same (unmixed : Unmixed k kept moved) {f f' g g'} (first : Moves k kept moved f f')
    (second : Moves k kept moved g g') : FunctionOf.same f g = FunctionOf.same f' g' := by
  obtain ⟨stays, rfl⟩ | ⟨goes, rfl⟩ := first
  · obtain ⟨-, rfl⟩ | ⟨goes, rfl⟩ := second
    · rfl
    · exact (unmixed _ _ stays goes).1.symm
  · obtain ⟨stays, rfl⟩ | ⟨-, rfl⟩ := second
    · exact (unmixed _ _ stays goes).2.symm
    · exact (FunctionOf.same_shift k f g).symm

theorem shift_lawful {h h'} (nestedKept : Nested kept) (nestedMoved : Nested moved) (unmixed : Unmixed k kept moved)
    (answered : (shiftLikeness k kept moved H).Answered h h') : (shiftLikeness k kept moved H).Lawful h h' where
  toAnswered := answered
  simple v fine := by
    cases v with
    | none | bool | int | float | str | bytes | native => rfl
    | _ => cases fine
  tuple all := ⟨_, rfl, relAll_iff.2 all⟩
  list all := ⟨_, rfl, relAll_iff.2 all⟩
  dict all := ⟨_, rfl, relPairs_iff.2 all⟩
  defined like := ⟨_, rfl, like⟩
  callee {v w} like := by
    have type := typeName_rel like
    cases v with
    | native name =>
      obtain rfl := rel_plain rfl like
      exact .native name
    | function =>
      obtain ⟨g, rfl, like⟩ := like
      exact .function like
    | tuple | list | dict =>
      obtain ⟨_, rfl, _⟩ := like
      exact .other rfl rfl type
    | _ =>
      obtain rfl := rel_plain rfl like
      exact .other rfl rfl type
  same := same_rel (fun {_ _ _ _} => Moves.same unmixed) _
  message type {v w} like := by
    have shown := repr_rel Moves.qualname like
    cases v with
    | function | tuple | list | dict =>
      obtain ⟨_, rfl, _⟩ := like
      show Exception.Moved k (.new type _) (.new type _)
      rw [shown]
      exact .refl k _
    | _ =>
      obtain rfl := rel_plain rfl like
      exact .refl k _
  fresh := Exception.Moved.refl k
  frame file scope like line := ⟨like.type, like.message, like.causes, .cons ⟨rfl, rfl, line⟩ like.traceback⟩
  parts {f g} like := by
    obtain ⟨stays, rfl⟩ | ⟨goes, rfl⟩ := like
    · exact ⟨rfl, rfl, rfl, statements_kept H (nestedKept _ stays)⟩
    · exact ⟨rfl, rfl, rfl, statements_moved H (nestedMoved _ goes)⟩

mutual

theorem rel_of_all : (v : Value) → v.All kept → v.Rel (Moves k kept moved) v
  | .function f, fine => ⟨f, rfl, .inl ⟨fine, rfl⟩⟩
  | .tuple items, fine => ⟨items, rfl, relAll_of_all items fine⟩
  | .list items, fine => ⟨items, rfl, relAll_of_all items fine⟩
  | .dict items, fine => ⟨items, rfl, relPairs_of_all items fine⟩
  | .none, _ | .bool _, _ | .int _, _ | .float _, _ | .str _, _ | .bytes _, _ | .buffer _ _, _ | .native _, _
  | .exception _, _ | .host _ _, _ => rfl

theorem relAll_of_all : (vs : List Value) → Value.AllIn kept vs → Value.RelAll (Moves k kept moved) vs vs
  | [], _ => rfl
  | v :: vs, fine => ⟨v, vs, rfl, rel_of_all v fine.1, relAll_of_all vs fine.2⟩

theorem relPairs_of_all : (ps : List (Value × Value)) → Value.AllPairs kept ps →
    Value.RelPairs (Moves k kept moved) ps ps
  | [], _ => rfl
  | (x, y) :: ps, fine => ⟨x, y, ps, rfl, rel_of_all x fine.1, rel_of_all y fine.2.1, relPairs_of_all ps fine.2.2⟩

end

theorem bound_of_all (H : σ → τ → Prop) (all : Namespace.All kept ns) : (shiftLikeness k kept moved H).Bound ns ns :=
  List.forall₂_same.2 fun e inside => ⟨rfl, rel_of_all e.2 (all e inside)⟩

/-! ## The builtins -/

theorem length?_rel (like : v.Rel R w) : Builtin.length? v = Builtin.length? w := by
  cases v with
  | function =>
    obtain ⟨_, rfl, _⟩ := like
    rfl
  | tuple | list =>
    obtain ⟨_, rfl, all⟩ := like
    exact congrArg some (relAll_iff.1 all).length_eq
  | dict =>
    obtain ⟨_, rfl, all⟩ := like
    exact congrArg some (relPairs_iff.1 all).length_eq
  | _ => rw [rel_plain rfl like]

theorem isEmpty_of_forall₂ (all : List.Forall₂ P xs ys) : xs.isEmpty = ys.isEmpty := by
  cases all <;> rfl

theorem isEmpty_of_bound {L : Likeness σ τ} {ns ns' : Namespace} (bound : L.Bound ns ns') : ns.isEmpty = ns'.isEmpty :=
  isEmpty_of_forall₂ bound

theorem single_rel (H : σ → τ → Prop) (function) (given : List.Forall₂ (Value.Rel (Moves k kept moved)) args args')
    (named : (shiftLikeness k kept moved H).Bound kwargs kwargs') :
    (∃ e, Builtin.single function args kwargs = .error e ∧ Builtin.single function args' kwargs' = .error e) ∨
    (∃ v w, Builtin.single function args kwargs = .ok v ∧ Builtin.single function args' kwargs' = .ok w ∧
      v.Rel (Moves k kept moved) w) := by
  unfold Builtin.single
  rw [← isEmpty_of_bound named, ← given.length_eq]
  split
  · exact .inl ⟨_, rfl, rfl⟩
  · cases given with
    | nil => exact .inl ⟨_, rfl, rfl⟩
    | cons like others =>
      cases others with
      | nil => exact .inr ⟨_, _, rfl, rfl, like⟩
      | cons => exact .inl ⟨_, rfl, rfl⟩

theorem apply_rel (H : σ → τ → Prop) (b : Builtin) (given : List.Forall₂ (Value.Rel (Moves k kept moved)) args args')
    (named : (shiftLikeness k kept moved H).Bound kwargs kwargs') :
    (shiftLikeness k kept moved H).Result (Value.Rel (Moves k kept moved)) (Builtin.outcome (b.apply args kwargs))
      (Builtin.outcome (b.apply args' kwargs')) := by
  have raised : ∀ e, (shiftLikeness k kept moved H).Result (Value.Rel (Moves k kept moved))
      (Builtin.outcome (.error e)) (Builtin.outcome (.error e)) := fun e => .raised (.refl k e)
  have done : ∀ {v w : Value}, v.Rel (Moves k kept moved) w → (shiftLikeness k kept moved H).Result
      (Value.Rel (Moves k kept moved)) (Builtin.outcome (.ok v)) (Builtin.outcome (.ok w)) := fun like => .ok like
  cases b with
  | len =>
    obtain ⟨e, one, one'⟩ | ⟨v, w, one, one', like⟩ := single_rel H "len" given named
    · rw [Builtin.apply, Builtin.apply, one, one']
      exact raised e
    · rw [Builtin.apply, Builtin.apply, one, one']
      dsimp only [bind, Except.bind]
      rw [length?_rel like, typeName_rel like]
      split
      · exact done rfl
      · exact raised _
  | repr =>
    obtain ⟨e, one, one'⟩ | ⟨v, w, one, one', like⟩ := single_rel H "repr" given named
    · rw [Builtin.apply, Builtin.apply, one, one']
      exact raised e
    · rw [Builtin.apply, Builtin.apply, one, one']
      dsimp only [bind, Except.bind]
      rw [repr_rel Moves.qualname like]
      exact done rfl
  | memoryview =>
    obtain ⟨e, one, one'⟩ | ⟨v, w, one, one', like⟩ := single_rel H "memoryview" given named
    · rw [Builtin.apply, Builtin.apply, one, one']
      exact raised e
    · rw [Builtin.apply, Builtin.apply, one, one']
      cases v with
      | bytes | buffer =>
        obtain rfl := rel_plain rfl like
        exact done rfl
      | function | tuple | list | dict =>
        obtain ⟨_, rfl, _⟩ := like
        exact raised _
      | _ =>
        obtain rfl := rel_plain rfl like
        exact raised _
  | bytes =>
    rw [Builtin.apply, Builtin.apply, ← isEmpty_of_forall₂ given, ← isEmpty_of_bound named]
    split
    · exact done rfl
    · obtain ⟨e, one, one'⟩ | ⟨v, w, one, one', like⟩ := single_rel H "bytes" given named
      · rw [one, one']
        exact raised e
      · rw [one, one']
        cases v with
        | bytes | buffer =>
          obtain rfl := rel_plain rfl like
          exact done rfl
        | function | tuple | list | dict =>
          obtain ⟨_, rfl, _⟩ := like
          exact raised _
        | _ =>
          obtain rfl := rel_plain rfl like
          exact raised _

theorem builtins_answered (k) (kept moved : FunctionDef → Prop) :
    (shiftLikeness k kept moved fun _ _ : Unit => True).Answered Builtin.natives Builtin.natives where
  knows name _ := rfl
  letGo _ _ := trivial
  call name _ given named := by
    refine ⟨?_, trivial⟩
    dsimp only [Builtin.natives]
    split
    · exact apply_rel _ _ given named
    · exact .raised (.refl k _)

end Shift
end MonitoredVm
