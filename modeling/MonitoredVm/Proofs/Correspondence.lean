import Mathlib.Data.List.Forall2
import MonitoredVm.Proofs.Evaluation

/-!
# Two runs side by side

A `Likeness` says when a value, a function, an exception and a host of one run correspond to those of another. If it
respects what the evaluator does with them (`Lawful`), runs of corresponding code from corresponding hosts end alike.
The code on the two sides differs in lines only.

Main statements: an expression, a statement and a block end alike whenever their calls do (`like_eval`, `like_exec`,
`like_block`), so calls do (`like_callValue`, by induction on the budget), and so do scripts (`like_execWith`).
-/

namespace MonitoredVm

variable {σ τ α β γ δ : Type}

/-- When what two runs hold corresponds. -/
structure Likeness (σ τ : Type) where
  value : Value → Value → Prop
  function : FunctionDef → FunctionDef → Prop
  exception : Exception → Exception → Prop
  line : Nat → Nat → Prop
  host : σ → τ → Prop

/-- The values that contain no others and are no functions of a script. -/
def Value.isSimple : Value → Bool
  | .none | .bool _ | .int _ | .float _ | .str _ | .bytes _ | .native _ => true
  | _ => false

namespace Likeness
variable (L : Likeness σ τ)

/-- The same statement up to its line and the function it defines. -/
inductive Statement : Stmt → Stmt → Prop
  | act {l l'} (action : Action) : L.line l l' → Statement (.act l action) (.act l' action)
  | define {l l' f g} : L.line l l' → L.function f g → Statement (.define l f) (.define l' g)

/-- What calls of two values can do alike. -/
inductive Callee : Value → Value → Prop
  | native (name : String) : Callee (.native name) (.native name)
  | function {f g} : L.function f g → Callee (.function f) (.function g)
  | other {v w} : v.isFunction = false → w.isFunction = false → v.typeName = w.typeName → Callee v w

def Pair (p q : Value × Value) : Prop := L.value p.1 q.1 ∧ L.value p.2 q.2

/-- The same name, bound to corresponding values. -/
def Entry (e e' : String × Value) : Prop := e.1 = e'.1 ∧ L.value e.2 e'.2

/-- The same names in the same order, bound to corresponding values. -/
def Bound (ns ns' : Namespace) : Prop := List.Forall₂ L.Entry ns.entries ns'.entries

/-- Corresponding scopes. -/
structure Scoped (s s' : Scope) : Prop where
  locals : L.Bound s.locals s'.locals
  globals : Option.Rel L.Bound s.globals s'.globals

/-- Corresponding results. -/
inductive Result (P : α → β → Prop) : Except Halt α → Except Halt β → Prop
  | ok {a b} : P a b → Result P (.ok a) (.ok b)
  | raised {e e'} : L.exception e e' → Result P (.error (.raised e)) (.error (.raised e'))
  | exhausted : Result P (.error .exhausted) (.error .exhausted)

def Runs (r : Run σ) (r' : Run τ) : Prop := L.host r.host r'.host ∧ r.depth = r'.depth

/-- From corresponding runs the computations lead to corresponding results and runs. -/
def Like (P : α → β → Prop) (x : Eval σ α) (y : Eval τ β) : Prop :=
  ∀ r r', L.Runs r r' → L.Result P (x r).1 (y r').1 ∧ L.Runs (x r).2 (y r').2

/-- Corresponding ends of scripts: results, bindings and hosts. -/
def Ended (x : Except Halt Unit × Namespace × σ) (y : Except Halt Unit × Namespace × τ) : Prop :=
  L.Result (fun _ _ => True) x.1 y.1 ∧ L.Bound x.2.1 y.2.1 ∧ L.host x.2.2 y.2.2

/-- Two ways to call values do alike. -/
def Calls (K : Caller σ) (K' : Caller τ) : Prop :=
  ∀ {callee callee' args args' kwargs kwargs' globals globals'}, L.value callee callee' →
    List.Forall₂ L.value args args' → L.Bound kwargs kwargs' → L.Bound globals globals' →
    L.Like L.value (K callee args kwargs globals) (K' callee' args' kwargs' globals')

/-- The natives of two hosts do alike. -/
structure Answered (h : Natives σ) (h' : Natives τ) : Prop where
  knows : ∀ {a b} name, L.host a b → h.knows a name = h'.knows b name
  letGo : ∀ {a b v w}, L.host a b → L.value v w → L.host (h.letGo v a) (h'.letGo w b)
  call : ∀ {a b args args' kwargs kwargs'} name, L.host a b → List.Forall₂ L.value args args' → L.Bound kwargs kwargs' →
    L.Result L.value (h.call name args kwargs a).1 (h'.call name args' kwargs' b).1 ∧
      L.host (h.call name args kwargs a).2 (h'.call name args' kwargs' b).2

/-- The likeness respects what the evaluator does with values, functions and exceptions, and the natives do alike. -/
structure Lawful (h : Natives σ) (h' : Natives τ) : Prop extends L.Answered h h' where
  simple : ∀ v : Value, v.isSimple = true → L.value v v
  tuple : ∀ {xs ys}, List.Forall₂ L.value xs ys → L.value (.tuple xs) (.tuple ys)
  list : ∀ {xs ys}, List.Forall₂ L.value xs ys → L.value (.list xs) (.list ys)
  dict : ∀ {ps qs}, List.Forall₂ L.Pair ps qs → L.value (.dict ps) (.dict qs)
  defined : ∀ {f g}, L.function f g → L.value (.function f) (.function g)
  callee : ∀ {v w}, L.value v w → L.Callee v w
  same : ∀ {a b c d}, L.value a b → L.value c d → a.same c = b.same d
  message : ∀ type {v w}, L.value v w → L.exception (raisedWith type v) (raisedWith type w)
  fresh : ∀ e, L.exception e e
  frame : ∀ {e e' l l'} file scope, L.exception e e' → L.line l l' →
    L.exception (e.pushFrame ⟨file, l, scope⟩) (e'.pushFrame ⟨file, l', scope⟩)
  parts : ∀ {f g}, L.function f g →
    f.name = g.name ∧ f.filename = g.filename ∧ f.params = g.params ∧ List.Forall₂ L.Statement f.body g.body

end Likeness

namespace Likeness
variable {L : Likeness σ τ}

/-! ## Bindings -/

theorem bound_empty : L.Bound {} {} := .nil

theorem lookup_rel (h : List.Forall₂ L.Entry es es') (name) :
    Option.Rel L.value (Bindings.lookup name es) (Bindings.lookup name es') := by
  induction h with
  | nil => exact .none
  | @cons e e' es es' here _ ih =>
    obtain ⟨k, v⟩ := e
    obtain ⟨k', v'⟩ := e'
    obtain ⟨rfl, like⟩ : k = k' ∧ L.value v v' := here
    rw [Bindings.lookup, Bindings.lookup]
    split
    · exact .some like
    · exact ih

theorem Bound.get? (h : L.Bound ns ns') (name) : Option.Rel L.value (ns.get? name) (ns'.get? name) := lookup_rel h name

theorem Bound.contains (h : L.Bound ns ns') (name) : ns.contains name = ns'.contains name := by
  have found := h.get? name
  rw [Bindings.contains, Bindings.contains]
  generalize ns.get? name = here at found ⊢
  generalize ns'.get? name = here' at found ⊢
  cases found <;> rfl

theorem Bound.insert (h : L.Bound ns ns') (like : L.value v w) (name) :
    L.Bound (ns.insert name v) (ns'.insert name w) := by
  unfold Bound at h
  show List.Forall₂ L.Entry (Bindings.put name v ns.entries) (Bindings.put name w ns'.entries)
  generalize ns.entries = es at h ⊢
  generalize ns'.entries = es' at h ⊢
  induction h with
  | nil => exact .cons ⟨rfl, like⟩ .nil
  | @cons e e' es es' here others ih =>
    obtain ⟨k, x⟩ := e
    obtain ⟨k', x'⟩ := e'
    obtain ⟨rfl, same⟩ : k = k' ∧ L.value x x' := here
    rw [Bindings.put, Bindings.put]
    split
    · exact .cons ⟨rfl, like⟩ others
    · exact .cons ⟨rfl, same⟩ ih

theorem Bound.erase (h : L.Bound ns ns') (name) : L.Bound (ns.erase name) (ns'.erase name) := by
  unfold Bound at h
  show List.Forall₂ L.Entry (Bindings.remove name ns.entries) (Bindings.remove name ns'.entries)
  generalize ns.entries = es at h ⊢
  generalize ns'.entries = es' at h ⊢
  induction h with
  | nil => exact .nil
  | @cons e e' es es' here others ih =>
    obtain ⟨k, x⟩ := e
    obtain ⟨k', x'⟩ := e'
    obtain ⟨rfl, same⟩ : k = k' ∧ L.value x x' := here
    rw [Bindings.remove, Bindings.remove]
    split
    · exact others
    · exact .cons ⟨rfl, same⟩ ih

theorem Bound.names (h : L.Bound ns ns') : ns.names = ns'.names := by
  unfold Bound at h
  show ns.entries.map (·.1) = ns'.entries.map (·.1)
  generalize ns.entries = es at h ⊢
  generalize ns'.entries = es' at h ⊢
  induction h with
  | nil => rfl
  | cons here _ ih => rw [List.map_cons, List.map_cons, here.1, ih]

theorem Scoped.get? (h : L.Scoped s s') (name) : Option.Rel L.value (s.get? name) (s'.get? name) := by
  unfold Scope.get?
  have here := h.locals.get? name
  generalize s.locals.get? name = found at here ⊢
  generalize s'.locals.get? name = found' at here ⊢
  cases here with
  | some like => exact .some like
  | none =>
    have outer := h.globals
    generalize s.globals = g at outer ⊢
    generalize s'.globals = g' at outer ⊢
    cases outer with
    | none => exact .none
    | some bound => exact bound.get? name

theorem Scoped.forCallee (h : L.Scoped s s') : L.Bound s.forCallee s'.forCallee := by
  unfold Scope.forCallee
  have outer := h.globals
  generalize s.globals = g at outer ⊢
  generalize s'.globals = g' at outer ⊢
  cases outer with
  | none => exact h.locals
  | some bound => exact bound

/-! ## Computations -/

theorem Like.pure (h : P a b) : L.Like P (pure a) (pure b) :=
  fun _ _ runs => ⟨.ok h, runs⟩

theorem Like.raise (h : L.exception e e') : L.Like P (MonitoredVm.raise e) (MonitoredVm.raise e') :=
  fun _ _ runs => ⟨.raised h, runs⟩

theorem Like.bind (first : L.Like P x y) (rest : ∀ a b, P a b → L.Like Q (f a) (g b)) :
    L.Like Q (x >>= f) (y >>= g) := by
  intro r r' runs
  obtain ⟨result, runs'⟩ := first r r' runs
  rcases value : x r with ⟨a, s⟩
  rcases value' : y r' with ⟨b, s'⟩
  rw [value, value'] at result runs'
  dsimp only at result runs'
  cases result with
  | ok like =>
    rw [bind_of_ok value, bind_of_ok value']
    exact rest _ _ like s s' runs'
  | raised like =>
    rw [bind_of_error value, bind_of_error value']
    exact ⟨.raised like, runs'⟩
  | exhausted =>
    rw [bind_of_error value, bind_of_error value']
    exact ⟨.exhausted, runs'⟩

theorem Result.map (h : L.Result P x y) (imp : ∀ a b, P a b → Q (f a) (g b)) : L.Result Q (x.map f) (y.map g) := by
  cases h with
  | ok like => exact .ok (imp _ _ like)
  | raised like => exact .raised like
  | exhausted => exact .exhausted

section Lawful
variable {h : Natives σ} {h' : Natives τ}

theorem like_lookup (laws : L.Lawful h h') (known : L.Scoped s s') (name) :
    L.Like L.value (s.lookup h name) (s'.lookup h' name) := by
  have found := known.get? name
  rw [Scope.lookup, Scope.lookup]
  generalize s.get? name = v at found ⊢
  generalize s'.get? name = w at found ⊢
  cases found with
  | some like => exact .pure like
  | none =>
    have got : L.Like (fun r r' => L.Runs r r') (get : Eval σ (Run σ)) (get : Eval τ (Run τ)) :=
      fun r r' runs => ⟨.ok runs, runs⟩
    refine got.bind fun r r' runs => ?_
    rw [laws.knows name runs.1]
    split
    · exact .pure (laws.simple _ rfl)
    · exact .raise (laws.fresh _)

theorem like_unbind (laws : L.Lawful h h') (bound : L.Bound ns ns') (name) :
    L.Like (fun _ _ => True) (h.unbind ns name) (h'.unbind ns' name) := by
  have found := bound.get? name
  rw [Natives.unbind, Natives.unbind]
  generalize ns.get? name = v at found ⊢
  generalize ns'.get? name = w at found ⊢
  cases found with
  | some like => exact fun r r' runs => ⟨.ok trivial, laws.letGo runs.1 like, runs.2⟩
  | none => exact .pure trivial

theorem putPair_rel (laws : L.Lawful h h') {key key' value value'} (k : L.value key key') (v : L.value value value')
    (pairs : List.Forall₂ L.Pair ps qs) : List.Forall₂ L.Pair (putPair key value ps) (putPair key' value' qs) := by
  induction pairs with
  | nil => exact .cons ⟨k, v⟩ .nil
  | @cons p q ps qs here others ih =>
    obtain ⟨a, b⟩ := p
    obtain ⟨a', b'⟩ := q
    rw [putPair, putPair, laws.same here.1 k]
    split
    · exact .cons ⟨here.1, v⟩ others
    · exact .cons here ih

/-! ## Expressions -/

section Syntax
variable {K : Caller σ} {K' : Caller τ} {s : Scope} {s' : Scope}

section
variable (laws : L.Lawful h h') (calls : L.Calls K K') (known : L.Scoped s s')
include laws calls known

mutual

theorem like_eval :
    (e : Expr) → L.Like L.value (e.eval h K s) (e.eval h' K' s')
  | .none | .bool _ | .int _ | .float _ | .str _ | .bytes _ => .pure (laws.simple _ rfl)
  | .name n => like_lookup laws known n
  | .tuple items => (like_evalAll items).bind fun _ _ all => .pure (laws.tuple all)
  | .list items => (like_evalAll items).bind fun _ _ all => .pure (laws.list all)
  | .dict items => (like_evalPairs .nil items).bind fun _ _ all => .pure (laws.dict all)
  | .call func args kwargs =>
    (like_eval func).bind fun _ _ callee =>
      (like_evalAll args).bind fun _ _ given =>
        (like_evalNamed bound_empty kwargs).bind fun _ _ named =>
          calls callee given named known.forCallee

theorem like_evalAll :
    (es : List Expr) → L.Like (List.Forall₂ L.value) (Expr.evalAll h K s es) (Expr.evalAll h' K' s' es)
  | [] => .pure .nil
  | e :: es =>
    (like_eval e).bind fun _ _ first =>
      (like_evalAll es).bind fun _ _ others => .pure (.cons first others)

theorem like_evalPairs {read read'}
    (before : List.Forall₂ L.Pair read read') : (es : List (Expr × Expr)) →
    L.Like (List.Forall₂ L.Pair) (Expr.evalPairs h K s read es) (Expr.evalPairs h' K' s' read' es)
  | [] => .pure before
  | (k, v) :: rest =>
    (like_eval k).bind fun _ _ key =>
      (like_eval v).bind fun _ _ value =>
        like_evalPairs (putPair_rel laws key value before) rest

theorem like_evalNamed {read read'}
    (before : L.Bound read read') : (es : List (String × Expr)) →
    L.Like L.Bound (Expr.evalNamed h K s read es) (Expr.evalNamed h' K' s' read' es)
  | [] => .pure before
  | (key, e) :: rest =>
    (like_eval e).bind fun _ _ value => by
      rw [before.contains]
      split
      · exact .raise (laws.fresh _)
      · exact like_evalNamed (before.insert value key) rest

end
end

/-! ## Statements and blocks -/

/-- Corresponding ways to end. -/
inductive Flows (L : Likeness σ τ) : Flow → Flow → Prop
  | next : Flows L .next .next
  | returned {v w} : L.value v w → Flows L (.returned v) (.returned w)

/-- Corresponding ways to end, with corresponding bindings. -/
def Leads (L : Likeness σ τ) (o o' : Flow × Namespace) : Prop := Flows L o.1 o'.1 ∧ L.Bound o.2 o'.2

theorem like_exec (laws : L.Lawful h h') (calls : L.Calls K K') (outer : Option.Rel L.Bound globals globals')
    (bound : L.Bound ns ns') (like : L.Statement t t') :
    L.Like (Leads L) (t.exec h K globals ns) (t'.exec h' K' globals' ns') := by
  have known : L.Scoped ⟨ns, globals⟩ ⟨ns', globals'⟩ := ⟨bound, outer⟩
  cases like with
  | act action =>
    cases action with
    | pass => exact .pure ⟨.next, bound⟩
    | assign name e =>
      exact (like_eval laws calls known e).bind fun _ _ new =>
        (like_unbind laws bound name).bind fun _ _ _ => .pure ⟨.next, bound.insert new name⟩
    | delete name =>
      rw [Stmt.exec, Stmt.exec, bound.contains]
      split
      · exact (like_unbind laws bound name).bind fun _ _ _ => .pure ⟨.next, bound.erase name⟩
      · exact .raise (laws.fresh _)
    | raise type message =>
      cases message with
      | none => exact .raise (laws.fresh _)
      | some e => exact (like_eval laws calls known e).bind fun _ _ v => .raise (laws.message type v)
    | ret e =>
      cases e with
      | none =>
        have absent : L.Like L.value (pure .none : Eval σ Value) (pure .none) := .pure (laws.simple _ rfl)
        exact absent.bind fun _ _ v => .pure ⟨.returned v, bound⟩
      | some e => exact (like_eval laws calls known e).bind fun _ _ v => .pure ⟨.returned v, bound⟩
    | eval e => exact (like_eval laws calls known e).bind fun _ _ _ => .pure ⟨.next, bound⟩
  | @define _ _ f g _ function =>
    obtain ⟨name, -⟩ := laws.parts function
    rw [Stmt.exec, Stmt.exec, ← name]
    exact (like_unbind laws bound f.name).bind fun _ _ _ => .pure ⟨.next, bound.insert (laws.defined function) f.name⟩

theorem Statement.line (like : L.Statement t t') : L.line t.line t'.line := by
  cases like with
  | act _ line => exact line
  | define line _ => exact line

/-- Corresponding ends of a block: results and bindings. -/
def LikeBlock (L : Likeness σ τ) (x : StateM (Run σ) (Except Halt Flow × Namespace))
    (y : StateM (Run τ) (Except Halt Flow × Namespace)) : Prop :=
  ∀ r r', L.Runs r r' → L.Result (Flows L) (x r).1.1 (y r').1.1 ∧ L.Bound (x r).1.2 (y r').1.2 ∧ L.Runs (x r).2 (y r').2

theorem like_block (laws : L.Lawful h h') (calls : L.Calls K K') (outer : Option.Rel L.Bound globals globals')
    (filename scope) (stmts : List.Forall₂ L.Statement ts ts') (bound : L.Bound ns ns') :
    LikeBlock L (execBlock h K globals filename scope ts ns) (execBlock h' K' globals' filename scope ts' ns') := by
  induction stmts generalizing ns ns' with
  | nil => exact fun r r' runs => ⟨.ok .next, bound, runs⟩
  | @cons t t' ts ts' here _ ih =>
    intro r r' runs
    obtain ⟨result, runs'⟩ := like_exec laws calls outer bound here r r' runs
    rw [execBlock_cons, execBlock_cons]
    rcases value : t.exec h K globals ns r with ⟨a, s⟩
    rcases value' : t'.exec h' K' globals' ns' r' with ⟨b, s'⟩
    rw [value, value'] at result runs'
    cases result with
    | raised like => exact ⟨.raised (laws.frame _ _ like here.line), bound, runs'⟩
    | exhausted => exact ⟨.exhausted, bound, runs'⟩
    | @ok o o' leads =>
      obtain ⟨flow, after⟩ := o
      obtain ⟨flow', after'⟩ := o'
      obtain ⟨flows, bound'⟩ := leads
      cases flows with
      | returned v => exact ⟨.ok (.returned v), bound', runs'⟩
      | next => exact ih bound' s s' runs'

end Syntax

/-! ## Calls -/

theorem like_bindParams (laws : L.Lawful h h') (function) (named : L.Bound kwargs kwargs')
    (defaults : ∀ e, L.Like L.value (D e) (D' e)) (params) (given : List.Forall₂ L.value args args')
    (bound : L.Bound frame frame') (missing) :
    L.Like (fun o o' => L.Bound o.1 o'.1 ∧ o.2 = o'.2) (bindParams function kwargs D params args frame missing)
      (bindParams function kwargs' D' params args' frame' missing) := by
  induction params generalizing args args' frame frame' missing with
  | nil => exact .pure ⟨bound, rfl⟩
  | cons q params ih =>
    have keyword := named.get? q.name
    rw [bindParams.eq_def, bindParams.eq_def]
    dsimp only
    generalize kwargs.get? q.name = found at keyword ⊢
    generalize kwargs'.get? q.name = found' at keyword ⊢
    cases given with
    | cons first others =>
      cases keyword with
      | some => exact .raise (laws.fresh _)
      | none => exact ih others (bound.insert first q.name) missing
    | nil =>
      cases keyword with
      | some like => exact ih .nil (bound.insert like q.name) missing
      | none =>
        cases q.default with
        | some e => exact (defaults e).bind fun _ _ new => ih .nil (bound.insert new q.name) missing
        | none => exact ih .nil bound (q.name :: missing)

theorem like_bindArgs (laws : L.Lawful h h') (name : f.name = g.name) (params : f.params = g.params)
    (given : List.Forall₂ L.value args args') (named : L.Bound kwargs kwargs')
    (defaults : ∀ e, L.Like L.value (D e) (D' e)) :
    L.Like L.Bound (bindArgs f args kwargs D) (bindArgs g args' kwargs' D') := by
  rw [bindArgs, bindArgs, ← name, ← params, ← given.length_eq, ← named.names]
  dsimp only
  split
  · exact .raise (laws.fresh _)
  · split
    · exact .raise (laws.fresh _)
    · refine (like_bindParams laws f.name named defaults f.params given bound_empty []).bind fun o o' leads => ?_
      obtain ⟨frame, missing⟩ := o
      obtain ⟨frame', missing'⟩ := o'
      obtain ⟨bound, rfl⟩ : L.Bound frame frame' ∧ missing = missing' := leads
      dsimp only
      split
      · exact .pure bound
      · exact .raise (laws.fresh _)

theorem Flows.value (laws : L.Lawful h h') (like : Flows L flow flow') : L.value flow.value flow'.value := by
  cases like with
  | next => exact laws.simple _ rfl
  | returned v => exact v

theorem like_runBody (laws : L.Lawful h h') (calls : L.Calls B B') (function : L.function f g)
    (outer : L.Bound globals globals') (bound : L.Bound frame frame') :
    L.Like L.value (runBody h B f globals frame) (runBody h' B' g globals' frame') := by
  intro r r' runs
  obtain ⟨name, filename, -, body⟩ := laws.parts function
  have deep : L.Runs { r with depth := r.depth + 1 } { r' with depth := r'.depth + 1 } :=
    ⟨runs.1, congrArg (· + 1) runs.2⟩
  obtain ⟨result, -, runs'⟩ := like_block laws calls (.some outer) f.filename f.name body bound _ _ deep
  rcases ran : execBlock h B (some globals) f.filename f.name f.body frame { r with depth := r.depth + 1 } with
    ⟨⟨a, ns⟩, s⟩
  rcases ran' : execBlock h' B' (some globals') f.filename f.name g.body frame' { r' with depth := r'.depth + 1 } with
    ⟨⟨b, ns'⟩, s'⟩
  rw [ran, ran'] at result runs'
  rw [name, filename] at ran'
  rw [runBody_apply ran, runBody_apply ran']
  exact ⟨result.map fun _ _ flows => flows.value laws, runs'.1, congrArg (· - 1) runs'.2⟩

theorem like_callOnce (laws : L.Lawful h h') (calls : L.Calls K K') : L.Calls (callOnce h K K) (callOnce h' K' K') := by
  intro callee callee' args args' kwargs kwargs' globals globals' like given named outer r r' runs
  cases laws.callee like with
  | native name =>
    obtain ⟨result, host⟩ := laws.call name runs.1 given named
    rw [callOnce_native, callOnce_native, laws.knows name runs.1]
    split
    · exact ⟨result, host, runs.2⟩
    · exact ⟨.raised (laws.fresh _), runs⟩
  | function function =>
    obtain ⟨name, -, params, -⟩ := laws.parts function
    rw [callOnce_function, callOnce_function, runs.2]
    split
    · exact ⟨.raised (laws.fresh _), runs⟩
    · have known : L.Scoped ⟨globals, none⟩ ⟨globals', none⟩ := ⟨outer, .none⟩
      have frames := like_bindArgs laws name params given named (like_eval laws calls known)
      exact frames.bind (fun _ _ bound => like_runBody laws calls function outer bound) r r' runs
  | @other _ _ plain plain' type =>
    have dull : ∀ {ρ : Type} {h : Natives ρ} {D : Caller ρ} {v : Value} {args : List Value} {kwargs globals : Namespace},
        v.isFunction = false → callOnce h D D v args kwargs globals =
          raise (.typeError ("'" ++ v.typeName ++ "' object is not callable")) := by
      intro ρ h D v args kwargs globals plain
      cases v <;> first | rfl | cases plain
    rw [dull plain, dull plain', type]
    exact ⟨.raised (laws.fresh _), runs⟩

theorem like_callValue (laws : L.Lawful h h') (budget) : L.Calls (callValue h budget) (callValue h' budget) := by
  induction budget with
  | zero => exact fun _ _ _ _ _ _ runs => ⟨.exhausted, runs⟩
  | succ budget ih =>
    rw [callValue_succ, callValue_succ]
    exact like_callOnce laws ih

theorem like_execWith (laws : L.Lawful h h') (budget) (s s' : Script) (filename : s.filename = s'.filename)
    (body : List.Forall₂ L.Statement s.body s'.body) (bound : L.Bound ns ns') (host : L.host a b) :
    L.Ended (s.execWith h budget ns a) (s'.execWith h' budget ns' b) := by
  obtain ⟨result, bound', runs⟩ := like_block laws (like_callValue laws budget) .none s.filename "<module>" body bound
    { host := a } { host := b } ⟨host, rfl⟩
  unfold Script.execWith
  rw [← filename]
  exact ⟨result.map fun _ _ _ => trivial, bound', runs.1⟩

theorem like_applyValue (laws : L.Lawful h h') (like : L.value callee callee') (given : List.Forall₂ L.value args args')
    (named : L.Bound kwargs kwargs') (outer : L.Bound globals globals') (host : L.host a b) :
    L.Result L.value (applyValue h callee args kwargs globals a).1 (applyValue h' callee' args' kwargs' globals' b).1 ∧
      L.host (applyValue h callee args kwargs globals a).2 (applyValue h' callee' args' kwargs' globals' b).2 := by
  obtain ⟨result, runs⟩ := like_callValue laws callBudget like given named outer { host := a } { host := b } ⟨host, rfl⟩
  exact ⟨result, runs.1⟩

end Lawful
end Likeness
end MonitoredVm
