import MonitoredVm.Proofs.Evaluation

/-!
# Where scripts end

A script has no loops, so it runs on only while calls nest. Bodies nest to `maxDepth` and then raise. The default
values of a call are evaluated before its body counts, so calls that nest through default values are not counted
at all. `callNested` counts both: bodies nest structurally, and at each depth at most `n` calls nest through the
default values of another.

Main statement: a script ends under some budget exactly if it ends with a bound on the calls nested through default
values, with the same answer; and where default values make no calls, every script ends.
-/

namespace MonitoredVm

variable {σ : Type}

/-! ## Runs that differ in how calls are made -/

/-- Runs the script with `K` to make its calls. -/
def Script.execCalling (h : Natives σ) (K : Caller σ) (s : Script) (ns : Namespace) (host : σ) :
    Except Halt Unit × Namespace × σ :=
  let ((result, ns), run) := (execBlock h K none s.filename "<module>" s.body ns).run { host }
  (result.map fun _ => (), ns, run.host)

theorem Script.execWith_eq (h : Natives σ) (budget) (s : Script) (ns) (host : σ) :
    s.execWith h budget ns host = s.execCalling h (callValue h budget) ns host := rfl

/-- Natives return: they are not cut short, and the functions in what they give back satisfy `p` if those in their
arguments do. -/
def Natives.Return (h : Natives σ) (p : FunctionDef → Prop) (ends : Prop) : Prop :=
  ∀ name args kwargs host, Value.AllIn p args → Namespace.All p kwargs →
    Outcome ends (Value.All p) (h.call name args kwargs host).1

def Contract.atDepth {h : Natives σ} {p : FunctionDef → Prop} {ends : Prop} (natives : h.Return p ends)
    (body : ∀ f, p f → ∀ s ∈ f.body, s.Defines p) (d : Nat) : Contract h p ends where
  pre r := r.depth = d
  step r s := s.depth = r.depth
  refl _ := rfl
  trans first second := second.trans first
  depth same := same
  keeps here same := same.trans here
  letGo _ _ _ := rfl
  native name args kwargs r _ given named := ⟨rfl, (natives name args kwargs r.host given named).ends⟩
  body := body

theorem Contract.atDepth_encloses {h : Natives σ} {p : FunctionDef → Prop} (natives : h.Return p ends)
    (body : ∀ f, p f → ∀ s ∈ f.body, s.Defines p) (d) :
    (Contract.atDepth natives body d).Encloses (Contract.atDepth natives body (d + 1)) where
  through _ _ _ _ _ _ _ := trivial
  enter _ here _ := congrArg (· + 1) here
  leave _ _ _ moved := congrArg (· - 1) moved

theorem Natives.return_any (h : Natives σ) : h.Return (fun _ => True) False := by
  intro name args kwargs host _ _
  rcases (h.call name args kwargs host).1 with (_ | _) | v
  · trivial
  · exact id
  · exact Value.all_of (fun _ => trivial) v

theorem Stmt.defines_any (s : Stmt) : s.Defines fun _ => True := by
  cases s <;> trivial

theorem Stmt.defines_body (f : FunctionDef) (_ : True) (s) (_ : s ∈ f.body) : s.Defines fun _ => True := s.defines_any

/-- The contract of any runs at depth `d`, cut short or not. -/
def Contract.level (h : Natives σ) (d : Nat) : Contract h (fun _ => True) False :=
  .atDepth h.return_any Stmt.defines_body d

/-- `K'` makes every call that `K` finishes in the same way, at depth `d`. -/
def Caller.Extends (h : Natives σ) (d : Nat) (K K' : Caller σ) : Prop := (Contract.level h d).Calls K K'

section Extending
variable {h : Natives σ} {d : Nat} {D D' B B' K K' : Caller σ}

theorem Caller.Extends.exhausted : Caller.Extends h d (fun _ _ _ _ => throw .exhausted) K :=
  fun _ _ _ _ _ _ _ _ => .exhausted id _

theorem Caller.Extends.callOnce (defaults : Caller.Extends h d D D')
    (bodies : d < maxDepth → Caller.Extends h (d + 1) B B') :
    Caller.Extends h d (callOnce h D B) (callOnce h D' B') := by
  refine Contract.tracks_callOnce (fun f _ globals outer => Contract.Calls.defaults defaults f outer) ?_
  intro r (here : r.depth = d) room
  exact ⟨Contract.level h (d + 1), Contract.atDepth_encloses _ _ d, bodies (here ▸ room)⟩

theorem Script.execCalling_eq (calls : Caller.Extends h 0 K K') {s : Script}
    (done : finished (s.execCalling h K ns host).1 = true) :
    s.execCalling h K' ns host = s.execCalling h K ns host := by
  have every : ∀ ns, Namespace.All (fun _ => True) ns := fun _ e _ => Value.all_of (fun _ => trivial) e.2
  have defines : ∀ t ∈ s.body, t.Defines fun _ => True := fun t _ => by cases t <;> trivial
  obtain ⟨-, -, -, same⟩ := Contract.tracks_block calls (fun g _ => every g) s.filename "<module>" defines (every ns)
    { host } rfl
  change finished (Except.map _ _) = true at done
  rw [finished_map] at done
  exact congrArg (fun o : (Except Halt Flow × Namespace) × Run σ => (o.1.1.map fun _ => (), o.1.2, o.2.host)) (same done)

end Extending

theorem callValue_extends (h : Natives σ) (more : budget ≤ budget') (d) :
    Caller.Extends h d (callValue h budget) (callValue h budget') := by
  induction budget generalizing budget' d with
  | zero => exact .exhausted
  | succ budget ih =>
    obtain ⟨budget', rfl⟩ : ∃ k, budget' = k + 1 := ⟨budget' - 1, by omega⟩
    rw [callValue_succ, callValue_succ]
    exact .callOnce (ih (by omega) d) fun _ => ih (by omega) (d + 1)

/-! ## Counting the two ways of nesting -/

/-- Calls made at one depth, of which at most `left` nest through default values; `body` makes those in bodies. -/
def callLevel (h : Natives σ) (body : Caller σ) : (left : Nat) → Caller σ
  | 0 => fun _ _ _ _ => throw .exhausted
  | left + 1 => callOnce h (callLevel h body left) body

/-- Calls in which bodies nest at most `bodies` deep and, at each depth, at most `n` calls nest through the default
values of another. -/
def callNested (h : Natives σ) (n : Nat) : (bodies : Nat) → Caller σ
  | 0 => callLevel h (fun _ _ _ _ => throw .exhausted) (n + 1)
  | bodies + 1 => callLevel h (callNested h n bodies) (n + 1)

/-- Runs the script with at most `n` calls nested through default values at each depth. -/
def Script.execNested (h : Natives σ) (n : Nat) (s : Script) (ns : Namespace) (host : σ) :
    Except Halt Unit × Namespace × σ :=
  s.execCalling h (callNested h n maxDepth) ns host

section Counting
variable {h : Natives σ}

theorem callLevel_extends (deeper : ∀ budget, room ≤ budget → Caller.Extends h (d + 1) body (callValue h budget))
    (fits : left + room ≤ budget) : Caller.Extends h d (callLevel h body left) (callValue h budget) := by
  induction left generalizing budget with
  | zero => exact .exhausted
  | succ left ih =>
    obtain ⟨budget, rfl⟩ : ∃ k, budget = k + 1 := ⟨budget - 1, by omega⟩
    rw [callLevel, callValue_succ]
    exact .callOnce (ih (by omega)) fun _ => deeper budget (by omega)

theorem callNested_extends (fits : (bodies + 1) * (n + 1) ≤ budget) (d) :
    Caller.Extends h d (callNested h n bodies) (callValue h budget) := by
  induction bodies generalizing budget d with
  | zero =>
    have none : ∀ budget, 0 ≤ budget →
        Caller.Extends h (d + 1) (fun _ _ _ _ => throw .exhausted) (callValue h budget) := fun _ _ => .exhausted
    exact callLevel_extends none (by omega)
  | succ bodies ih =>
    refine callLevel_extends (fun budget enough => ih enough (d + 1)) ?_
    calc n + 1 + (bodies + 1) * (n + 1) = (bodies + 1) * (n + 1) + (n + 1) := Nat.add_comm _ _
      _ = (bodies + 1 + 1) * (n + 1) := (Nat.succ_mul _ _).symm
      _ ≤ budget := fits

/-- A budget bounds both ways of nesting: bodies never nest deeper than `maxDepth`, and every call takes a unit of the
budget. The induction is on the budget, over all depths at once. -/
theorem callValue_extends_level (shallow : d ≤ maxDepth) (most : budget ≤ left) (least : left ≤ n + 1)
    (deeper : d < maxDepth → body = callNested h n (maxDepth - (d + 1))) :
    Caller.Extends h d (callValue h budget) (callLevel h body left) := by
  induction budget generalizing left d body with
  | zero => exact .exhausted
  | succ budget ih =>
    obtain ⟨left, rfl⟩ : ∃ k, left = k + 1 := ⟨left - 1, by omega⟩
    rw [callLevel, callValue_succ]
    refine .callOnce (ih shallow (by omega) (by omega) deeper) fun room => ?_
    rw [deeper room]
    cases rest : maxDepth - (d + 1) with
    | zero => exact ih room (by omega) (Nat.le_refl _) fun further => absurd rest (by omega)
    | succ bodies =>
      refine ih room (by omega) (Nat.le_refl _) fun _ => ?_
      rw [show maxDepth - (d + 1 + 1) = bodies by omega]

theorem callValue_extends_nested (most : budget ≤ n + 1) :
    Caller.Extends h 0 (callValue h budget) (callNested h n maxDepth) :=
  callValue_extends_level (Nat.zero_le _) most (Nat.le_refl _) fun _ => rfl

end Counting

/-! ## Default values without calls -/

mutual

def Expr.callFree : Expr → Bool
  | .tuple items => Expr.callFreeAll items
  | .list items => Expr.callFreeAll items
  | .dict items => Expr.callFreePairs items
  | .call _ _ _ => false
  | _ => true

def Expr.callFreeAll : List Expr → Bool
  | [] => true
  | e :: es => e.callFree && Expr.callFreeAll es

def Expr.callFreePairs : List (Expr × Expr) → Bool
  | [] => true
  | (k, v) :: rest => k.callFree && v.callFree && Expr.callFreePairs rest

end

/-- The default value makes no call. -/
def Param.callFree (p : Param) : Bool := p.default.all Expr.callFree

mutual

/-- The functions defined in the statement, however deep, have default values that make no calls. -/
def Stmt.callFreeDefaults : Stmt → Bool
  | .act _ _ => true
  | .define _ ⟨_, _, _, _, params, body⟩ => params.all Param.callFree && Stmt.callFreeDefaultsAll body

def Stmt.callFreeDefaultsAll : List Stmt → Bool
  | [] => true
  | s :: rest => s.callFreeDefaults && Stmt.callFreeDefaultsAll rest

end

/-- The default values of the function and of those defined in it make no calls. -/
def FunctionOf.callFreeDefaults (f : FunctionDef) : Bool :=
  f.params.all Param.callFree && Stmt.callFreeDefaultsAll f.body

section CallFree
variable {h : Natives σ} (K K' : Caller σ) (s : Scope)

mutual

theorem Expr.eval_callFree : (e : Expr) → e.callFree = true → e.eval h K s = e.eval h K' s
  | .none, _ | .bool _, _ | .int _, _ | .float _, _ | .str _, _ | .bytes _, _ | .name _, _ => rfl
  | .tuple items, free => by rw [Expr.eval, Expr.eval, Expr.evalAll_callFree items free]
  | .list items, free => by rw [Expr.eval, Expr.eval, Expr.evalAll_callFree items free]
  | .dict items, free => by rw [Expr.eval, Expr.eval, Expr.evalPairs_callFree [] items free]
  | .call _ _ _, free => Bool.noConfusion (show false = true from free)

theorem Expr.evalAll_callFree :
    (es : List Expr) → Expr.callFreeAll es = true → Expr.evalAll h K s es = Expr.evalAll h K' s es
  | [], _ => rfl
  | e :: es, free => by
    have both := Bool.and_eq_true_iff.1 free
    rw [Expr.evalAll, Expr.evalAll, Expr.eval_callFree e both.1, Expr.evalAll_callFree es both.2]

theorem Expr.evalPairs_callFree (read) :
    (es : List (Expr × Expr)) → Expr.callFreePairs es = true →
      Expr.evalPairs h K s read es = Expr.evalPairs h K' s read es
  | [], _ => rfl
  | (k, v) :: rest, free => by
    have both := Bool.and_eq_true_iff.1 free
    have pair := Bool.and_eq_true_iff.1 both.1
    rw [Expr.evalPairs, Expr.evalPairs, Expr.eval_callFree k pair.1, Expr.eval_callFree v pair.2]
    simp only [Expr.evalPairs_callFree _ rest both.2]

end

end CallFree

theorem Stmt.defines_of_callFree : {stmts : List Stmt} → Stmt.callFreeDefaultsAll stmts = true →
    ∀ s ∈ stmts, s.Defines fun f => f.callFreeDefaults = true
  | [], _, _, inside => absurd inside List.not_mem_nil
  | first :: rest, free, s, inside => by
    have both := Bool.and_eq_true_iff.1 free
    obtain rfl | later := List.mem_cons.1 inside
    · cases s with
      | act _ _ => trivial
      | define _ f => exact both.1
    · exact Stmt.defines_of_callFree both.2 s later

theorem FunctionOf.callFree_body (f : FunctionDef) (free : f.callFreeDefaults = true) :
    ∀ s ∈ f.body, s.Defines fun f => f.callFreeDefaults = true :=
  Stmt.defines_of_callFree (Bool.and_eq_true_iff.1 free).2

section Ending
variable {h : Natives σ} (natives : h.Return (fun f => f.callFreeDefaults = true) True)

theorem tracks_callFree (d) (D : Caller σ) {f : FunctionDef} (free : f.callFreeDefaults = true)
    (outer : Namespace.All (fun f => f.callFreeDefaults = true) globals) :
    (Contract.atDepth natives FunctionOf.callFree_body d).Defaults (Expr.eval h D ⟨globals, none⟩)
      (Expr.eval h D ⟨globals, none⟩) f.params := by
  intro q inside e default
  have free : e.callFree = true := by
    have all := List.all_eq_true.1 (Bool.and_eq_true_iff.1 free).1 q inside
    rw [Param.callFree, Option.mem_def.1 default] at all
    exact all
  -- nothing is called, so any caller will do to show that the evaluation ends
  rw [Expr.eval_callFree D (fun _ _ _ _ => raise (.typeError "")) _ e free]
  exact Contract.tracks_eval (fun _ _ _ _ _ _ _ _ => .raise rfl) outer.scope e

/-- Calls end when default values make none: a budget beyond the depth that is left is enough. The induction is on the
budget; each body takes one unit and one level. -/
theorem calls_end (shallow : d ≤ maxDepth) (enough : maxDepth < d + budget) :
    (Contract.atDepth natives FunctionOf.callFree_body d).Calls (callValue h budget) (callValue h budget) := by
  induction budget generalizing d with
  | zero => omega
  | succ budget ih =>
    rw [callValue_succ]
    refine Contract.tracks_callOnce (fun f free globals outer => tracks_callFree natives d _ free outer) ?_
    intro r (here : r.depth = d) room
    exact ⟨_, Contract.atDepth_encloses natives FunctionOf.callFree_body d, ih (by omega) (by omega)⟩

include natives in
theorem Script.finished_of_callFree {s : Script} (free : Stmt.callFreeDefaultsAll s.body = true)
    (fine : Namespace.All (fun f => f.callFreeDefaults = true) ns) (host : σ) (enough : maxDepth < budget) :
    finished (s.execWith h budget ns host).1 = true := by
  have calls := calls_end natives (Nat.zero_le _) (Nat.zero_add budget ▸ enough)
  obtain ⟨-, out, -⟩ := Contract.tracks_block calls (fun _ none => absurd none (Option.not_mem_none _)) s.filename
    "<module>" (Stmt.defines_of_callFree free) fine { host } rfl
  change finished (Except.map _ _) = true
  rw [finished_map]
  revert out
  rcases (execBlock h (callValue h budget) none s.filename "<module>" s.body ns { host }).1.1 with (_ | _) | _
  · exact fun _ => rfl
  · exact fun out => absurd trivial out
  · exact fun _ => rfl

end Ending

/-! ## The condition under which scripts end -/

/-- A script ends under some budget exactly if it ends with a bound on the calls nested through default values, and
then with the same answer, which more budget keeps. Bodies nest to `maxDepth`, where a call raises. Where default
values make no calls, every script ends. -/
theorem script_ends_iff_defaults_bounded (h : Natives σ) (s : Script) (ns : Namespace) (host : σ) :
    (∀ o, (∃ budget, s.execWith h budget ns host = o ∧ finished o.1 = true) ↔
      ∃ n, s.execNested h n ns host = o ∧ finished o.1 = true) ∧
    (∀ n budget, finished (s.execNested h n ns host).1 = true → (maxDepth + 1) * (n + 1) ≤ budget →
      s.execWith h budget ns host = s.execNested h n ns host) ∧
    (∀ budget budget', finished (s.execWith h budget ns host).1 = true → budget ≤ budget' →
      s.execWith h budget' ns host = s.execWith h budget ns host) ∧
    (∀ budget f args kwargs globals run, maxDepth ≤ run.depth →
      callValue h (budget + 1) (.function f) args kwargs globals run =
        (.error (.raised (.new .recursionError "maximum recursion depth exceeded")), run)) ∧
    (h.Return (fun f => f.callFreeDefaults = true) True → Stmt.callFreeDefaultsAll s.body = true →
      Namespace.All (fun f => f.callFreeDefaults = true) ns →
      ∀ budget, maxDepth < budget → finished (s.execWith h budget ns host).1 = true) := by
  have nested : ∀ n budget, finished (s.execNested h n ns host).1 = true → (maxDepth + 1) * (n + 1) ≤ budget →
      s.execWith h budget ns host = s.execNested h n ns host := by
    intro n budget done fits
    rw [Script.execWith_eq]
    exact Script.execCalling_eq (callNested_extends fits 0) done
  refine ⟨fun o => ⟨?_, ?_⟩, nested, ?_, ?_, ?_⟩
  · rintro ⟨budget, rfl, done⟩
    exact ⟨budget, Script.execCalling_eq (callValue_extends_nested (Nat.le_succ budget)) done, done⟩
  · rintro ⟨n, rfl, done⟩
    exact ⟨(maxDepth + 1) * (n + 1), nested n _ done (Nat.le_refl _), done⟩
  · intro budget budget' done more
    simp only [Script.execWith_eq] at done ⊢
    exact Script.execCalling_eq (callValue_extends h more 0) done
  · intro budget f args kwargs globals run deep
    rw [callValue_succ, callOnce_function, if_pos deep]
  · intro natives free fine budget enough
    exact Script.finished_of_callFree natives free fine host enough

/-- `def f(x=f()): pass`. -/
def selfDefault : FunctionDef :=
  ⟨"f", "f", "<test>", 1, [⟨"x", some (.call (.name "f") [] [])⟩], [.act 1 .pass]⟩

/-- Defines `selfDefault` and calls it. -/
def selfDefaultScript : Script :=
  ⟨"<test>", [.define 1 selfDefault, .act 2 (.eval (.call (.name "f") [] []))]⟩

/-- `def g(): return g()`, and a call of it. -/
def selfCallScript : Script :=
  ⟨"<test>", [.define 1 ⟨"g", "g", "<test>", 1, [], [.act 1 (.ret (some (.call (.name "g") [] [])))]⟩,
    .act 2 (.eval (.call (.name "g") [] []))]⟩

theorem eval_call_name (h : Natives σ) (bound : ns.get? name = some v) (globals) (r : Run σ) :
    (Expr.call (.name name) [] []).eval h K ⟨ns, globals⟩ r = K v [] {} (Scope.forCallee ⟨ns, globals⟩) r := by
  have found : Scope.lookup h ⟨ns, globals⟩ name r = (.ok v, r) := by
    rw [Scope.lookup, Scope.get?, bound]
    rfl
  rw [Expr.eval, Expr.eval, bind_of_ok found]
  rfl

/-- A function that calls itself in a default value is never entered: its call needs every budget there is. -/
theorem callValue_selfDefault (budget) (bound : ns.get? "f" = some (.function selfDefault)) :
    callValue Builtin.natives budget (.function selfDefault) [] {} ns { host := () } =
      (.error .exhausted, { host := () }) := by
  induction budget with
  | zero => rfl
  | succ budget ih =>
    rw [callValue_succ, callOnce_function, if_neg (by decide)]
    have again := (eval_call_name Builtin.natives bound none { host := () }).trans ih
    exact bind_of_error (bind_of_error (bind_of_error again))

theorem selfDefaultScript_runs_on (budget) :
    finished (selfDefaultScript.execWith Builtin.natives budget {} ()).1 = false := by
  have bound : (Bindings.insert {} "f" (Value.function selfDefault)).get? "f" = some (.function selfDefault) := rfl
  have called := (eval_call_name Builtin.natives bound none { host := () }).trans (callValue_selfDefault budget bound)
  change finished (Except.map _ (execBlock Builtin.natives (callValue Builtin.natives budget) none "<test>" "<module>"
    selfDefaultScript.body {} { host := () }).1.1) = false
  rw [finished_map, selfDefaultScript, execBlock_cons]
  change finished (execBlock Builtin.natives (callValue Builtin.natives budget) none "<test>" "<module>"
    [.act 2 (.eval (.call (.name "f") [] []))] (Bindings.insert {} "f" (.function selfDefault)) { host := () }).1.1 = false
  rw [execBlock_cons, Stmt.exec, bind_of_error called]
  rfl

theorem Builtin.single_fresh (failed : single function args kwargs = .error e) : e.traceback = [] := by
  unfold single at failed
  split at failed
  · exact Except.error.inj failed ▸ rfl
  · split at failed
    · cases failed
    · exact Except.error.inj failed ▸ rfl

theorem Builtin.natives_end (p : FunctionDef → Prop) (ends) (name args kwargs host) :
    Ends ends (fun e => e.traceback = []) (Value.All p) (natives.call name args kwargs host).1 := by
  have returns : ∀ b : Builtin, Ends ends (fun e => e.traceback = []) (Value.All p) (outcome (b.apply args kwargs)) := by
    intro b
    cases b with
    | len =>
      rw [apply]
      cases given : single "len" args kwargs with
      | error e => exact single_fresh given
      | ok v =>
        dsimp only [bind, Except.bind]
        cases length? v
        · rfl
        · trivial
    | repr =>
      rw [apply]
      cases given : single "repr" args kwargs with
      | error e => exact single_fresh given
      | ok v => trivial
    | memoryview =>
      rw [apply]
      cases given : single "memoryview" args kwargs with
      | error e => exact single_fresh given
      | ok v => cases v <;> first | rfl | trivial
    | bytes =>
      rw [apply]
      split
      · trivial
      · cases given : single "bytes" args kwargs with
        | error e => exact single_fresh given
        | ok v => cases v <;> first | rfl | trivial
  dsimp only [natives]
  cases Builtin.ofName? name with
  | some b => exact returns b
  | none => rfl

theorem Builtin.natives_return (p : FunctionDef → Prop) : Builtin.natives.Return p True :=
  fun name args kwargs host _ _ => (natives_end p True name args kwargs host).outcome

/-- A script that calls itself in a body ends; one that does so in a default value ends under no budget, and so under
no bound on the calls nested through default values. -/
theorem script_ends_iff_defaults_bounded_selfDefault :
    (∀ budget, finished (selfDefaultScript.execWith Builtin.natives budget {} ()).1 = false) ∧
    (∀ n, finished (selfDefaultScript.execNested Builtin.natives n {} ()).1 = false) ∧
    Stmt.callFreeDefaultsAll selfCallScript.body = true ∧
    finished (selfCallScript.execWith Builtin.natives (maxDepth + 1) {} ()).1 = true := by
  refine ⟨selfDefaultScript_runs_on, fun n => ?_, rfl, ?_⟩
  · rw [Bool.eq_false_iff]
    intro done
    obtain ⟨budget, same, -⟩ :=
      ((script_ends_iff_defaults_bounded Builtin.natives selfDefaultScript {} ()).1 _).2 ⟨n, rfl, done⟩
    exact Bool.noConfusion ((selfDefaultScript_runs_on budget).symm.trans (same ▸ done))
  · exact (script_ends_iff_defaults_bounded Builtin.natives selfCallScript {} ()).2.2.2.2 (Builtin.natives_return _) rfl
      .empty (maxDepth + 1) (Nat.lt_succ_self maxDepth)

end MonitoredVm
