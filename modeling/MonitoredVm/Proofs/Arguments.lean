import MonitoredVm.Proofs.Evaluation

/-!
# How arguments bind

`Binds` lists the ways a parameter gets its value: from the positional arguments while there are any, else from its
keyword, else from its default; one with none of these is missing. The loop over the parameters follows it
(`bindParams_apply`), so that what a frame holds is read off `Binds` by induction.

Main statement: `argument_binding`. A call binds its arguments exactly if it gives every parameter that needs a value
one and no parameter two; a call that does not raises, and the statement that makes it leaves its namespace alone.
-/

namespace MonitoredVm

open List

variable {σ : Type}

/-! ## What a call gives -/

/-- The parameters that get neither a positional nor a keyword argument, in order. -/
def Param.omitted (params : List Param) (args : List Value) (kwargs : Namespace) : List Param :=
  (params.drop args.length).filter fun p => !kwargs.contains p.name

namespace FunctionOf

/-- The parameters of a function that a call leaves to their defaults, in order. -/
def omitted (f : FunctionDef) (args : List Value) (kwargs : Namespace) : List Param := Param.omitted f.params args kwargs

/-- The arguments fit the parameters: none is too many, unknown, given twice or lacking. -/
structure Accepts (f : FunctionDef) (args : List Value) (kwargs : Namespace) : Prop where
  fits : args.length ≤ f.params.length
  known : ∀ k ∈ kwargs.names, ∃ p ∈ f.params, p.name = k
  once : ∀ (i : Nat) (p : Param), f.params[i]? = some p → i < args.length → p.name ∉ kwargs.names
  needed : ∀ (i : Nat) (p : Param), f.params[i]? = some p → p.default = none → i < args.length ∨ p.name ∈ kwargs.names

end FunctionOf

/-- The parameters take the arguments left, the keywords and the default values as the entries; the missing ones take
nothing. -/
inductive Binds (kwargs : Namespace) :
    List Param → List Value → (defaults : List Value) → List (String × Value) → (missing : List String) → Prop where
  | done : Binds kwargs [] [] [] [] []
  | positional {p ps v args defaults entries missing} : kwargs.get? p.name = none →
      Binds kwargs ps args defaults entries missing →
      Binds kwargs (p :: ps) (v :: args) defaults ((p.name, v) :: entries) missing
  | keyword {p ps v defaults entries missing} : kwargs.get? p.name = some v →
      Binds kwargs ps [] defaults entries missing → Binds kwargs (p :: ps) [] defaults ((p.name, v) :: entries) missing
  | default {p ps e v defaults entries missing} : kwargs.get? p.name = none → p.default = some e →
      Binds kwargs ps [] defaults entries missing →
      Binds kwargs (p :: ps) [] (v :: defaults) ((p.name, v) :: entries) missing
  | lacking {p ps defaults entries missing} : kwargs.get? p.name = none → p.default = none →
      Binds kwargs ps [] defaults entries missing → Binds kwargs (p :: ps) [] defaults entries (p.name :: missing)

section Omitted
variable {p : Param} {ps : List Param} {kwargs : Namespace}

theorem Param.omitted_given (p ps v args kwargs) :
    Param.omitted (p :: ps) (v :: args) kwargs = Param.omitted ps args kwargs := rfl

theorem Param.omitted_named (named : kwargs.get? p.name = some v) :
    Param.omitted (p :: ps) [] kwargs = Param.omitted ps [] kwargs :=
  filter_cons_of_neg (by simp [Bindings.contains, named])

theorem Param.omitted_left (absent : kwargs.get? p.name = none) :
    Param.omitted (p :: ps) [] kwargs = p :: Param.omitted ps [] kwargs :=
  filter_cons_of_pos (by simp [Bindings.contains, absent])

theorem Param.mem_omitted :
    p ∈ Param.omitted ps args kwargs ↔ ∃ i, ps[i]? = some p ∧ args.length ≤ i ∧ p.name ∉ kwargs.names := by
  have named : (!kwargs.contains p.name) = true ↔ p.name ∉ kwargs.names := by
    rw [← Bindings.isSome_get?_iff, Bindings.contains]
    simp
  rw [Param.omitted, mem_filter, named, mem_iff_getElem?]
  constructor
  · rintro ⟨⟨i, here⟩, absent⟩
    exact ⟨args.length + i, getElem?_drop.symm.trans here, Nat.le_add_right _ _, absent⟩
  · rintro ⟨i, here, later, absent⟩
    refine ⟨⟨i - args.length, ?_⟩, absent⟩
    rw [getElem?_drop, Nat.add_sub_cancel' later, here]

end Omitted

/-! ## What the entries say -/

namespace Binds
variable {kwargs : Namespace} {ps : List Param} {args defaults : List Value} {entries : List (String × Value)}
  {missing : List String}

section
variable (h : Binds kwargs ps args defaults entries missing)
include h

theorem missing_eq :
    missing = ((Param.omitted ps args kwargs).filter (·.default.isNone)).map (·.name) := by
  induction h with
  | done => rfl
  | positional _ _ ih => exact ih
  | keyword named _ ih => rw [Param.omitted_named named, ← ih]
  | default absent present _ ih => rw [Param.omitted_left absent, filter_cons_of_neg (by simp [present]), ← ih]
  | lacking absent none _ ih => rw [Param.omitted_left absent, filter_cons_of_pos (by simp [none]), map_cons, ← ih]

theorem names (complete : missing = []) :
    entries.map (·.1) = ps.map (·.name) := by
  induction h with
  | done => rfl
  | positional _ _ ih | keyword _ _ ih | default _ _ _ ih => rw [map_cons, map_cons, ih complete]
  | lacking => cases complete

theorem given {i : Nat} {p : Param} {v : Value}
    (here : ps[i]? = some p) (value : args[i]?.or (kwargs.get? p.name) = some v) : (p.name, v) ∈ entries := by
  induction h generalizing i with
  | done => cases here
  | positional _ _ ih =>
    cases i with
    | zero =>
      cases here
      cases value
      exact mem_cons_self
    | succ i => exact mem_cons_of_mem _ (ih here value)
  | keyword named _ ih =>
    cases i with
    | zero =>
      cases here
      cases named.symm.trans value
      exact mem_cons_self
    | succ i => exact mem_cons_of_mem _ (ih here value)
  | default absent _ _ ih =>
    cases i with
    | zero =>
      cases here
      cases absent.symm.trans value
    | succ i => exact mem_cons_of_mem _ (ih here value)
  | lacking absent _ _ ih =>
    cases i with
    | zero =>
      cases here
      cases absent.symm.trans value
    | succ i => exact ih here value

theorem left (complete : missing = []) {get : String → Option Value}
    (bound : ∀ e ∈ entries, get e.1 = some e.2) :
    (Param.omitted ps args kwargs).map (fun p => get p.name) = defaults.map some := by
  induction h with
  | done => rfl
  | positional _ _ ih => exact ih complete fun e inside => bound e (mem_cons_of_mem _ inside)
  | keyword named _ ih =>
    rw [Param.omitted_named named]
    exact ih complete fun e inside => bound e (mem_cons_of_mem _ inside)
  | default absent _ _ ih =>
    rw [Param.omitted_left absent, map_cons, map_cons, bound _ mem_cons_self,
      ih complete fun e inside => bound e (mem_cons_of_mem _ inside)]
  | lacking => cases complete

end

end Binds

/-! ## The loop over the parameters -/

section Loop
variable {h : Natives σ} {K : Caller σ} {scope : Scope} {kwargs : Namespace} (function : String)

theorem bindParams_twice (here : ps[i]? = some p) (early : i < args.length) (named : p.name ∈ kwargs.names)
    (D : Expr → Eval σ Value) (frame missing) (r : Run σ) :
    ∃ message, bindParams function kwargs D ps args frame missing r = (.error (.raised (.typeError message)), r) := by
  induction ps generalizing args i frame with
  | nil => cases here
  | cons q ps ih =>
    obtain ⟨v, args, rfl⟩ : ∃ v rest, args = v :: rest := exists_cons_of_length_pos (Nat.zero_lt_of_lt early)
    rw [bindParams.eq_def]
    dsimp only
    cases twice : kwargs.get? q.name with
    | some w => exact ⟨_, rfl⟩
    | none =>
      cases i with
      | zero =>
        cases here
        exact absurd named ((Bindings.get?_eq_none_iff kwargs).1 twice)
      | succ i => exact ih here (Nat.lt_of_succ_lt_succ early) _

/-- The loop binds as `Binds` says. The induction is on the parameters; default values come off the front of the list
as their parameters are met. -/
theorem bindParams_apply (fits : args.length ≤ ps.length)
    (once : ∀ (i : Nat) (p : Param), ps[i]? = some p → i < args.length → p.name ∉ kwargs.names)
    (evaluated : Expr.evalAll h K scope ((Param.omitted ps args kwargs).filterMap (·.default)) r = (.ok defaults, s))
    (frame : Namespace) (missing : List String) : ∃ entries lacking, Binds kwargs ps args defaults entries lacking ∧
      bindParams function kwargs (Expr.eval h K scope) ps args frame missing r =
        (.ok (frame.insertAll entries, missing.reverse ++ lacking), s) := by
  induction ps generalizing args defaults r frame missing with
  | nil =>
    obtain rfl := eq_nil_of_length_eq_zero (Nat.le_zero.1 fits)
    cases evaluated
    exact ⟨[], [], .done, by rw [append_nil]; rfl⟩
  | cons p ps ih =>
    rw [bindParams.eq_def]
    dsimp only
    have none_early : ∀ (i : Nat) (q : Param), ps[i]? = some q → i < ([] : List Value).length → q.name ∉ kwargs.names :=
      fun _ _ _ early => absurd early (Nat.not_lt_zero _)
    cases args with
    | cons v args =>
      have keyword := (Bindings.get?_eq_none_iff kwargs).2 (once 0 p rfl (Nat.zero_lt_succ _))
      obtain ⟨entries, lacking, binds, ran⟩ := ih (Nat.le_of_succ_le_succ fits)
        (fun i q here early => once (i + 1) q here (Nat.succ_lt_succ early)) evaluated (frame.insert p.name v) missing
      rw [keyword]
      exact ⟨_, _, .positional keyword binds, ran⟩
    | nil =>
      cases keyword : kwargs.get? p.name with
      | some v =>
        rw [Param.omitted_named keyword] at evaluated
        obtain ⟨entries, lacking, binds, ran⟩ := ih (Nat.zero_le _) none_early evaluated (frame.insert p.name v) missing
        exact ⟨_, _, .keyword keyword binds, ran⟩
      | none =>
        rw [Param.omitted_left keyword] at evaluated
        cases default : p.default with
        | some e =>
          rw [filterMap_cons_some default] at evaluated
          obtain ⟨v, t, value, evaluated⟩ := ok_of_bind evaluated
          obtain ⟨vs, u, evaluated, collected⟩ := ok_of_bind evaluated
          cases collected
          obtain ⟨entries, lacking, binds, ran⟩ := ih (Nat.zero_le _) none_early evaluated (frame.insert p.name v) missing
          exact ⟨_, _, .default keyword default binds, (bind_of_ok value).trans ran⟩
        | none =>
          rw [filterMap_cons_none default] at evaluated
          obtain ⟨entries, lacking, binds, ran⟩ := ih (Nat.zero_le _) none_early evaluated frame (p.name :: missing)
          refine ⟨_, _, .lacking keyword default binds, ran.trans ?_⟩
          rw [reverse_cons, append_assoc]
          rfl

end Loop

/-! ## The frame of a call -/

section Frame
variable {h : Natives σ} {K : Caller σ} {f : FunctionDef} {args defaults : List Value} {kwargs globals : Namespace}
  {run after : Run σ}
  (evaluated : Expr.evalAll h K ⟨globals, none⟩ ((f.omitted args kwargs).filterMap (·.default)) run = (.ok defaults, after))

theorem unknown_keyword_iff :
    (kwargs.names.find? fun k => f.params.all fun p => p.name != k) = none ↔ ∀ k ∈ kwargs.names, ∃ p ∈ f.params, p.name = k := by
  rw [find?_eq_none]
  simp

theorem Binds.complete_iff (binds : Binds kwargs f.params args defaults entries missing) :
    missing = [] ↔ ∀ (i : Nat) (p : Param), f.params[i]? = some p → p.default = none → i < args.length ∨ p.name ∈ kwargs.names := by
  rw [binds.missing_eq, map_eq_nil_iff, filter_eq_nil_iff]
  constructor
  · intro present i p here required
    by_cases early : i < args.length
    · exact .inl early
    · refine .inr (Classical.byContradiction fun absent => ?_)
      exact present p (Param.mem_omitted.2 ⟨i, here, Nat.le_of_not_lt early, absent⟩) (by rw [required]; rfl)
  · intro needed p inside
    obtain ⟨i, here, later, absent⟩ := Param.mem_omitted.1 inside
    intro required
    rcases needed i p here (Option.isNone_iff_eq_none.1 required) with early | named
    · exact absurd early (Nat.not_lt_of_le later)
    · exact absent named

include evaluated

theorem bindArgs_of_accepts (accepts : f.Accepts args kwargs) :
    ∃ entries, Binds kwargs f.params args defaults entries [] ∧
      bindArgs f args kwargs (Expr.eval h K ⟨globals, none⟩) run = (.ok (Bindings.insertAll {} entries), after) := by
  obtain ⟨entries, missing, binds, ran⟩ := bindParams_apply f.name accepts.fits accepts.once evaluated {} []
  obtain rfl := binds.complete_iff.2 accepts.needed
  refine ⟨entries, binds, ?_⟩
  rw [bindArgs]
  dsimp only
  rw [if_neg (Nat.not_lt_of_le accepts.fits), unknown_keyword_iff.2 accepts.known]
  exact bind_of_ok ran

/-- Arguments that do not fit raise `TypeError`, before the defaults are evaluated or right after. -/
theorem bindArgs_of_not_accepts (refused : ¬ f.Accepts args kwargs) :
    ∃ message last, bindArgs f args kwargs (Expr.eval h K ⟨globals, none⟩) run =
      (.error (.raised (.typeError message)), last) ∧ (last = run ∨ last = after) := by
  rw [bindArgs]
  dsimp only
  by_cases many : f.params.length < args.length
  · rw [if_pos many]
    exact ⟨_, run, rfl, .inl rfl⟩
  rw [if_neg many]
  cases unknown : kwargs.names.find? fun k => f.params.all fun p => p.name != k with
  | some k => exact ⟨_, run, rfl, .inl rfl⟩
  | none =>
    by_cases twice : ∃ (i : Nat) (p : Param), f.params[i]? = some p ∧ i < args.length ∧ p.name ∈ kwargs.names
    · obtain ⟨i, p, here, early, named⟩ := twice
      obtain ⟨message, ran⟩ := bindParams_twice f.name here early named (Expr.eval h K ⟨globals, none⟩) {} [] run
      exact ⟨message, run, bind_of_error ran, .inl rfl⟩
    · have once : ∀ (i : Nat) (p : Param), f.params[i]? = some p → i < args.length → p.name ∉ kwargs.names :=
        fun i p here early named => twice ⟨i, p, here, early, named⟩
      obtain ⟨entries, missing, binds, ran⟩ := bindParams_apply f.name (Nat.le_of_not_lt many) once evaluated {} []
      cases missing with
      | nil =>
        exact absurd ⟨Nat.le_of_not_lt many, unknown_keyword_iff.1 unknown, once, binds.complete_iff.1 rfl⟩ refused
      | cons name rest => exact ⟨_, after, bind_of_ok ran, .inr rfl⟩

end Frame

/-! ## The statement that makes the call -/

/-- The expression that an action evaluates. -/
def Action.operand? : Action → Option Expr
  | .assign _ e => some e
  | .raise _ e => e
  | .ret e => e
  | .eval e => some e
  | .pass | .delete _ => none

/-- Evaluating the expression from `r` comes, in the run `r'`, to calling `f` with these arguments. -/
def Expr.Reaches (h : Natives σ) (K : Caller σ) (s : Scope) (e : Expr) (r : Run σ) (f : FunctionDef) (args : List Value)
    (kwargs : Namespace) (r' : Run σ) : Prop :=
  ∃ func positional named t u, e = .call func positional named ∧ func.eval h K s r = (.ok (.function f), t) ∧
    Expr.evalAll h K s positional t = (.ok args, u) ∧ Expr.evalNamed h K s {} named u = (.ok kwargs, r')

theorem Expr.Reaches.eval {h : Natives σ} {e : Expr} (reaches : e.Reaches h K s r f args kwargs r') :
    e.eval h K s r = K (.function f) args kwargs s.forCallee r' := by
  obtain ⟨func, positional, named, t, u, rfl, callee, arguments, keywords⟩ := reaches
  exact (bind_of_ok callee).trans ((bind_of_ok arguments).trans (bind_of_ok keywords))

theorem exec_of_operand (operand : Action.operand? action = some e)
    (failed : e.eval h K ⟨ns, globals⟩ r = (.error halt, s)) :
    Stmt.exec h K globals ns (.act line action) r = (.error halt, s) := by
  cases action with
  | pass | delete => cases operand
  | assign | raise | ret | eval =>
    cases operand
    exact bind_of_error failed

/-- A function with pairwise distinct parameters is called, and the defaults that the call needs evaluate. The arguments
bind exactly if they fit. The frame then holds the parameters in order, each with its positional argument, else its
keyword, else the value of its default in the globals. Arguments that do not fit raise `TypeError`, and a block that makes
such a call ends there with its namespace as it was. -/
theorem argument_binding (h : Natives σ) (budget : Nat) {f : FunctionDef} (distinct : (f.params.map (·.name)).Nodup)
    {args defaults : List Value} {kwargs globals : Namespace} {run after : Run σ}
    (evaluated : Expr.evalAll h (callValue h budget) ⟨globals, none⟩ ((f.omitted args kwargs).filterMap (·.default)) run =
      (.ok defaults, after)) :
    let bound := bindArgs f args kwargs (Expr.eval h (callValue h budget) ⟨globals, none⟩) run
    ((∃ frame last, bound = (.ok frame, last)) ↔ f.Accepts args kwargs) ∧
    (∀ frame last, bound = (.ok frame, last) →
      last = after ∧ frame.names = f.params.map (·.name) ∧
      (∀ (i : Nat) (p : Param) (v : Value), f.params[i]? = some p → args[i]?.or (kwargs.get? p.name) = some v →
        frame.get? p.name = some v) ∧
      (f.omitted args kwargs).map (fun p => frame.get? p.name) = defaults.map some) ∧
    (¬ f.Accepts args kwargs → ∃ e last, bound = (.error (.raised e), last) ∧
      e.type = .typeError ∧ (last = run ∨ last = after) ∧
      ∀ (ns : Namespace) (outer : Option Namespace) (r : Run σ) (call : Expr), Scope.forCallee ⟨ns, outer⟩ = globals →
        call.Reaches h (callValue h (budget + 1)) ⟨ns, outer⟩ r f args kwargs run → run.depth < maxDepth →
        ∀ (line : Nat) (action : Action) (rest : List Stmt) (file scope : String), action.operand? = some call →
          execBlock h (callValue h (budget + 1)) outer file scope (.act line action :: rest) ns r =
            ((.error (.raised (e.pushFrame ⟨file, line, scope⟩)), ns), last)) := by
  intro bound
  have accepted : ∀ frame last, bound = (.ok frame, last) → f.Accepts args kwargs := by
    intro frame last ran
    refine Classical.byContradiction fun refused => ?_
    obtain ⟨message, _, raised, -⟩ := bindArgs_of_not_accepts evaluated refused
    cases congrArg Prod.fst (ran.symm.trans raised)
  refine ⟨⟨fun ⟨frame, last, ran⟩ => accepted frame last ran, fun accepts => ?_⟩, ?_, fun refused => ?_⟩
  · obtain ⟨entries, -, ran⟩ := bindArgs_of_accepts evaluated accepts
    exact ⟨_, _, ran⟩
  · intro frame last ran
    obtain ⟨entries, binds, ran'⟩ := bindArgs_of_accepts evaluated (accepted frame last ran)
    obtain ⟨rfl, rfl⟩ : Bindings.insertAll {} entries = frame ∧ after = last := by
      have same := Prod.mk.inj (ran'.symm.trans ran)
      exact ⟨Except.ok.inj same.1, same.2⟩
    have names := binds.names rfl
    have apart : (entries.map (·.1)).Nodup := names ▸ distinct
    have get : ∀ e ∈ entries, (Bindings.insertAll {} entries).get? e.1 = some e.2 :=
      fun e inside => Bindings.get?_insertAll_of_mem {} apart inside
    refine ⟨rfl, ?_, fun i p v here value => get _ (binds.given here value), binds.left rfl get⟩
    rw [Bindings.names_insertAll {} apart, ← names]
    exact List.filter_eq_self.2 fun _ _ => rfl
  · obtain ⟨message, last, ran, when⟩ := bindArgs_of_not_accepts evaluated refused
    refine ⟨_, last, ran, rfl, when, ?_⟩
    intro ns outer r call callee reaches room line action rest file scope operand
    have failed : call.eval h (callValue h (budget + 1)) ⟨ns, outer⟩ r = (.error (.raised (.typeError message)), last) := by
      rw [reaches.eval, callee, callValue_succ, callOnce_function, if_neg (Nat.not_le_of_lt room)]
      exact bind_of_error ran
    rw [execBlock_cons, exec_of_operand operand failed]
    rfl

/-- `def f(a, b, c=len('xyz'), d=4): pass` -/
def fourParameters : FunctionDef :=
  ⟨"f", "f", "m", 1, [⟨"a", none⟩, ⟨"b", none⟩, ⟨"c", some (.call (.name "len") [.str "xyz"] [])⟩, ⟨"d", some (.int 4)⟩],
    [.act 1 .pass]⟩

/-- `f(1, b=2)` binds all four parameters; `f(1, a=2)` raises and leaves the namespace as it was. -/
theorem argument_binding_fourParameters :
    (fourParameters.params.map (·.name)).Nodup ∧
    (∃ frame, bindArgs fourParameters [.int 1] ⟨[("b", .int 2)]⟩
        (Expr.eval Builtin.natives (callValue Builtin.natives 1) ⟨{}, none⟩) { host := () } = (.ok frame, { host := () }) ∧
      frame.names = ["a", "b", "c", "d"] ∧ frame.get? "a" = some (.int 1) ∧ frame.get? "b" = some (.int 2) ∧
      [frame.get? "c", frame.get? "d"] = [some (.int 3), some (.int 4)]) ∧
    ∃ (e : Exception) (last : Run Unit), e.type = .typeError ∧
      execBlock Builtin.natives (callValue Builtin.natives 2) none "m" "<module>"
        [.act 7 (.assign "x" (.call (.name "f") [.int 1] [("a", .int 2)]))] ⟨[("f", .function fourParameters)]⟩ { host := () } =
        ((.error (.raised (e.pushFrame ⟨"m", 7, "<module>"⟩)), ⟨[("f", .function fourParameters)]⟩), last) := by
  have distinct : (fourParameters.params.map (·.name)).Nodup := by decide
  refine ⟨distinct, ?_, ?_⟩
  · have accepts : fourParameters.Accepts [.int 1] ⟨[("b", .int 2)]⟩ := by
      refine ⟨by decide, by decide, ?_, ?_⟩
      · rintro (_ | i) p here early
        · cases here
          decide
        · cases early with | step early => cases early
      · rintro (_ | _ | _ | _ | i) p here required <;> cases here
        · exact .inl (by decide)
        · exact .inr (by decide)
        · cases required
        · cases required
    have evaluated : Expr.evalAll Builtin.natives (callValue Builtin.natives 1) ⟨{}, none⟩
        ((fourParameters.omitted [.int 1] ⟨[("b", .int 2)]⟩).filterMap (·.default)) { host := () } =
        (.ok [.int 3, .int 4], { host := () }) := rfl
    obtain ⟨binds, frames, -⟩ := argument_binding Builtin.natives 1 distinct evaluated
    obtain ⟨frame, last, ran⟩ := binds.2 accepts
    obtain ⟨rfl, names, given, left⟩ := frames frame last ran
    exact ⟨frame, ran, names, given 0 _ _ rfl rfl, given 1 _ _ rfl rfl, left⟩
  · have refused : ¬ fourParameters.Accepts [.int 1] ⟨[("a", .int 2)]⟩ :=
      fun accepts => accepts.once 0 _ rfl (by decide) (by decide)
    have evaluated : Expr.evalAll Builtin.natives (callValue Builtin.natives 1) ⟨⟨[("f", .function fourParameters)]⟩, none⟩
        ((fourParameters.omitted [.int 1] ⟨[("a", .int 2)]⟩).filterMap (·.default)) { host := () } =
        (.ok [.int 3, .int 4], { host := () }) := rfl
    obtain ⟨e, last, -, type, -, ends⟩ := (argument_binding Builtin.natives 1 distinct evaluated).2.2 refused
    refine ⟨e, last, type, ends _ none { host := () } _ rfl ?_ (by decide) 7 _ [] "m" "<module>" rfl⟩
    exact ⟨_, _, _, _, _, rfl, rfl, rfl, rfl⟩

end MonitoredVm
