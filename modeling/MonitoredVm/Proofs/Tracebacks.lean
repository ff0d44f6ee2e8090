import MonitoredVm.Proofs.Nesting

/-!
# Tracebacks

A frame is pushed where a statement fails, so an exception that carries frames was raised in a call. `Makes` says which
calls a computation makes, `Enters` which bodies a call runs, its own or one in a default value, and `Unwinds` follows an
exception from the block it ends to the bodies it came through.

Main statement: the traceback of a script mirrors its calls, outermost first and at most `maxDepth + 1` frames long, and
every evaluation gives the depth back (`traceback_mirrors_calls`).
-/

namespace MonitoredVm

variable {σ α β : Type} {h : Natives σ} {K : Caller σ}

/-! ## The calls of a computation -/

/-- A call with the run it is made from. -/
structure Invocation (σ : Type) where
  callee : Value
  args : List Value
  kwargs : Namespace
  globals : Namespace
  run : Run σ

/-- The computation comes to make the call, after work that went well. -/
inductive Makes (K : Caller σ) (c : Invocation σ) : {α : Type} → Eval σ α → Run σ → Prop
  | here : Makes K c (K c.callee c.args c.kwargs c.globals) c.run
  | first {α β r} {x : Eval σ α} {f : α → Eval σ β} : Makes K c x r → Makes K c (x >>= f) r
  | after {α β r s a} {x : Eval σ α} {f : α → Eval σ β} : x r = (.ok a, s) → Makes K c (f a) s → Makes K c (x >>= f) r

/-- What `x` raises with frames comes out of a call it makes. -/
def Blames (K : Caller σ) (x : Eval σ α) : Prop :=
  ∀ r e s, x r = (.error (.raised e), s) → e.traceback ≠ [] →
    ∃ c, Makes K c x r ∧ K c.callee c.args c.kwargs c.globals c.run = (.error (.raised e), s)

theorem Blames.pure (a : α) : Blames K (pure a) := fun _ _ _ raised => by cases raised

theorem Blames.raise (fresh : e.traceback = []) : Blames K (raise e : Eval σ α) := by
  intro r e' s raised frames
  cases raised
  exact absurd fresh frames

theorem Blames.bind (first : Blames K x) (rest : ∀ a, Blames K (f a)) : Blames K (x >>= f) := by
  intro r e s raised frames
  rcases value : x r with ⟨halt | a, r'⟩
  · rw [bind_of_error value] at raised
    cases raised
    obtain ⟨c, makes, same⟩ := first r e s value frames
    exact ⟨c, .first makes, same⟩
  · rw [bind_of_ok value] at raised
    obtain ⟨c, makes, same⟩ := rest a r' e s raised frames
    exact ⟨c, .after value makes, same⟩

theorem blames_call (callee args kwargs globals) : Blames K (K callee args kwargs globals) :=
  fun r _ _ raised _ => ⟨⟨callee, args, kwargs, globals, r⟩, .here, raised⟩

theorem blames_lookup (s : Scope) (name) : Blames K (s.lookup h name) := by
  rw [Scope.lookup]
  split
  · exact .pure _
  · refine Blames.bind (x := get) (fun _ _ _ raised => by cases raised) fun r => ?_
    split
    · exact .pure _
    · exact .raise rfl

theorem blames_unbind (ns name) : Blames K (h.unbind ns name) := by
  rw [Natives.unbind]
  split <;> exact fun _ _ _ raised => by cases raised

mutual

theorem blames_eval (s : Scope) : (e : Expr) → Blames K (e.eval h K s)
  | .none | .bool _ | .int _ | .float _ | .str _ | .bytes _ => .pure _
  | .name n => blames_lookup s n
  | .tuple items => (blames_evalAll s items).bind fun _ => .pure _
  | .list items => (blames_evalAll s items).bind fun _ => .pure _
  | .dict items => (blames_evalPairs s [] items).bind fun _ => .pure _
  | .call func args kwargs =>
    (blames_eval s func).bind fun callee => (blames_evalAll s args).bind fun args =>
      (blames_evalNamed s {} kwargs).bind fun kwargs => blames_call callee args kwargs s.forCallee

theorem blames_evalAll (s : Scope) : (es : List Expr) → Blames K (Expr.evalAll h K s es)
  | [] => .pure _
  | e :: es => (blames_eval s e).bind fun _ => (blames_evalAll s es).bind fun _ => .pure _

theorem blames_evalPairs (s : Scope) (read) : (es : List (Expr × Expr)) → Blames K (Expr.evalPairs h K s read es)
  | [] => .pure _
  | (k, v) :: rest =>
    (blames_eval s k).bind fun key => (blames_eval s v).bind fun value => blames_evalPairs s (putPair key value read) rest

theorem blames_evalNamed (s : Scope) (read) : (es : List (String × Expr)) → Blames K (Expr.evalNamed h K s read es)
  | [] => .pure _
  | (key, e) :: rest => (blames_eval s e).bind fun value => by
    split
    · exact .raise rfl
    · exact blames_evalNamed s (read.insert key value) rest

end

theorem blames_exec (globals ns) : (stmt : Stmt) → Blames K (stmt.exec h K globals ns)
  | .act _ .pass => .pure _
  | .act _ (.assign name e) => (blames_eval _ e).bind fun _ => (blames_unbind ns name).bind fun _ => .pure _
  | .act _ (.delete name) => by
    rw [Stmt.exec]
    split
    · exact (blames_unbind ns name).bind fun _ => .pure _
    · exact .raise rfl
  | .act _ (.raise type none) => .raise rfl
  | .act _ (.raise type (some e)) => (blames_eval _ e).bind fun v => .raise (Contract.raisedWith_traceback type v)
  | .act _ (.ret none) => (Blames.pure _).bind fun _ => .pure _
  | .act _ (.ret (some e)) => (blames_eval _ e).bind fun _ => .pure _
  | .act _ (.eval e) => (blames_eval _ e).bind fun _ => .pure _
  | .define _ f => (blames_unbind ns f.name).bind fun _ => .pure _

theorem blames_bindParams (defaults : ∀ e, Blames K (D e)) (function kwargs params args frame missing) :
    Blames K (bindParams function kwargs D params args frame missing) := by
  induction params generalizing args frame missing with
  | nil => exact .pure _
  | cons q params ih =>
    rw [bindParams.eq_def]
    dsimp only
    split
    · exact .raise rfl
    · exact ih _ _ _
    · exact ih _ _ _
    · split
      · exact (defaults _).bind fun v => ih _ _ _
      · exact ih _ _ _

theorem blames_bindArgs (defaults : ∀ e, Blames K (D e)) (f args kwargs) : Blames K (bindArgs f args kwargs D) := by
  rw [bindArgs]
  dsimp only
  split
  · exact .raise rfl
  · split
    · exact .raise rfl
    · refine (blames_bindParams defaults f.name kwargs f.params args {} []).bind fun o => ?_
      split
      · exact .pure _
      · exact .raise rfl

/-! ## The bodies of a call -/

/-- A block about to be run, with the budget for its calls. -/
structure Block (σ : Type) where
  budget : Nat
  globals : Option Namespace
  filename : String
  scope : String
  stmts : List Stmt
  ns : Namespace
  run : Run σ

namespace Block

def exec (h : Natives σ) (B : Block σ) : (Except Halt Flow × Namespace) × Run σ :=
  execBlock h (callValue h B.budget) B.globals B.filename B.scope B.stmts B.ns B.run

/-- The frame of a statement of the block. -/
def frame (B : Block σ) (stmt : Stmt) : Frame := ⟨B.filename, stmt.line, B.scope⟩

/-- The statement is reached in the namespace `ns` and the run `r` and raises `e` there. -/
def FailsAt (h : Natives σ) (B : Block σ) (stmt : Stmt) (ns : Namespace) (r : Run σ) (e : Exception) : Prop :=
  (∃ before after, B.stmts = before ++ stmt :: after ∧
    { B with stmts := before }.exec h = ((.ok .next, ns), r)) ∧
  (stmt.exec h (callValue h B.budget) B.globals ns r).1 = .error (.raised e)

end Block

/-- The call runs the body of its function, or that of one called in a default value. -/
inductive Enters (h : Natives σ) : Nat → Invocation σ → Block σ → Prop
  | body {b f args kwargs globals run frame r} :
    bindArgs f args kwargs (Expr.eval h (callValue h b) ⟨globals, none⟩) run = (.ok frame, r) →
    Enters h (b + 1) ⟨.function f, args, kwargs, globals, run⟩
      ⟨b, some globals, f.filename, f.name, f.body, frame, { r with depth := r.depth + 1 }⟩
  | default {b f args kwargs globals run c B} :
    Makes (callValue h b) c (bindArgs f args kwargs (Expr.eval h (callValue h b) ⟨globals, none⟩)) run →
    Enters h b c B → Enters h (b + 1) ⟨.function f, args, kwargs, globals, run⟩ B

/-- The exception ends the block: a statement raised it without frames, or it came out of a body which a call that the
statement made was running. -/
inductive Unwinds (h : Natives σ) : Block σ → Exception → Prop
  | here {B stmt ns r e} : B.FailsAt h stmt ns r e → e.traceback = [] → Unwinds h B (e.pushFrame (B.frame stmt))
  | call {B stmt ns r e c B'} : B.FailsAt h stmt ns r e →
    Makes (callValue h B.budget) c (stmt.exec h (callValue h B.budget) B.globals ns) r → Enters h B.budget c B' →
    Unwinds h B' e → Unwinds h B (e.pushFrame (B.frame stmt))

/-- What the natives raise carries no frames. -/
def Natives.Frameless (h : Natives σ) : Prop :=
  ∀ name args kwargs host e, (h.call name args kwargs host).1 = .error (.raised e) → e.traceback = []

/-- What a call raises with frames ends a body that it runs. The induction is on the budget. -/
theorem enters_of_raised (natives : h.Frameless)
    (raised : callValue h b c.callee c.args c.kwargs c.globals c.run = (.error (.raised e), s))
    (frames : e.traceback ≠ []) : ∃ B, Enters h b c B ∧ B.budget < b ∧ (B.exec h).1.1 = .error (.raised e) := by
  induction b generalizing c s with
  | zero => cases raised
  | succ b ih =>
    obtain ⟨callee, args, kwargs, globals, run⟩ := c
    rw [callValue_succ] at raised
    cases callee with
    | native name =>
      rw [callOnce_native] at raised
      split at raised
      · exact absurd (natives name args kwargs run.host e (congrArg Prod.fst raised)) frames
      · cases raised
        exact absurd rfl frames
    | function f =>
      rw [callOnce_function] at raised
      split at raised
      · cases raised
        exact absurd rfl frames
      · rcases value : bindArgs f args kwargs (Expr.eval h (callValue h b) ⟨globals, none⟩) run with ⟨halt | frame, r⟩
        · rw [bind_of_error value] at raised
          cases raised
          obtain ⟨c, makes, again⟩ := blames_bindArgs (blames_eval _) f args kwargs run e s value frames
          obtain ⟨B, enters, less, fails⟩ := ih again
          exact ⟨B, .default makes enters, Nat.lt_succ_of_lt less, fails⟩
        · rw [bind_of_ok value] at raised
          rcases ran : execBlock h (callValue h b) (some globals) f.filename f.name f.body frame
            { r with depth := r.depth + 1 } with ⟨⟨result, ns⟩, t⟩
          rw [runBody_apply ran] at raised
          refine ⟨_, .body value, Nat.lt_succ_self b, ?_⟩
          cases result with
          | error halt =>
            cases raised
            exact congrArg (·.1.1) ran
          | ok flow => cases raised
    | _ =>
      cases raised
      exact absurd rfl frames

theorem Block.failsAt_of_raised {B : Block σ} (raised : (B.exec h).1.1 = .error (.raised e)) :
    ∃ stmt ns r inner, B.FailsAt h stmt ns r inner ∧ e = inner.pushFrame (B.frame stmt) := by
  obtain ⟨b, globals, filename, scope, stmts, ns, run⟩ := B
  induction stmts generalizing ns run with
  | nil => cases raised
  | cons stmt rest ih =>
    rw [exec, execBlock_cons] at raised
    rcases value : stmt.exec h (callValue h b) globals ns run with ⟨halt | ⟨flow, ns'⟩, s⟩
    · rw [value] at raised
      cases halt with
      | exhausted => cases raised
      | raised inner =>
        cases raised
        exact ⟨stmt, ns, run, inner, ⟨⟨[], rest, rfl, rfl⟩, congrArg Prod.fst value⟩, rfl⟩
    · rw [value] at raised
      cases flow with
      | returned v => cases raised
      | next =>
        obtain ⟨later, ns'', r, inner, ⟨⟨before, after, rfl, ran⟩, fails⟩, rfl⟩ := ih ns' s raised
        refine ⟨later, ns'', r, inner, ⟨⟨stmt :: before, after, rfl, ?_⟩, fails⟩, rfl⟩
        rw [exec, execBlock_cons, value]
        exact ran

theorem unwinds_of_raised (natives : h.Frameless) {B : Block σ} (raised : (B.exec h).1.1 = .error (.raised e)) :
    Unwinds h B e := by
  induction budget : B.budget using Nat.strongRecOn generalizing B e with
  | _ b ih =>
    obtain ⟨stmt, ns, r, inner, fails, rfl⟩ := B.failsAt_of_raised raised
    by_cases fresh : inner.traceback = []
    · exact .here fails fresh
    · obtain ⟨c, makes, again⟩ := blames_exec B.globals ns stmt r inner _ (Prod.ext fails.2 rfl) fresh
      obtain ⟨B', enters, less, ended⟩ := enters_of_raised natives again fresh
      exact .call fails makes enters (ih B'.budget (budget ▸ less) ended rfl)

/-! ## The depth -/

theorem Exception.frames_fit {e : Exception} {depth : Nat} (none : e.traceback = []) (fits : depth ≤ maxDepth) :
    e.traceback.length + depth ≤ maxDepth := by
  rwa [none, List.length_nil, Nat.zero_add]

/-- Every frame but the outermost counts towards the depth. -/
def Natives.Frameless.contract (natives : h.Frameless) : Contract h (fun _ => True) False where
  pre r := r.depth ≤ maxDepth
  step r s := s.depth = r.depth
  raises r e := r.depth ≤ maxDepth → e.traceback.length + r.depth ≤ maxDepth
  fresh _ _ none fits := Exception.frames_fit none fits
  earlier same few fits := same ▸ few (same ▸ fits)
  refl := (Contract.level h maxDepth).refl
  trans := (Contract.level h maxDepth).trans
  depth := (Contract.level h maxDepth).depth
  keeps fits same := same ▸ fits
  letGo _ _ _ := rfl
  native name args kwargs r _ _ _ := by
    refine ⟨rfl, ?_⟩
    rcases out : (h.call name args kwargs r.host).1 with (e | _) | v
    · exact Exception.frames_fit (natives name args kwargs r.host e out)
    · exact id
    · exact Value.all_of (fun _ => trivial) v
  body := Stmt.defines_body

theorem Natives.Frameless.encloses (natives : h.Frameless) : natives.contract.Encloses natives.contract where
  enter _ _ room := room
  leave _ _ _ moved := congrArg (· - 1) moved
  through r f e _ room _ passes _ := by
    obtain ⟨s, -, inner, few, rfl⟩ := passes
    have few : inner.traceback.length + (r.depth + 1) ≤ maxDepth := few room
    change inner.traceback.length + 1 + r.depth ≤ maxDepth
    omega

def Script.block (s : Script) (ns : Namespace) (host : σ) : Block σ :=
  ⟨callBudget, none, s.filename, "<module>", s.body, ns, { host }⟩

/-- Tracebacks mirror the calls and the depth is given back. -/
theorem traceback_mirrors_calls (h : Natives σ) :
    (h.Frameless → ∀ (script : Script) ns host e, (script.exec h ns host).1 = .error (.raised e) →
      Unwinds h (script.block ns host) e ∧ 1 ≤ e.traceback.length ∧ e.traceback.length ≤ maxDepth + 1) ∧
    ∀ budget r,
      (∀ s e, (Expr.eval h (callValue h budget) s e r).2.depth = r.depth) ∧
      (∀ globals ns stmt, (Stmt.exec h (callValue h budget) globals ns stmt r).2.depth = r.depth) ∧
      (∀ globals filename scope stmts ns,
        (execBlock h (callValue h budget) globals filename scope stmts ns r).2.depth = r.depth) ∧
      ∀ callee args kwargs globals, (callValue h budget callee args kwargs globals r).2.depth = r.depth := by
  have every : ∀ ns, Namespace.All (fun _ => True) ns := fun _ e _ => Value.all_of (fun _ => trivial) e.2
  refine ⟨fun natives script ns host e raised => ?_, fun budget r => ?_⟩
  · have out : Ends False (natives.contract.Passes script.filename "<module>" script.body { host }) _
        ((script.block ns host).exec h).1.1 :=
      (Contract.tracks_block (natives.encloses.calls callBudget) (fun g _ => every g) script.filename "<module>"
        (fun s _ => s.defines_any) (every ns) { host } (Nat.zero_le _)).2.1
    have raised : ((script.block ns host).exec h).1.1 = .error (.raised e) := by
      revert raised
      change Except.map _ ((script.block ns host).exec h).1.1 = _ → _
      rcases ((script.block ns host).exec h).1.1 with halt | flow
      · exact fun same => congrArg _ (Except.error.inj same)
      · exact fun same => by cases same
    rw [raised] at out
    obtain ⟨s, -, inner, few, rfl⟩ := out
    exact ⟨unwinds_of_raised natives raised, Nat.le_add_left .., Nat.succ_le_succ (few (Nat.zero_le _))⟩
  · have calls := callValue_extends h (Nat.le_refl budget) r.depth
    refine ⟨fun s e => ?_, fun globals ns stmt => ?_, fun globals filename scope stmts ns => ?_,
      fun callee args kwargs globals => ?_⟩
    · exact (Contract.tracks_eval calls ⟨every _, fun g _ => every g⟩ e r rfl).1
    · exact (Contract.tracks_exec calls ⟨every ns, fun g _ => every g⟩ stmt.defines_any r rfl).1
    · exact (Contract.tracks_block calls (fun g _ => every g) filename scope (fun s _ => s.defines_any) (every ns) r rfl).1
    · exact (calls callee args kwargs globals (Value.all_of (fun _ => trivial) _) (Value.allIn_of (fun _ => trivial) _)
        (every _) (every _) r rfl).1

theorem Builtin.natives_frameless : Builtin.natives.Frameless := by
  intro name args kwargs host e raised
  have out := natives_end (fun _ => True) False name args kwargs host
  rw [raised] at out
  exact out

/-- `def g(): raise KeyError`, `def f(x=g()): pass` and a call of `f`. -/
def defaultedScript : Script :=
  ⟨"<test>", [.define 1 ⟨"g", "g", "<test>", 1, [], [.act 1 (.raise .keyError none)]⟩,
    .define 2 ⟨"f", "f", "<test>", 2, [⟨"x", some (.call (.name "g") [] [])⟩], [.act 2 .pass]⟩,
    .act 3 (.eval (.call (.name "f") [] []))]⟩

/-- A body that a default value runs has a frame; the call it is the default of has none yet. -/
theorem traceback_mirrors_calls_default :
    ∃ e, (defaultedScript.exec Builtin.natives {} ()).1 = .error (.raised e) ∧
      e.traceback = [⟨"<test>", 3, "<module>"⟩, ⟨"<test>", 1, "g"⟩] ∧
      Unwinds Builtin.natives (defaultedScript.block {} ()) e := by
  have raised : (defaultedScript.exec Builtin.natives {} ()).1 = .error (.raised
    { type := .keyError, traceback := [⟨"<test>", 3, "<module>"⟩, ⟨"<test>", 1, "g"⟩] }) := rfl
  exact ⟨_, raised, rfl, ((traceback_mirrors_calls Builtin.natives).1 Builtin.natives_frameless defaultedScript {} () _ raised).1⟩

end MonitoredVm
