import MonitoredVm.Script.Builtin

/-!
# What an evaluation keeps

The evaluator is written over a way to call values, so what holds of a run follows from what holds of its calls.
A `Contract` says what every run may assume, how it may change, which functions it meets, what it may raise and whether
it may be cut short. `Contract.Tracks` compares two computations under a contract: the first one keeps it, and the second
one does the same wherever the first is not cut short.

Main statements: an expression, a statement and a block track whenever their calls do (`tracks_eval`,
`tracks_exec`, `tracks_block`), and one call tracks whenever the calls in its default values and in its body do
(`tracks_callOnce`). Each induction over syntax is done here once.
-/

namespace MonitoredVm

open List

variable {σ α β : Type}

/-! ## The functions inside values -/

mutual

/-- Every function inside the value satisfies `p`. -/
def Value.All (p : FunctionDef → Prop) : Value → Prop
  | .function f => p f
  | .tuple items => Value.AllIn p items
  | .list items => Value.AllIn p items
  | .dict items => Value.AllPairs p items
  | _ => True

def Value.AllIn (p : FunctionDef → Prop) : List Value → Prop
  | [] => True
  | v :: vs => v.All p ∧ Value.AllIn p vs

def Value.AllPairs (p : FunctionDef → Prop) : List (Value × Value) → Prop
  | [] => True
  | (k, v) :: rest => k.All p ∧ v.All p ∧ Value.AllPairs p rest

end

mutual

theorem Value.all_of (every : ∀ f, p f) : (v : Value) → v.All p
  | .function f => every f
  | .tuple items => Value.allIn_of every items
  | .list items => Value.allIn_of every items
  | .dict items => Value.allPairs_of every items
  | .none | .bool _ | .int _ | .float _ | .str _ | .bytes _ | .buffer _ _ | .native _ | .exception _ | .host _ _ => trivial

theorem Value.allIn_of (every : ∀ f, p f) : (vs : List Value) → Value.AllIn p vs
  | [] => trivial
  | v :: vs => ⟨Value.all_of every v, Value.allIn_of every vs⟩

theorem Value.allPairs_of (every : ∀ f, p f) : (vs : List (Value × Value)) → Value.AllPairs p vs
  | [] => trivial
  | (k, v) :: rest => ⟨Value.all_of every k, Value.all_of every v, Value.allPairs_of every rest⟩

end

/-- Every function inside the bound values satisfies `p`. -/
def Namespace.All (p : FunctionDef → Prop) (ns : Namespace) : Prop := ∀ e ∈ ns.entries, e.2.All p

/-- Every function in scope satisfies `p`. -/
structure Scope.All (p : FunctionDef → Prop) (s : Scope) : Prop where
  locals : Namespace.All p s.locals
  globals : ∀ g ∈ s.globals, Namespace.All p g

/-- A function that the statement defines satisfies `p`. -/
def Stmt.Defines (p : FunctionDef → Prop) : Stmt → Prop
  | .act _ _ => True
  | .define _ f => p f

theorem Bindings.mem_of_lookup :
    {entries : List (String × α)} → Bindings.lookup name entries = some v → ∃ e ∈ entries, e.2 = v
  | [], found => by simp [Bindings.lookup] at found
  | (k, w) :: rest, found => by
    rw [Bindings.lookup] at found
    split at found
    · exact ⟨(k, w), mem_cons_self, Option.some.inj found⟩
    · obtain ⟨e, inside, same⟩ := Bindings.mem_of_lookup found
      exact ⟨e, mem_cons_of_mem _ inside, same⟩

theorem Bindings.of_mem_put : {entries : List (String × α)} → e ∈ Bindings.put name v entries → e ∈ entries ∨ e.2 = v
  | [], inside => by
    rw [Bindings.put, mem_singleton] at inside
    exact .inr (inside ▸ rfl)
  | (k, w) :: rest, inside => by
    rw [Bindings.put] at inside
    split at inside
    · obtain rfl | inside := mem_cons.1 inside
      · exact .inr rfl
      · exact .inl (mem_cons_of_mem _ inside)
    · obtain rfl | inside := mem_cons.1 inside
      · exact .inl mem_cons_self
      · exact (Bindings.of_mem_put inside).imp_left (mem_cons_of_mem _)

theorem Bindings.of_mem_remove : {entries : List (String × α)} → e ∈ Bindings.remove name entries → e ∈ entries
  | [], inside => by simp [Bindings.remove] at inside
  | (k, w) :: rest, inside => by
    rw [Bindings.remove] at inside
    split at inside
    · exact mem_cons_of_mem _ inside
    · obtain rfl | inside := mem_cons.1 inside
      · exact mem_cons_self
      · exact mem_cons_of_mem _ (Bindings.of_mem_remove inside)

theorem Bindings.get?_erase_of_ne (b : Bindings α) (differs : name ≠ other) :
    (b.erase name).get? other = b.get? other := by
  obtain ⟨entries⟩ := b
  change lookup other (remove name entries) = lookup other entries
  induction entries with
  | nil => rfl
  | cons e rest ih =>
    obtain ⟨k, v⟩ := e
    rw [remove]
    split
    · next here => rw [lookup, if_neg (here ▸ differs)]
    · rw [lookup, lookup, ih]

section Functions
variable {p : FunctionDef → Prop} {ns : Namespace} {s : Scope}

theorem Namespace.All.empty : Namespace.All p {} := fun _ inside => absurd inside not_mem_nil

theorem Namespace.All.get? (all : Namespace.All p ns) (found : ns.get? name = some v) : v.All p := by
  obtain ⟨e, inside, rfl⟩ := Bindings.mem_of_lookup found
  exact all e inside

theorem Namespace.All.insert (all : Namespace.All p ns) (fine : v.All p) (name) :
    Namespace.All p (ns.insert name v) := by
  intro e inside
  obtain old | new := Bindings.of_mem_put inside
  · exact all e old
  · exact new ▸ fine

theorem Namespace.All.erase (all : Namespace.All p ns) (name) : Namespace.All p (ns.erase name) :=
  fun e inside => all e (Bindings.of_mem_remove inside)

theorem Scope.All.get? (all : s.All p) (found : s.get? name = some v) : v.All p := by
  rw [Scope.get?] at found
  split at found
  · next local? => exact Option.some.inj found ▸ all.locals.get? local?
  · obtain ⟨g, global?, found⟩ := Option.bind_eq_some_iff.1 found
    exact (all.globals g global?).get? found

theorem Scope.All.forCallee (all : s.All p) : Namespace.All p s.forCallee := by
  rw [Scope.forCallee]
  cases globals : s.globals with
  | none => exact all.locals
  | some g => exact all.globals g globals

theorem Namespace.All.scope (all : Namespace.All p ns) : Scope.All p ⟨ns, none⟩ :=
  ⟨all, fun _ inside => absurd inside (Option.not_mem_none _)⟩

theorem Value.AllPairs.put (k : key.All p) (v : value.All p) :
    {pairs : List (Value × Value)} → Value.AllPairs p pairs → Value.AllPairs p (putPair key value pairs)
  | [], _ => ⟨k, v, trivial⟩
  | (a, b) :: rest, ⟨first, second, others⟩ => by
    rw [putPair]
    split
    · exact ⟨first, v, others⟩
    · exact ⟨first, second, Value.AllPairs.put k v others⟩

end Functions

/-! ## Contracts -/

/-- The computation was not cut short by its budget. -/
def finished : Except Halt α → Bool
  | .error .exhausted => false
  | _ => true

/-- How a computation may end: with a value as wanted, by raising, and cut short only where it need not end. -/
def Outcome (ends : Prop) (P : α → Prop) : Except Halt α → Prop
  | .ok a => P a
  | .error (.raised _) => True
  | .error .exhausted => ¬ ends

/-- `Outcome` with a condition on what is raised. -/
def Ends (ends : Prop) (R : Exception → Prop) (P : α → Prop) : Except Halt α → Prop
  | .ok a => P a
  | .error (.raised e) => R e
  | .error .exhausted => ¬ ends

theorem Ends.outcome : {out : Except Halt α} → Ends ends R P out → Outcome ends P out
  | .ok _, out | .error .exhausted, out => out
  | .error (.raised _), _ => trivial

theorem Outcome.ends {ends P} : {out : Except Halt α} → Outcome ends P out → Ends ends (fun _ => True) P out
  | .ok _, out | .error (.raised _), out | .error .exhausted, out => out

/-- What runs with the natives `h` may assume (`pre`), how they may change (`step`) and what they may raise (`raises`),
where every function met satisfies `p` and, with `ends`, no run is cut short. -/
structure Contract (h : Natives σ) (p : FunctionDef → Prop) (ends : Prop) where
  pre : Run σ → Prop
  step : Run σ → Run σ → Prop
  raises : Run σ → Exception → Prop := fun _ _ => True
  fresh : ∀ r e, e.traceback = [] → raises r e := by exact fun _ _ _ => trivial
  earlier : ∀ {r s e}, step r s → raises s e → raises r e := by exact fun _ _ => trivial
  refl : ∀ r, step r r
  trans : ∀ {r s t}, step r s → step s t → step r t
  depth : ∀ {r s}, step r s → s.depth = r.depth
  keeps : ∀ {r s}, pre r → step r s → pre s
  letGo : ∀ v r, pre r → step r { r with host := h.letGo v r.host }
  native : ∀ name args kwargs r, pre r → Value.AllIn p args → Namespace.All p kwargs →
    step r { r with host := (h.call name args kwargs r.host).2 } ∧
      Ends ends (raises r) (Value.All p) (h.call name args kwargs r.host).1
  body : ∀ f, p f → ∀ s ∈ f.body, s.Defines p

namespace Contract
variable {h : Natives σ} {p : FunctionDef → Prop} {ends : Prop} (C : Contract h p ends)

/-- From every run that meets the contract, `x` keeps it and ends as wanted, and `y` does the same wherever `x` is
not cut short. -/
def Tracks (P : α → Prop) (x y : Eval σ α) : Prop :=
  ∀ r, C.pre r → C.step r (x r).2 ∧ Ends ends (C.raises r) P (x r).1 ∧ (finished (x r).1 = true → y r = x r)

def Calls (K K' : Caller σ) : Prop :=
  ∀ callee args kwargs globals, callee.All p → Value.AllIn p args → Namespace.All p kwargs → Namespace.All p globals →
    C.Tracks (Value.All p) (K callee args kwargs globals) (K' callee args kwargs globals)

end Contract

theorem bind_of_ok {ε S : Type} {x : ExceptT ε (StateM S) α} {f : α → ExceptT ε (StateM S) β} {r s : S} {a : α}
    (value : x r = (.ok a, s)) : (x >>= f) r = f a s := by
  change (ExceptT.bind x f) r = f a s
  simp only [ExceptT.bind, ExceptT.mk, bind, StateT.bind, value, ExceptT.bindCont]

theorem bind_of_error {ε S : Type} {x : ExceptT ε (StateM S) α} {f : α → ExceptT ε (StateM S) β} {r s : S} {e : ε}
    (failed : x r = (.error e, s)) : (x >>= f) r = (.error e, s) := by
  change (ExceptT.bind x f) r = _
  simp only [ExceptT.bind, ExceptT.mk, bind, StateT.bind, failed, ExceptT.bindCont]
  rfl

theorem ok_of_bind {ε S : Type} {x} {f : α → ExceptT ε (StateM S) β} {r s b} (ran : (x >>= f) r = (.ok b, s)) :
    ∃ a r', x r = (.ok a, r') ∧ f a r' = (.ok b, s) := by
  rcases value : x r with ⟨e | a, r'⟩
  · rw [bind_of_error value] at ran
    cases congrArg Prod.fst ran
  · rw [bind_of_ok value] at ran
    exact ⟨a, r', rfl, ran⟩

section Ends
variable {ends : Prop} {R R' : Exception → Prop} {P : α → Prop} {Q : β → Prop}

theorem Ends.error : {halt : Halt} → Ends ends R P (.error halt) → Ends ends R Q (.error halt)
  | .raised _, out | .exhausted, out => out

theorem Ends.weaken (more : ∀ e, R e → R' e) : {out : Except Halt α} → Ends ends R P out → Ends ends R' P out
  | .ok _, out | .error .exhausted, out => out
  | .error (.raised e), out => more e out

theorem Ends.map : {out : Except Halt α} → Ends ends R (fun a => Q (f a)) out → Ends ends R Q (out.map f)
  | .ok _, out | .error (.raised _), out | .error .exhausted, out => out

theorem Ends.through (passes : ∀ e, R e → R' (e.pushFrame f)) :
    {halt : Halt} → Ends ends R P (.error halt) → Ends ends R' Q (.error (halt.through f))
  | .raised e, out => passes e out
  | .exhausted, out => out

end Ends

theorem finished_error : finished (.error halt : Except Halt α) = finished (.error halt : Except Halt β) := by
  cases halt <;> rfl

namespace Contract
variable {h : Natives σ} {p : FunctionDef → Prop} {ends : Prop} {C : Contract h p ends}

theorem Tracks.pure (wanted : P a) : C.Tracks P (pure a) (pure a) :=
  fun r _ => ⟨C.refl r, wanted, fun _ => rfl⟩

theorem Tracks.raise (fresh : e.traceback = []) : C.Tracks P (raise e) (raise e) :=
  fun r _ => ⟨C.refl r, C.fresh r e fresh, fun _ => rfl⟩

theorem Tracks.exhausted (free : ¬ ends) (y : Eval σ α) : C.Tracks P (throw .exhausted) y :=
  fun r _ => ⟨C.refl r, free, fun done => Bool.noConfusion (show false = true from done)⟩

theorem Tracks.bind {P : α → Prop} {Q : β → Prop} {f g : α → Eval σ β} (first : C.Tracks P x y)
    (rest : ∀ a, P a → C.Tracks Q (f a) (g a)) : C.Tracks Q (x >>= f) (y >>= g) := by
  intro r pre
  obtain ⟨moved, out, same⟩ := first r pre
  rcases value : x r with ⟨result, s⟩
  rw [value] at moved out same
  cases result with
  | ok a =>
    obtain ⟨moved', out', same'⟩ := rest a out s (C.keeps pre moved)
    rw [bind_of_ok value, bind_of_ok (same rfl)]
    exact ⟨C.trans moved moved', out'.weaken fun _ => C.earlier moved, same'⟩
  | error halt =>
    rw [bind_of_error value]
    exact ⟨moved, out.error, fun done => bind_of_error (same (finished_error ▸ done))⟩

theorem tracks_lookup {s : Scope} (known : s.All p) (name) :
    C.Tracks (Value.All p) (s.lookup h name) (s.lookup h name) := by
  intro r _
  rw [Scope.lookup]
  cases found : s.get? name with
  | some v => exact ⟨C.refl r, known.get? found, fun _ => rfl⟩
  | none =>
    have value : (do if h.knows (← get).host name then return .native name else MonitoredVm.raise (notDefined name) :
        Eval σ Value) r = (if h.knows r.host name then .ok (.native name) else .error (.raised (notDefined name)), r) := by
      change (if h.knows r.host name then (Pure.pure (.native name) : Eval σ Value) else
        MonitoredVm.raise (notDefined name)) r = _
      split <;> rfl
    simp only [value]
    split
    · exact ⟨C.refl r, trivial, fun _ => trivial⟩
    · exact ⟨C.refl r, C.fresh r _ rfl, fun _ => trivial⟩

theorem tracks_unbind (ns name) : C.Tracks (fun _ => True) (h.unbind ns name) (h.unbind ns name) := by
  intro r pre
  rw [Natives.unbind]
  cases ns.get? name with
  | some v => exact ⟨C.letGo v r pre, trivial, fun _ => rfl⟩
  | none => exact ⟨C.refl r, trivial, fun _ => rfl⟩

/-! ## Expressions -/

section Syntax
variable {K K' : Caller σ} {s : Scope}

section
variable (calls : C.Calls K K') (known : s.All p)
include calls known

mutual

theorem tracks_eval :
    (e : Expr) → C.Tracks (Value.All p) (e.eval h K s) (e.eval h K' s)
  | .none | .bool _ | .int _ | .float _ | .str _ | .bytes _ => .pure trivial
  | .name n => tracks_lookup known n
  | .tuple items => (tracks_evalAll items).bind fun _ all => .pure all
  | .list items => (tracks_evalAll items).bind fun _ all => .pure all
  | .dict items => (tracks_evalPairs [] trivial items).bind fun _ all => .pure all
  | .call func args kwargs =>
    (tracks_eval func).bind fun callee fine =>
      (tracks_evalAll args).bind fun args fineArgs =>
        (tracks_evalNamed {} .empty kwargs).bind fun kwargs fineNamed =>
          calls callee args kwargs s.forCallee fine fineArgs fineNamed known.forCallee

theorem tracks_evalAll :
    (es : List Expr) → C.Tracks (Value.AllIn p) (Expr.evalAll h K s es) (Expr.evalAll h K' s es)
  | [] => .pure trivial
  | e :: es =>
    (tracks_eval e).bind fun _ first =>
      (tracks_evalAll es).bind fun _ others => .pure ⟨first, others⟩

theorem tracks_evalPairs (read) (fine : Value.AllPairs p read) :
    (es : List (Expr × Expr)) →
    C.Tracks (Value.AllPairs p) (Expr.evalPairs h K s read es) (Expr.evalPairs h K' s read es)
  | [] => .pure fine
  | (k, v) :: rest =>
    (tracks_eval k).bind fun key first =>
      (tracks_eval v).bind fun value second =>
        tracks_evalPairs (putPair key value read) (fine.put first second) rest

theorem tracks_evalNamed (read) (fine : Namespace.All p read) :
    (es : List (String × Expr)) →
    C.Tracks (Namespace.All p) (Expr.evalNamed h K s read es) (Expr.evalNamed h K' s read es)
  | [] => .pure fine
  | (key, e) :: rest =>
    (tracks_eval e).bind fun value first => by
      split
      · exact .raise rfl
      · exact tracks_evalNamed (read.insert key value) (fine.insert first key) rest

end
end

/-! ## Statements and blocks -/

theorem raisedWith_traceback (type v) : (raisedWith type v).traceback = [] := by
  cases v <;> rfl

/-- What a statement may lead to: a result and a namespace whose functions satisfy `p`. -/
def Leads (p : FunctionDef → Prop) (o : Flow × Namespace) : Prop := o.1.value.All p ∧ Namespace.All p o.2

theorem tracks_exec (calls : C.Calls K K') {globals ns} (known : Scope.All p ⟨ns, globals⟩) {stmt : Stmt}
    (defines : stmt.Defines p) : C.Tracks (Leads p) (stmt.exec h K globals ns) (stmt.exec h K' globals ns) := by
  have fine : Namespace.All p ns := known.locals
  match stmt with
  | .act _ .pass => exact .pure ⟨trivial, fine⟩
  | .act _ (.assign name e) =>
    exact (tracks_eval calls known e).bind fun v new =>
      (tracks_unbind ns name).bind fun _ _ => .pure ⟨trivial, fine.insert new name⟩
  | .act _ (.delete name) =>
    rw [Stmt.exec, Stmt.exec]
    split
    · exact (tracks_unbind ns name).bind fun _ _ => .pure ⟨trivial, fine.erase name⟩
    · exact .raise rfl
  | .act _ (.raise type none) => exact .raise rfl
  | .act _ (.raise type (some e)) => exact (tracks_eval calls known e).bind fun v _ => .raise (raisedWith_traceback type v)
  | .act _ (.ret none) =>
    have absent : Value.none.All p := trivial
    exact (Tracks.pure absent).bind fun v new => .pure ⟨new, fine⟩
  | .act _ (.ret (some e)) => exact (tracks_eval calls known e).bind fun v new => .pure ⟨new, fine⟩
  | .act _ (.eval e) => exact (tracks_eval calls known e).bind fun v _ => .pure ⟨trivial, fine⟩
  | .define _ f =>
    have new : (Value.function f).All p := defines
    exact (tracks_unbind ns f.name).bind fun _ _ => .pure ⟨trivial, fine.insert new f.name⟩

/-- `Tracks` for a block, which gives its namespace however it ends. -/
def TracksBlock (C : Contract h p ends) (R : Run σ → Exception → Prop)
    (x y : StateM (Run σ) (Except Halt Flow × Namespace)) : Prop :=
  ∀ r, C.pre r → C.step r (x r).2 ∧ Ends ends (R r) (fun flow => flow.value.All p) (x r).1.1 ∧
    Namespace.All p (x r).1.2 ∧ (finished (x r).1.1 = true → y r = x r)

/-- What statements raise has passed the frame of one of them. -/
def Passes (C : Contract h p ends) (filename scope : String) (stmts : List Stmt) (r : Run σ) (e : Exception) : Prop :=
  ∃ stmt ∈ stmts, ∃ inner, C.raises r inner ∧ e = inner.pushFrame ⟨filename, stmt.line, scope⟩

end Syntax

end Contract

theorem execBlock_cons (h : Natives σ) (K : Caller σ) (globals filename scope) (stmt : Stmt) (rest ns) (r : Run σ) :
    execBlock h K globals filename scope (stmt :: rest) ns r = match stmt.exec h K globals ns r with
      | (.error halt, s) => ((.error (halt.through ⟨filename, stmt.line, scope⟩), ns), s)
      | (.ok (.returned v, ns), s) => ((.ok (.returned v), ns), s)
      | (.ok (.next, ns), s) => execBlock h K globals filename scope rest ns s := by
  rw [execBlock]
  simp only [bind, StateT.bind, ExceptT.run]
  rcases stmt.exec h K globals ns r with ⟨_ | ⟨_ | v, ns'⟩, s⟩ <;> rfl

theorem finished_through (halt : Halt) (f) :
    finished (.error (halt.through f) : Except Halt α) = finished (.error halt : Except Halt β) := by
  cases halt <;> rfl

namespace Contract
variable {h : Natives σ} {p : FunctionDef → Prop} {ends : Prop} {C : Contract h p ends} {K K' : Caller σ}

/-- A block tracks when its calls do. The induction is on the statements left; what carries it is that the functions
bound so far satisfy `p`. -/
theorem tracks_block (calls : C.Calls K K') (outer : ∀ g ∈ globals, Namespace.All p g) (filename scope)
    (defines : ∀ s ∈ stmts, s.Defines p) (fine : Namespace.All p ns) :
    C.TracksBlock (C.Passes filename scope stmts) (execBlock h K globals filename scope stmts ns)
      (execBlock h K' globals filename scope stmts ns) := by
  induction stmts generalizing ns with
  | nil => exact fun r _ => ⟨C.refl r, trivial, fine, fun _ => rfl⟩
  | cons stmt rest ih =>
    intro r pre
    obtain ⟨moved, out, same⟩ := tracks_exec calls ⟨fine, outer⟩ (defines stmt mem_cons_self) r pre
    rw [execBlock_cons, execBlock_cons]
    rcases value : stmt.exec h K globals ns r with ⟨halt | ⟨flow, ns'⟩, s⟩
    · rw [value] at moved out same
      refine ⟨moved, out.through fun e raised => ⟨stmt, mem_cons_self, e, raised, rfl⟩, fine, fun done => ?_⟩
      rw [same ((finished_through halt _).symm.trans done)]
    · rw [value] at moved out same
      rw [same rfl]
      cases flow with
      | returned v => exact ⟨moved, out.1, out.2, fun _ => rfl⟩
      | next =>
        obtain ⟨moved', out', rest'⟩ := ih (fun s inside => defines s (mem_cons_of_mem _ inside)) out.2 s
          (C.keeps pre moved)
        refine ⟨C.trans moved moved', out'.weaken ?_, rest'⟩
        rintro e ⟨later, inside, inner, raised, rfl⟩
        exact ⟨later, mem_cons_of_mem _ inside, inner, C.earlier moved raised, rfl⟩

/-! ## Arguments -/

variable {D D' : Expr → Eval σ Value}

/-- The default values of these parameters track. -/
def Defaults (C : Contract h p ends) (D D' : Expr → Eval σ Value) (params : List Param) : Prop :=
  ∀ q ∈ params, ∀ e ∈ q.default, C.Tracks (Value.All p) (D e) (D' e)

theorem tracks_bindParams (function) (named : Namespace.All p kwargs) (defaults : C.Defaults D D' params)
    (given : Value.AllIn p args) (fine : Namespace.All p frame) (missing) :
    C.Tracks (fun o => Namespace.All p o.1) (bindParams function kwargs D params args frame missing)
      (bindParams function kwargs D' params args frame missing) := by
  induction params generalizing args frame missing with
  | nil => exact .pure fine
  | cons q params ih =>
    have later : C.Defaults D D' params := fun r inside => defaults r (mem_cons_of_mem _ inside)
    have nothing : Value.AllIn p [] := trivial
    rw [bindParams.eq_def, bindParams.eq_def]
    dsimp only
    match args, keyword : kwargs.get? q.name with
    | _ :: _, some _ => exact .raise rfl
    | v :: args, none => exact ih later given.2 (fine.insert given.1 q.name) missing
    | [], some v => exact ih later nothing (fine.insert (named.get? keyword) q.name) missing
    | [], none =>
      match default : q.default with
      | some e =>
        exact (defaults q mem_cons_self e default).bind fun v new =>
          ih later nothing (fine.insert new q.name) missing
      | none => exact ih later nothing fine (q.name :: missing)

theorem tracks_bindArgs (defaults : C.Defaults D D' f.params) (given : Value.AllIn p args)
    (named : Namespace.All p kwargs) :
    C.Tracks (Namespace.All p) (bindArgs f args kwargs D) (bindArgs f args kwargs D') := by
  rw [bindArgs, bindArgs]
  dsimp only
  split
  · exact .raise rfl
  · split
    · exact .raise rfl
    · refine (tracks_bindParams f.name named defaults given .empty []).bind fun o fine => ?_
      obtain ⟨frame, missing⟩ := o
      dsimp only
      split
      · exact .pure fine
      · exact .raise rfl

end Contract

/-! ## Calls -/

/-- Runs the body of a function; `B` makes the calls in it. -/
def runBody (h : Natives σ) (B : Caller σ) (f : FunctionDef) (globals frame : Namespace) : Eval σ Value := do
  let (result, _) ← liftM (deeper (execBlock h B (some globals) f.filename f.name f.body frame))
  match result with
  | .ok flow => return flow.value
  | .error halt => throw halt

/-- Calls a value once: `D` makes the calls in default values and `B` those in the body. -/
def callOnce (h : Natives σ) (D B : Caller σ) : Caller σ := fun callee args kwargs globals =>
  match callee with
  | .native name => do
    if h.knows (← get).host name then
      let run ← get
      let (result, host) := h.call name args kwargs run.host
      set { run with host }
      match result with
      | .ok v => return v
      | .error halt => throw halt
    else raise (.nameError ("native function '" ++ name ++ "' is not registered"))
  | .function f => do
    if maxDepth ≤ (← get).depth then
      raise (.new .recursionError "maximum recursion depth exceeded")
    else
      let frame ← bindArgs f args kwargs (Expr.eval h D ⟨globals, none⟩)
      runBody h B f globals frame
  | other => raise (.typeError ("'" ++ other.typeName ++ "' object is not callable"))

theorem runBody_apply {f : FunctionDef} {r s : Run σ} {result : Except Halt Flow}
    (ran : execBlock h B (some globals) f.filename f.name f.body frame { r with depth := r.depth + 1 } =
      ((result, ns), s)) :
    runBody h B f globals frame r = (result.map Flow.value, { s with depth := s.depth - 1 }) := by
  change (match (execBlock h B (some globals) f.filename f.name f.body frame { r with depth := r.depth + 1 }).1.1 with
    | .ok flow => (pure flow.value : Eval σ Value)
    | .error halt => throw halt)
    { (execBlock h B (some globals) f.filename f.name f.body frame { r with depth := r.depth + 1 }).2 with
      depth := (execBlock h B (some globals) f.filename f.name f.body frame
        { r with depth := r.depth + 1 }).2.depth - 1 } = _
  rw [ran]
  cases result <;> rfl

theorem callOnce_native (h : Natives σ) (D B : Caller σ) (name args kwargs globals) (r : Run σ) :
    callOnce h D B (.native name) args kwargs globals r =
      if h.knows r.host name then
        ((h.call name args kwargs r.host).1, { r with host := (h.call name args kwargs r.host).2 })
      else (.error (.raised (.nameError ("native function '" ++ name ++ "' is not registered"))), r) := by
  have got : (get : Eval σ (Run σ)) r = (.ok r, r) := rfl
  dsimp only [callOnce]
  rw [bind_of_ok got]
  split
  · rw [bind_of_ok got]
    change (match (h.call name args kwargs r.host).1 with
      | .ok v => (pure v : Eval σ Value)
      | .error halt => throw halt) { r with host := (h.call name args kwargs r.host).2 } = _
    rcases h.call name args kwargs r.host with ⟨_ | v, host⟩ <;> rfl
  · rfl

theorem callOnce_function (h : Natives σ) (D B : Caller σ) (f args kwargs globals) (r : Run σ) :
    callOnce h D B (.function f) args kwargs globals r =
      if maxDepth ≤ r.depth then (.error (.raised (.new .recursionError "maximum recursion depth exceeded")), r)
      else (bindArgs f args kwargs (Expr.eval h D ⟨globals, none⟩) >>= runBody h B f globals) r := by
  change (if maxDepth ≤ r.depth then (raise (.new .recursionError "maximum recursion depth exceeded") : Eval σ Value)
    else bindArgs f args kwargs (Expr.eval h D ⟨globals, none⟩) >>= runBody h B f globals) r = _
  split <;> rfl

theorem callValue_succ (h : Natives σ) (budget) :
    callValue h (budget + 1) = callOnce h (callValue h budget) (callValue h budget) := by
  funext callee args kwargs globals
  cases callee <;> rfl

theorem finished_map (f : α → β) (result : Except Halt α) : finished (result.map f) = finished result := by
  rcases result with (_ | _) | _ <;> rfl

namespace Contract
variable {h : Natives σ} {p : FunctionDef → Prop} {ends : Prop} {C C' : Contract h p ends}

/-- What a body does under `C'`, one level deeper, is allowed under `C`. -/
structure Encloses (C C' : Contract h p ends) : Prop where
  enter : ∀ r, C.pre r → r.depth < maxDepth → C'.pre { r with depth := r.depth + 1 }
  leave : ∀ r s, C.pre r → C'.step { r with depth := r.depth + 1 } s → C.step r { s with depth := s.depth - 1 }
  through : ∀ r f e, C.pre r → r.depth < maxDepth → p f →
    C'.Passes f.filename f.name f.body { r with depth := r.depth + 1 } e → C.raises r e

/-- The contract for runs that may still make a call. -/
def roomy (C : Contract h p ends) : Contract h p ends where
  pre r := C.pre r ∧ r.depth < maxDepth
  step := C.step
  raises := C.raises
  fresh := C.fresh
  earlier := C.earlier
  refl := C.refl
  trans := C.trans
  depth := C.depth
  keeps pre moved := ⟨C.keeps pre.1 moved, C.depth moved ▸ pre.2⟩
  letGo v r pre := C.letGo v r pre.1
  native name args kwargs r pre := C.native name args kwargs r pre.1
  body := C.body

theorem Tracks.roomy (tracks : C.Tracks P x y) : C.roomy.Tracks P x y :=
  fun r pre => tracks r pre.1

theorem tracks_runBody (encloses : C.Encloses C') (calls : C'.Calls B B') (fine : p f) (outer : Namespace.All p globals)
    (bound : Namespace.All p frame) :
    C.roomy.Tracks (Value.All p) (runBody h B f globals frame) (runBody h B' f globals frame) := by
  intro r pre
  have known : ∀ g ∈ some globals, Namespace.All p g := fun g same => Option.some.inj same ▸ outer
  obtain ⟨moved, out, -, same⟩ := tracks_block calls known f.filename f.name (C'.body f fine) bound
    { r with depth := r.depth + 1 } (encloses.enter r pre.1 pre.2)
  rcases ran : execBlock h B (some globals) f.filename f.name f.body frame { r with depth := r.depth + 1 } with
    ⟨⟨result, ns⟩, s⟩
  rw [ran] at moved out same
  rw [runBody_apply ran]
  refine ⟨encloses.leave r s pre.1 moved, out.map.weaken fun e => encloses.through r f e pre.1 pre.2 fine, fun done => ?_⟩
  rw [finished_map] at done
  exact runBody_apply (same done)

/-- One call tracks when the default values of the functions met track and, where there is room for a body, the calls
in it do. -/
theorem tracks_callOnce (defaults : ∀ f, p f → ∀ globals, Namespace.All p globals →
      C.Defaults (Expr.eval h D ⟨globals, none⟩) (Expr.eval h D' ⟨globals, none⟩) f.params)
    (body : ∀ r, C.pre r → r.depth < maxDepth → ∃ C', C.Encloses C' ∧ C'.Calls B B') :
    C.Calls (callOnce h D B) (callOnce h D' B') := by
  intro callee args kwargs globals fine given named outer r pre
  cases callee with
  | native name =>
    obtain ⟨moved, out⟩ := C.native name args kwargs r pre given named
    rw [callOnce_native, callOnce_native]
    split
    · exact ⟨moved, out, fun _ => rfl⟩
    · exact ⟨C.refl r, C.fresh r _ rfl, fun _ => rfl⟩
  | function f =>
    rw [callOnce_function, callOnce_function]
    split
    · exact ⟨C.refl r, C.fresh r _ rfl, fun _ => rfl⟩
    · next room =>
      have room : r.depth < maxDepth := Nat.lt_of_not_le room
      obtain ⟨C', encloses, calls⟩ := body r pre room
      have frames := (tracks_bindArgs (defaults f fine globals outer) given named).roomy
      exact frames.bind (fun frame bound => tracks_runBody encloses calls fine outer bound) r ⟨pre, room⟩
  | _ => exact ⟨C.refl r, C.fresh r _ rfl, fun _ => rfl⟩

theorem Calls.defaults (calls : C.Calls D D') (f : FunctionDef) (outer : Namespace.All p globals) :
    C.Defaults (Expr.eval h D ⟨globals, none⟩) (Expr.eval h D' ⟨globals, none⟩) f.params :=
  fun _ _ e _ => tracks_eval calls outer.scope e

theorem Encloses.calls {C : Contract h p False} (self : C.Encloses C) (budget) :
    C.Calls (callValue h budget) (callValue h budget) := by
  induction budget with
  | zero => exact fun _ _ _ _ _ _ _ _ => .exhausted id _
  | succ budget ih =>
    rw [callValue_succ]
    exact tracks_callOnce (fun f _ globals outer => ih.defaults f outer) fun _ _ _ => ⟨C, self, ih⟩

end Contract

/-! ## What natives keep -/

/-- The natives change their host only as `R` allows. -/
structure Natives.Keeps (h : Natives σ) (R : σ → σ → Prop) : Prop where
  refl : ∀ host, R host host
  trans : ∀ {a b c}, R a b → R b c → R a c
  letGo : ∀ v host, R host (h.letGo v host)
  call : ∀ name args kwargs host, R host (h.call name args kwargs host).2

namespace Natives.Keeps
variable {h : Natives σ} {R : σ → σ → Prop}

/-- Runs change their host only as `R` allows. -/
def contract (keeps : h.Keeps R) : Contract h (fun _ => True) False where
  pre _ := True
  step r s := R r.host s.host ∧ s.depth = r.depth
  refl r := ⟨keeps.refl r.host, rfl⟩
  trans first second := ⟨keeps.trans first.1 second.1, second.2.trans first.2⟩
  depth moved := moved.2
  keeps _ _ := trivial
  letGo v r _ := ⟨keeps.letGo v r.host, rfl⟩
  native name args kwargs r _ _ _ := by
    refine ⟨⟨keeps.call name args kwargs r.host, rfl⟩, ?_⟩
    rcases (h.call name args kwargs r.host).1 with (_ | _) | v
    · trivial
    · exact id
    · exact Value.all_of (fun _ => trivial) v
  body _ _ s _ := by cases s <;> trivial

theorem contract_encloses (keeps : h.Keeps R) : keeps.contract.Encloses keeps.contract where
  through _ _ _ _ _ _ _ := trivial
  enter _ _ _ := trivial
  leave _ _ _ moved := ⟨moved.1, congrArg (· - 1) moved.2⟩

theorem calls (keeps : h.Keeps R) (budget) :
    keeps.contract.Calls (callValue h budget) (callValue h budget) := keeps.contract_encloses.calls budget

theorem exec (keeps : h.Keeps R) (s : Script) (ns) (host : σ) : R host (s.exec h ns host).2.2 := by
  have every : ∀ ns, Namespace.All (fun _ => True) ns := fun _ e _ => Value.all_of (fun _ => trivial) e.2
  have defines : ∀ t ∈ s.body, t.Defines fun _ => True := fun t _ => by cases t <;> trivial
  exact (Contract.tracks_block (keeps.calls callBudget) (fun g _ => every g) s.filename "<module>" defines (every ns)
    { host } trivial).1.1

theorem applyValue (keeps : h.Keeps R) (callee args kwargs globals) (host : σ) :
    R host (applyValue h callee args kwargs globals host).2 := by
  have every : ∀ ns, Namespace.All (fun _ => True) ns := fun _ e _ => Value.all_of (fun _ => trivial) e.2
  exact (keeps.calls callBudget callee args kwargs globals (Value.all_of (fun _ => trivial) _)
    (Value.allIn_of (fun _ => trivial) _) (every _) (every _) { host } trivial).1.1

end Natives.Keeps
end MonitoredVm
