import MonitoredVm.Value.Text

/-!
# Running scripts

Statements run against a namespace; names resolve among the locals, then the globals, then the native
functions of the host. The language has no loops, so calls are the only source of unbounded work: function
bodies nest to `maxDepth` and then raise, and every call, one made by a default value included, uses up one
unit of the call budget. A run that needs more ends with `Halt.exhausted`.

The host is a state of any type together with its native functions. It is told of every binding that goes
away. The values an expression works on are copies of what bindings, native functions or the caller hold, and
those outlast the expression, so nothing else is worth telling.
-/

namespace MonitoredVm

/-- Why a run stopped before its end. -/
inductive Halt where
  | raised (e : Exception)
  /-- Calls nested deeper than the call budget. -/
  | exhausted
  deriving DecidableEq, Repr, Inhabited

/-- The native functions of a host with state `σ`. -/
structure Natives (σ : Type) where
  knows : σ → String → Bool
  call : String → List Value → Namespace → σ → Except Halt Value × σ
  /-- Hears of a value whose binding is gone. -/
  letGo : Value → σ → σ

/-- A run in progress: the host and the number of function bodies being executed. -/
structure Run (σ : Type) where
  host : σ
  depth : Nat := 0

/-- A computation that may stop early and keeps the host's changes when it does. -/
abbrev Eval (σ α : Type) := ExceptT Halt (StateM (Run σ)) α

/-- How a block of statements ended. -/
inductive Flow where
  | next
  | returned (v : Value)
  deriving Repr, Inhabited

/-- Where names are looked up. At module level the locals are the globals. -/
structure Scope where
  locals : Namespace
  globals : Option Namespace

/-- A way to call a value with arguments against globals. -/
abbrev Caller (σ : Type) := Value → List Value → Namespace → (globals : Namespace) → Eval σ Value

/-- Function bodies nested deeper than this raise `RecursionError`. -/
def maxDepth : Nat := 200

variable {σ : Type}

def raise {α : Type} (e : Exception) : Eval σ α := throw (.raised e)

namespace Scope

/-- The namespace that functions called from here resolve global names in. -/
def forCallee (s : Scope) : Namespace := s.globals.getD s.locals

/-- The binding of a name in the locals or the globals. -/
def get? (s : Scope) (name : String) : Option Value :=
  match s.locals.get? name with
  | some v => some v
  | none => s.globals.bind fun g => g.get? name

end Scope

def notDefined (name : String) : Exception := .nameError ("name '" ++ name ++ "' is not defined")

/-- A name's binding, or the native function of that name. -/
def Scope.lookup (h : Natives σ) (s : Scope) (name : String) : Eval σ Value := do
  match s.get? name with
  | some v => return v
  | none => if h.knows (← get).host name then return .native name else raise (notDefined name)

/-- Adds a pair to a dict, replacing the value of an equal key. -/
def putPair (key value : Value) : List (Value × Value) → List (Value × Value)
  | [] => [(key, value)]
  | (k, v) :: rest => if k.same key then (k, value) :: rest else (k, v) :: putPair key value rest

def repeatedKeyword (key : String) : Exception := .new .syntaxError ("keyword argument repeated: " ++ key)

mutual

def Expr.eval (h : Natives σ) (call : Caller σ) (s : Scope) : Expr → Eval σ Value
  | .none => return .none
  | .bool b => return .bool b
  | .int i => return .int i
  | .float x => return .float x
  | .str t => return .str t
  | .bytes b => return .bytes b
  | .name n => s.lookup h n
  | .tuple items => return .tuple (← Expr.evalAll h call s items)
  | .list items => return .list (← Expr.evalAll h call s items)
  | .dict items => return .dict (← Expr.evalPairs h call s [] items)
  | .call func args kwargs => do
    let callee ← Expr.eval h call s func
    let args ← Expr.evalAll h call s args
    let kwargs ← Expr.evalNamed h call s {} kwargs
    call callee args kwargs s.forCallee

def Expr.evalAll (h : Natives σ) (call : Caller σ) (s : Scope) : List Expr → Eval σ (List Value)
  | [] => return []
  | e :: es => do
    let v ← Expr.eval h call s e
    let vs ← Expr.evalAll h call s es
    return v :: vs

/-- The pairs of a dict after those already there; a repeated key keeps its place and takes the new value. -/
def Expr.evalPairs (h : Natives σ) (call : Caller σ) (s : Scope) :
    List (Value × Value) → List (Expr × Expr) → Eval σ (List (Value × Value))
  | read, [] => return read
  | read, (k, v) :: rest => do
    let key ← Expr.eval h call s k
    let value ← Expr.eval h call s v
    Expr.evalPairs h call s (putPair key value read) rest

/-- Keyword arguments; a repeated one is an error. -/
def Expr.evalNamed (h : Natives σ) (call : Caller σ) (s : Scope) :
    Namespace → List (String × Expr) → Eval σ Namespace
  | read, [] => return read
  | read, (key, e) :: rest => do
    let value ← Expr.eval h call s e
    if read.contains key then raise (repeatedKeyword key)
    else Expr.evalNamed h call s (read.insert key value) rest

end

/-- An optional expression, `none` when absent. -/
def Expr.evalOption (h : Natives σ) (call : Caller σ) (s : Scope) : Option Expr → Eval σ Value
  | .none => return .none
  | some e => e.eval h call s

/-- What a `raise` with this message value raises: text as it stands, anything else printed. -/
def raisedWith (type : ExcType) : Value → Exception
  | .str m => .new type m
  | v => .new type v.repr

/-- Tells the host that what a name is bound to loses that binding. -/
def Natives.unbind (h : Natives σ) (ns : Namespace) (name : String) : Eval σ Unit :=
  match ns.get? name with
  | some v => modify fun r => { r with host := h.letGo v r.host }
  | none => return

/-- Runs one statement; the namespace changes only if it succeeds. -/
def Stmt.exec (h : Natives σ) (call : Caller σ) (globals : Option Namespace) (ns : Namespace) :
    Stmt → Eval σ (Flow × Namespace)
  | .act _ .pass => return (.next, ns)
  | .act _ (.assign name e) => do
    let v ← e.eval h call ⟨ns, globals⟩
    h.unbind ns name
    return (.next, ns.insert name v)
  | .act _ (.delete name) => do
    if ns.contains name then
      h.unbind ns name
      return (.next, ns.erase name)
    else raise (notDefined name)
  | .act _ (.raise type none) => raise (.bare type)
  | .act _ (.raise type (some e)) => do
    let v ← e.eval h call ⟨ns, globals⟩
    raise (raisedWith type v)
  | .act _ (.ret e) => do
    let v ← Expr.evalOption h call ⟨ns, globals⟩ e
    return (.returned v, ns)
  | .act _ (.eval e) => do
    let _ ← e.eval h call ⟨ns, globals⟩
    return (.next, ns)
  | .define _ f => do
    h.unbind ns f.name
    return (.next, ns.insert f.name (.function f))

/-- Adds a frame to what a statement raised. -/
def Halt.through (f : Frame) : Halt → Halt
  | .raised e => .raised (e.pushFrame f)
  | .exhausted => .exhausted

/-- Runs statements until one returns or fails; a failure passes through the frame `(filename, line, scope)` and
leaves the bindings made before it. -/
def execBlock (h : Natives σ) (call : Caller σ) (globals : Option Namespace) (filename scope : String) :
    List Stmt → Namespace → StateM (Run σ) (Except Halt Flow × Namespace)
  | [], ns => return (.ok .next, ns)
  | stmt :: rest, ns => do
    match ← (stmt.exec h call globals ns).run with
    | .error halt => return (.error (halt.through ⟨filename, stmt.line, scope⟩), ns)
    | .ok (.returned v, ns) => return (.ok (.returned v), ns)
    | .ok (.next, ns) => execBlock h call globals filename scope rest ns

/-- `s` unless there is exactly one. -/
def plural (n : Nat) : String := if n = 1 then "" else "s"

/-- Binds the parameters left, in order, to what is left of the positional arguments, else to the keyword, else to
the default. `missing` holds the parameters that have none of these, newest first. -/
def bindParams (function : String) (kwargs : Namespace) (evalDefault : Expr → Eval σ Value) :
    List Param → List Value → Namespace → (missing : List String) → Eval σ (Namespace × List String)
  | [], _, frame, missing => return (frame, missing.reverse)
  | p :: ps, args, frame, missing =>
    match args, kwargs.get? p.name with
    | _ :: _, some _ =>
      raise (.typeError (function ++ "() got multiple values for argument '" ++ p.name ++ "'"))
    | v :: args, none => bindParams function kwargs evalDefault ps args (frame.insert p.name v) missing
    | [], some v => bindParams function kwargs evalDefault ps [] (frame.insert p.name v) missing
    | [], none =>
      match p.default with
      | some e => do
        let v ← evalDefault e
        bindParams function kwargs evalDefault ps [] (frame.insert p.name v) missing
      | none => bindParams function kwargs evalDefault ps [] frame (p.name :: missing)

/-- The frame of a call: the parameters bound to the arguments. -/
def bindArgs (f : FunctionDef) (args : List Value) (kwargs : Namespace) (evalDefault : Expr → Eval σ Value) :
    Eval σ Namespace := do
  let count := f.params.length
  if count < args.length then
    raise (.typeError (f.name ++ "() takes " ++ toString count ++ " positional argument" ++ plural count ++
      " but " ++ toString args.length ++ " were given"))
  else match kwargs.names.find? fun k => f.params.all fun p => p.name != k with
    | some unknown =>
      raise (.typeError (f.name ++ "() got an unexpected keyword argument '" ++ unknown ++ "'"))
    | none =>
      let (frame, missing) ← bindParams f.name kwargs evalDefault f.params args {} []
      if missing.isEmpty then return frame
      else raise (.typeError (f.name ++ "() missing " ++ toString missing.length ++
        " required positional argument" ++ plural missing.length ++ ": " ++
        String.intercalate " and " (missing.map fun p => "'" ++ p ++ "'")))

/-- Runs `body` one level deeper; the depth is restored however it ends. -/
def deeper {α : Type} (body : StateM (Run σ) α) : StateM (Run σ) α := do
  modify fun r => { r with depth := r.depth + 1 }
  let a ← body
  modify fun r => { r with depth := r.depth - 1 }
  return a

def Flow.value : Flow → Value
  | .next => .none
  | .returned v => v

/-- Calls a value. Each nested call takes one unit of the budget. -/
def callValue (h : Natives σ) : (budget : Nat) → Caller σ
  | 0, _, _, _, _ => throw .exhausted
  | budget + 1, callee, args, kwargs, globals =>
    match callee with
    | .native name => do
      if h.knows (← get).host name then
        let run ← get
        let (result, host) := h.call name args kwargs run.host
        set { run with host }
        match result with
        | .ok v => return v
        | .error halt => throw halt
      else raise (.nameError ("native function '" ++ name ++ "' is not registered"))
    | .function f => do
      if maxDepth ≤ (← get).depth then
        raise (.new .recursionError "maximum recursion depth exceeded")
      else
        let frame ← bindArgs f args kwargs (Expr.eval h (callValue h budget) ⟨globals, none⟩)
        let (result, _) ← liftM (deeper (execBlock h (callValue h budget) (some globals) f.filename f.name f.body
          frame))
        match result with
        | .ok flow => return flow.value
        | .error halt => throw halt
    | other => raise (.typeError ("'" ++ other.typeName ++ "' object is not callable"))

/-- The call budget of ordinary runs: room for a thousand calls in default values at every depth. -/
def callBudget : Nat := 200000

namespace Script

/-- Runs the script with `ns` as its globals. -/
def execWith (h : Natives σ) (budget : Nat) (s : Script) (ns : Namespace) (host : σ) :
    Except Halt Unit × Namespace × σ :=
  let ((result, ns), run) := (execBlock h (callValue h budget) none s.filename "<module>" s.body ns).run { host }
  (result.map fun _ => (), ns, run.host)

/-- Runs the script with the ordinary budget. -/
def exec (h : Natives σ) (s : Script) (ns : Namespace) (host : σ) : Except Halt Unit × Namespace × σ :=
  s.execWith h callBudget ns host

end Script

/-- Calls a value from outside any script, with `globals` as the namespace names resolve against. -/
def applyValue (h : Natives σ) (callee : Value) (args : List Value) (kwargs globals : Namespace) (host : σ) :
    Except Halt Value × σ :=
  let (result, run) := (callValue h callBudget callee args kwargs globals).run.run { host }
  (result, run.host)

end MonitoredVm
