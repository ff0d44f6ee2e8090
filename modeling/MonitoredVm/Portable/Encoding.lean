import MonitoredVm.Portable

/-!
# Portable values as structured data

How exceptions, scripts and portable values look to the encoders, and what becomes of their numbers when
they are written as JSON and read back.
-/

namespace MonitoredVm

namespace Datum

def ofOption (d : Option Datum) : Datum :=
  match d with
  | some d => .present d
  | none => .absent

def ofBytes (b : List UInt8) : Datum := .seq (b.map .byte)

def ofFrame (f : Frame) : Datum := .record [("filename", .str f.filename), ("line", .nat f.line), ("name", .str f.name)]

def ofExcType (t : ExcType) : Datum := .choice t.index t.name

/-- One link of an exception chain around the datum of its cause. -/
def ofIncident (i : Incident) (cause : Datum) : Datum :=
  .record [("exc_type", ofExcType i.type), ("message", ofOption (i.message.map .str)), ("cause", cause),
    ("traceback", .seq (i.traceback.map ofFrame))]

def ofException (e : Exception) : Datum :=
  ofIncident e.toIncident (e.causes.foldr (fun i cause => .present (ofIncident i cause)) .absent)

end Datum

mutual

def Expr.datum : Expr → Datum
  | .none => .choice 0 "None"
  | .bool b => .variant 1 "Bool" (.bool b)
  | .int i => .variant 2 "Int" (.int i)
  | .float x => .variant 3 "Float" (.float x)
  | .str s => .variant 4 "Str" (.str s)
  | .bytes b => .variant 5 "Bytes" (Datum.ofBytes b)
  | .name n => .variant 6 "Name" (.str n)
  | .tuple items => .variant 7 "Tuple" (.seq (Expr.data items))
  | .list items => .variant 8 "List" (.seq (Expr.data items))
  | .dict items => .variant 9 "Dict" (.seq (Expr.pairData items))
  | .call func args kwargs =>
    .variant 10 "Call" (.record [("func", func.datum), ("args", .seq (Expr.data args)),
      ("kwargs", .seq (Expr.namedData kwargs))])

def Expr.data : List Expr → List Datum
  | [] => []
  | e :: es => e.datum :: Expr.data es

def Expr.pairData : List (Expr × Expr) → List Datum
  | [] => []
  | (k, v) :: rest => .tuple [k.datum, v.datum] :: Expr.pairData rest

def Expr.namedData : List (String × Expr) → List Datum
  | [] => []
  | (key, e) :: rest => .tuple [.str key, e.datum] :: Expr.namedData rest

end

def Param.datum (p : Param) : Datum :=
  .record [("name", .str p.name), ("default", Datum.ofOption (p.default.map Expr.datum))]

/-- A function around the data of its body. -/
def FunctionOf.datumAround {S : Type} (f : FunctionOf S) (body : List Datum) : Datum :=
  .record [("name", .str f.name), ("qualname", .str f.qualname), ("filename", .str f.filename), ("line", .nat f.line),
    ("params", .seq (f.params.map Param.datum)), ("body", .seq body)]

def Action.datum : Action → Datum
  | .pass => .choice 0 "Pass"
  | .assign name e => .variant 1 "Assign" (.tuple [.str name, e.datum])
  | .delete name => .variant 2 "Delete" (.str name)
  | .raise type message =>
    .variant 3 "Raise" (.tuple [Datum.ofExcType type, Datum.ofOption (message.map Expr.datum)])
  | .ret e => .variant 5 "Return" (Datum.ofOption (e.map Expr.datum))
  | .eval e => .variant 6 "Expr" e.datum

mutual

def Stmt.datum : Stmt → Datum
  | .act line a => .record [("line", .nat line), ("kind", a.datum)]
  | .define line ⟨name, qualname, filename, start, params, body⟩ =>
    .record [("line", .nat line), ("kind", .variant 4 "Def"
      (FunctionOf.datumAround (⟨name, qualname, filename, start, params, body⟩ : FunctionDef) (Stmt.data body)))]

def Stmt.data : List Stmt → List Datum
  | [] => []
  | s :: rest => s.datum :: Stmt.data rest

end

def FunctionOf.datum (f : FunctionDef) : Datum := f.datumAround (Stmt.data f.body)

def Script.datum (s : Script) : Datum := .record [("filename", .str s.filename), ("body", .seq (Stmt.data s.body))]

mutual

def Portable.datum : Portable → Datum
  | .none => .choice 0 "None"
  | .bool b => .variant 1 "Bool" (.bool b)
  | .int i => .variant 2 "Int" (.int i)
  | .float x => .variant 3 "Float" (.float x)
  | .str s => .variant 4 "Str" (.str s)
  | .bytes b => .variant 5 "Bytes" (Datum.ofBytes b)
  | .tuple items => .variant 6 "Tuple" (.seq (Portable.data items))
  | .list items => .variant 7 "List" (.seq (Portable.data items))
  | .dict items => .variant 8 "Dict" (.seq (Portable.pairData items))
  | .native name => .variant 9 "Native" (.str name)
  | .defined f => .variant 10 "Defined" (FunctionOf.datum f)
  | .exception e => .variant 11 "Exception" (Datum.ofException e)

def Portable.data : List Portable → List Datum
  | [] => []
  | p :: ps => p.datum :: Portable.data ps

def Portable.pairData : List (Portable × Portable) → List Datum
  | [] => []
  | (k, v) :: rest => .tuple [k.datum, v.datum] :: Portable.pairData rest

end

/-- A number after its text was read back. -/
def Binary64.reread (x : Binary64) : Binary64 := x.reread?.getD x

mutual

def Expr.reread : Expr → Expr
  | .float x => .float x.reread
  | .tuple items => .tuple (Expr.rereadAll items)
  | .list items => .list (Expr.rereadAll items)
  | .dict items => .dict (Expr.rereadPairs items)
  | .call func args kwargs => .call func.reread (Expr.rereadAll args) (Expr.rereadNamed kwargs)
  | e => e

def Expr.rereadAll : List Expr → List Expr
  | [] => []
  | e :: es => e.reread :: Expr.rereadAll es

def Expr.rereadPairs : List (Expr × Expr) → List (Expr × Expr)
  | [] => []
  | (k, v) :: rest => (k.reread, v.reread) :: Expr.rereadPairs rest

def Expr.rereadNamed : List (String × Expr) → List (String × Expr)
  | [] => []
  | (key, e) :: rest => (key, e.reread) :: Expr.rereadNamed rest

end

def Param.reread (p : Param) : Param := { p with default := p.default.map Expr.reread }

def Action.reread : Action → Action
  | .assign name e => .assign name e.reread
  | .raise type message => .raise type (message.map Expr.reread)
  | .ret e => .ret (e.map Expr.reread)
  | .eval e => .eval e.reread
  | a => a

mutual

def Stmt.reread : Stmt → Stmt
  | .act line a => .act line a.reread
  | .define line ⟨name, qualname, filename, start, params, body⟩ =>
    .define line ⟨name, qualname, filename, start, params.map Param.reread, Stmt.rereadAll body⟩

def Stmt.rereadAll : List Stmt → List Stmt
  | [] => []
  | s :: rest => s.reread :: Stmt.rereadAll rest

end

def FunctionOf.reread (f : FunctionDef) : FunctionDef :=
  { f with params := f.params.map Param.reread, body := Stmt.rereadAll f.body }

mutual

/-- A portable value whose numbers were read back. -/
def Portable.rereadNumbers : Portable → Portable
  | .float x => .float x.reread
  | .tuple items => .tuple (Portable.rereadAll items)
  | .list items => .list (Portable.rereadAll items)
  | .dict items => .dict (Portable.rereadPairs items)
  | .defined f => .defined (FunctionOf.reread f)
  | p => p

def Portable.rereadAll : List Portable → List Portable
  | [] => []
  | p :: ps => p.rereadNumbers :: Portable.rereadAll ps

def Portable.rereadPairs : List (Portable × Portable) → List (Portable × Portable)
  | [] => []
  | (k, v) :: rest => (k.rereadNumbers, v.rereadNumbers) :: Portable.rereadPairs rest

end

/-- What comes of writing a portable value as JSON and reading it back. -/
def Portable.throughJson (p : Portable) : Except ReadFault Portable := do
  let _ ← p.datum.readOver 0 0
  return p.rereadNumbers

end MonitoredVm
