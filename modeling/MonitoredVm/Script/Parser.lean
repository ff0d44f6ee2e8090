import MonitoredVm.Script.Token
import MonitoredVm.Script.Tree

/-!
# From tokens to trees

A recursive-descent parser on the list of tokens that are left. Each function consumes from the front and
returns the rest; the first argument bounds the nesting of the descent and the token count suffices for it.
The newline that ends a function body ends the definition as well, so `definition` hands it back. An error
lies on the line of the next token.
-/

namespace MonitoredVm

/-- What does not change during a parse, and the enclosing functions. -/
structure ParseContext where
  filename : String
  /-- The line of the last token. -/
  lastLine : Nat
  /-- Qualified names of the enclosing functions, innermost first. -/
  scopes : List String := []

namespace ParseContext

def lineAt (c : ParseContext) : List Token → Nat
  | [] => c.lastLine
  | t :: _ => t.line

def fail {α : Type} (c : ParseContext) (ts : List Token) (f : CompileFault) : Except FaultAt α :=
  .error ⟨f, c.lineAt ts⟩

/-- Consumes `tok`, described as `what`. -/
def expect (c : ParseContext) (tok : Tok) (what : String) (ts : List Token) : Except FaultAt (List Token) :=
  match ts with
  | t :: rest => if t.tok = tok then .ok rest else c.fail ts (.expected what)
  | [] => c.fail ts (.expected what)

/-- Consumes a name; the token that is no name is consumed as well. -/
def name (c : ParseContext) (ts : List Token) : Except FaultAt (String × List Token) :=
  match ts with
  | ⟨.name n, _⟩ :: rest => .ok (n, rest)
  | _ :: rest => c.fail rest .invalidForm
  | [] => c.fail [] .invalidForm

end ParseContext

/-- Names the grammar reserves. -/
def isKeyword (name : String) : Bool :=
  ["None", "True", "False", "def", "del", "pass", "raise", "return"].contains name

namespace Expr

mutual

/-- An atom followed by any number of calls. -/
def parse (c : ParseContext) : Nat → List Token → Except FaultAt (Expr × List Token)
  | 0, ts => c.fail ts .exhausted
  | n + 1, ts => do
    let (e, rest) ← atom c n ts
    calls c n e rest

def calls (c : ParseContext) : Nat → Expr → List Token → Except FaultAt (Expr × List Token)
  | 0, _, ts => c.fail ts .exhausted
  | n + 1, e, ts =>
    match ts with
    | ⟨.lparen, _⟩ :: rest => do
      let ((args, kwargs), rest) ← arguments c n [] [] rest
      calls c n (.call e args kwargs) rest
    | _ => .ok (e, ts)

/-- Arguments up to the closing parenthesis, after those already read (newest first). -/
def arguments (c : ParseContext) : Nat → List Expr → List (String × Expr) → List Token →
    Except FaultAt ((List Expr × List (String × Expr)) × List Token)
  | 0, _, _, ts => c.fail ts .exhausted
  | n + 1, args, kwargs, ts =>
    match ts with
    | ⟨.rparen, _⟩ :: rest => .ok ((args.reverse, kwargs.reverse), rest)
    | ⟨.name key, _⟩ :: ⟨.equal, _⟩ :: rest => do
      let (v, rest) ← parse c n rest
      moreArguments c n args ((key, v) :: kwargs) rest
    | _ =>
      if kwargs.isEmpty then do
        let (v, rest) ← parse c n ts
        moreArguments c n (v :: args) kwargs rest
      else c.fail ts .positionalAfterKeyword

def moreArguments (c : ParseContext) : Nat → List Expr → List (String × Expr) → List Token →
    Except FaultAt ((List Expr × List (String × Expr)) × List Token)
  | 0, _, _, ts => c.fail ts .exhausted
  | n + 1, args, kwargs, ts =>
    match ts with
    | ⟨.comma, _⟩ :: rest => arguments c n args kwargs rest
    | _ => do
      let rest ← c.expect .rparen "')'" ts
      return ((args.reverse, kwargs.reverse), rest)

/-- A literal, a name, or a bracketed form. -/
def atom (c : ParseContext) : Nat → List Token → Except FaultAt (Expr × List Token)
  | 0, ts => c.fail ts .exhausted
  | n + 1, ts =>
    match ts with
    | [] => c.fail [] .invalidForm
    | t :: rest =>
      match t.tok with
      | .int i => .ok (.int i, rest)
      | .float x => .ok (.float x, rest)
      | .minus =>
        match rest with
        | ⟨.int i, _⟩ :: rest => .ok (.int (-i), rest)
        | ⟨.float x, _⟩ :: rest => .ok (.float x.neg, rest)
        | _ :: rest => c.fail rest .invalidForm
        | [] => c.fail [] .invalidForm
      | .str s => .ok (.str s, rest)
      | .bytes b => .ok (.bytes b, rest)
      | .name "None" => .ok (.none, rest)
      | .name "True" => .ok (.bool true, rest)
      | .name "False" => .ok (.bool false, rest)
      | .name m => if isKeyword m then c.fail rest .invalidForm else .ok (.name m, rest)
      | .lparen => group c n rest
      | .lbracket => do
        let (items, rest) ← items c n [] rest
        return (.list items, rest)
      | .lbrace => do
        let (items, rest) ← pairs c n [] rest
        return (.dict items, rest)
      | .rparen | .rbracket | .rbrace | .comma | .colon | .equal | .semi | .newline | .eof => c.fail rest .invalidForm

/-- After an opening parenthesis: the empty tuple, a parenthesised expression, or a tuple. -/
def group (c : ParseContext) : Nat → List Token → Except FaultAt (Expr × List Token)
  | 0, ts => c.fail ts .exhausted
  | n + 1, ts =>
    match ts with
    | ⟨.rparen, _⟩ :: rest => .ok (.tuple [], rest)
    | _ => do
      let (first, rest) ← parse c n ts
      match rest with
      | ⟨.rparen, _⟩ :: rest => return (first, rest)
      | _ =>
        let (items, rest) ← tupleRest c n [first] rest
        return (.tuple items, rest)

/-- The rest of a tuple, each further item after a comma. -/
def tupleRest (c : ParseContext) : Nat → List Expr → List Token → Except FaultAt (List Expr × List Token)
  | 0, _, ts => c.fail ts .exhausted
  | n + 1, items, ts =>
    match ts with
    | ⟨.comma, _⟩ :: ⟨.rparen, _⟩ :: rest => .ok (items.reverse, rest)
    | ⟨.comma, _⟩ :: rest => do
      let (v, rest) ← parse c n rest
      tupleRest c n (v :: items) rest
    | _ => do
      let rest ← c.expect .rparen "')'" ts
      return (items.reverse, rest)

def items (c : ParseContext) : Nat → List Expr → List Token → Except FaultAt (List Expr × List Token)
  | 0, _, ts => c.fail ts .exhausted
  | n + 1, read, ts =>
    match ts with
    | ⟨.rbracket, _⟩ :: rest => .ok (read.reverse, rest)
    | _ => do
      let (v, rest) ← parse c n ts
      match rest with
      | ⟨.comma, _⟩ :: rest => items c n (v :: read) rest
      | _ =>
        let rest ← c.expect .rbracket "']'" rest
        return ((v :: read).reverse, rest)

def pairs (c : ParseContext) : Nat → List (Expr × Expr) → List Token → Except FaultAt (List (Expr × Expr) × List Token)
  | 0, _, ts => c.fail ts .exhausted
  | n + 1, read, ts =>
    match ts with
    | ⟨.rbrace, _⟩ :: rest => .ok (read.reverse, rest)
    | _ => do
      let (k, rest) ← parse c n ts
      let rest ← c.expect .colon "':'" rest
      let (v, rest) ← parse c n rest
      match rest with
      | ⟨.comma, _⟩ :: rest => pairs c n ((k, v) :: read) rest
      | _ =>
        let rest ← c.expect .rbrace "'\x7d'" rest
        return (((k, v) :: read).reverse, rest)

end
end Expr

/-- The parameters of a definition up to the closing parenthesis. -/
def Param.parseAll (c : ParseContext) : Nat → List Param → List Token → Except FaultAt (List Param × List Token)
  | 0, _, ts => c.fail ts .exhausted
  | n + 1, read, ts =>
    match ts with
    | ⟨.rparen, _⟩ :: rest => .ok (read.reverse, rest)
    | _ => do
      let (name, rest) ← c.name ts
      let (param, rest) ← match rest with
        | ⟨.equal, _⟩ :: rest => do
          let (e, rest) ← Expr.parse c n rest
          pure (({ name, default := some e } : Param), rest)
        | _ =>
          if read.any (·.default.isSome) then c.fail rest .nonDefaultAfterDefault
          else pure (({ name } : Param), rest)
      match rest with
      | ⟨.comma, _⟩ :: rest => parseAll c n (param :: read) rest
      | _ =>
        let rest ← c.expect .rparen "')'" rest
        return ((param :: read).reverse, rest)

/-- What follows `raise`: a known type, optionally with a message in parentheses. -/
def Action.parseRaise (c : ParseContext) (n : Nat) (ts : List Token) : Except FaultAt (Action × List Token) := do
  let (typeName, rest) ← c.name ts
  match ExcType.ofName? typeName with
  | none => c.fail rest (.unknownExceptionType typeName)
  | some type =>
    match rest with
    | ⟨.lparen, _⟩ :: ⟨.rparen, _⟩ :: rest => return (.raise type none, rest)
    | ⟨.lparen, _⟩ :: rest =>
      let (message, rest) ← Expr.parse c n rest
      let rest ← c.expect .rparen "')'" rest
      return (.raise type (some message), rest)
    | _ => return (.raise type none, rest)

/-- What follows `return`: nothing before the end of the statement, or an expression. -/
def Action.parseReturn (c : ParseContext) (n : Nat) (ts : List Token) : Except FaultAt (Action × List Token) :=
  if c.scopes.isEmpty then c.fail ts .returnOutsideFunction
  else match ts with
    | [] | ⟨.semi, _⟩ :: _ | ⟨.newline, _⟩ :: _ | ⟨.eof, _⟩ :: _ => .ok (.ret none, ts)
    | _ => do
      let (value, rest) ← Expr.parse c n ts
      return (.ret (some value), rest)

/-- Every statement but a definition. -/
def Action.parse (c : ParseContext) (n : Nat) (ts : List Token) : Except FaultAt (Action × List Token) :=
  match ts with
  | ⟨.name "pass", _⟩ :: rest => .ok (.pass, rest)
  | ⟨.name "del", _⟩ :: rest => do
    let (name, rest) ← c.name rest
    return (.delete name, rest)
  | ⟨.name "raise", _⟩ :: rest => parseRaise c n rest
  | ⟨.name "return", _⟩ :: rest => parseReturn c n rest
  | ⟨.name target, _⟩ :: ⟨.equal, line⟩ :: rest =>
    if isKeyword target then c.fail (⟨.equal, line⟩ :: rest) (.cannotAssign target)
    else do
      let (value, rest) ← Expr.parse c n rest
      return (.assign target value, rest)
  | _ => do
    let (value, rest) ← Expr.parse c n ts
    return (.eval value, rest)

/-- The statements of one line and the newline that ends it. -/
structure ParsedLine where
  stmts : List Stmt
  lineEnd : Token
  rest : List Token

/-- The name a function is reported under, inside the function `scopes` starts with. -/
def qualify (scopes : List String) (name : String) : String :=
  match scopes with
  | [] => name
  | outer :: _ => outer ++ ".<locals>." ++ name

namespace Stmt

mutual

def parse (c : ParseContext) : Nat → List Token → Except FaultAt (Stmt × List Token)
  | 0, ts => c.fail ts .exhausted
  | n + 1, ts =>
    match ts with
    | ⟨.name "def", line⟩ :: rest => do
      let (f, rest) ← definition c n line rest
      return (.define line f, rest)
    | _ => do
      let (action, rest) ← Action.parse c n ts
      return (.act (c.lineAt ts) action, rest)

/-- What follows `def`. The newline that ends the body is handed back. -/
def definition (c : ParseContext) : Nat → Nat → List Token → Except FaultAt (FunctionDef × List Token)
  | 0, _, ts => c.fail ts .exhausted
  | n + 1, line, ts => do
    let (name, rest) ← c.name ts
    let rest ← c.expect .lparen "'('" rest
    let (params, rest) ← Param.parseAll c n [] rest
    let rest ← c.expect .colon "':'" rest
    let qualname := qualify c.scopes name
    let body ← parseLine { c with scopes := qualname :: c.scopes } n [] rest
    return ({ name, qualname, filename := c.filename, line, params, body := body.stmts },
      body.lineEnd :: body.rest)

/-- Statements separated by semicolons up to a newline, after those already read (newest first). -/
def parseLine (c : ParseContext) : Nat → List Stmt → List Token → Except FaultAt ParsedLine
  | 0, _, ts => c.fail ts .exhausted
  | n + 1, read, ts => do
    let (stmt, rest) ← parse c n ts
    match rest with
    | ⟨.newline, line⟩ :: rest => return ⟨(stmt :: read).reverse, ⟨.newline, line⟩, rest⟩
    | _ =>
      let rest ← c.expect .semi "';' or end of line" rest
      match rest with
      | ⟨.newline, line⟩ :: rest => return ⟨(stmt :: read).reverse, ⟨.newline, line⟩, rest⟩
      | _ => parseLine c n (stmt :: read) rest

end
end Stmt

namespace Script

/-- The lines of a module up to the end of input. -/
def parseLines (c : ParseContext) (budget : Nat) : Nat → List Token → Except FaultAt (List Stmt)
  | 0, ts => c.fail ts .exhausted
  | n + 1, ts =>
    match ts with
    | [] | ⟨.eof, _⟩ :: _ => .ok []
    | _ => do
      let line ← Stmt.parseLine c budget [] ts
      let stmts ← parseLines c budget n line.rest
      return line.stmts ++ stmts

/-- Enough fuel for every descent over `count` tokens. -/
def parseBudget (count : Nat) : Nat := 4 * count + 8

def parseTokens (filename : String) (ts : List Token) : Except FaultAt (List Stmt) :=
  let c : ParseContext := { filename, lastLine := (ts.getLast?.map (·.line)).getD 1 }
  parseLines c (parseBudget ts.length) (ts.length + 1) ts

/-- Compiles a source text; `filename` appears in tracebacks and compile errors. -/
def compile (source filename : String) : Except CompileError Script :=
  match Lexer.scan source.toList >>= parseTokens filename with
  | .ok body => .ok ⟨filename, body⟩
  | .error f => .error { toFaultAt := f, filename }

end Script
end MonitoredVm
