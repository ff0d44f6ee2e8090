import MonitoredVm.Binary64
import MonitoredVm.Exception

/-!
# Script trees

A script is a list of statements under a file name. A statement is a simple action or the definition of a
function, whose body is again a list of statements. Trees compare by structure, literals numerically.
-/

namespace MonitoredVm

inductive Expr where
  | none
  | bool (b : Bool)
  | int (i : Int64)
  | float (x : Binary64)
  | str (s : String)
  | bytes (b : List UInt8)
  | name (n : String)
  | tuple (items : List Expr)
  | list (items : List Expr)
  | dict (items : List (Expr × Expr))
  | call (func : Expr) (args : List Expr) (kwargs : List (String × Expr))
  deriving Repr, Inhabited

/-- A parameter with its default. -/
structure Param where
  name : String
  default : Option Expr := .none
  deriving Repr, Inhabited

/-- A statement that contains no other statement. -/
inductive Action where
  | pass
  | assign (name : String) (value : Expr)
  | delete (name : String)
  | raise (type : ExcType) (message : Option Expr)
  | ret (value : Option Expr)
  | eval (value : Expr)
  deriving Repr, Inhabited

/-- A function whose body is a list of `S`. -/
structure FunctionOf (S : Type) where
  name : String
  qualname : String
  filename : String
  line : Nat
  params : List Param
  body : List S
  deriving Repr, Inhabited

/-- A statement with the line it starts on. -/
inductive Stmt where
  | act (line : Nat) (action : Action)
  | define (line : Nat) (function : FunctionOf Stmt)
  deriving Repr, Inhabited

abbrev FunctionDef := FunctionOf Stmt

structure Script where
  filename : String
  body : List Stmt
  deriving Repr, Inhabited

namespace Stmt

def line : Stmt → Nat
  | .act line _ => line
  | .define line _ => line

end Stmt

namespace FunctionOf

/-- The body as a script of its own, for a function without parameters. -/
def bodyScript? (f : FunctionDef) : Option Script :=
  if f.params.isEmpty then some ⟨f.filename, f.body⟩ else Option.none

end FunctionOf

namespace Script

def describe (s : Script) : String :=
  "<script " ++ s.filename ++ " (" ++ toString s.body.length ++ " statements)>"

end Script

mutual

def Expr.same : Expr → Expr → Bool
  | .none, .none => true
  | .bool a, .bool b => a == b
  | .int a, .int b => a == b
  | .float a, .float b => a.same b
  | .str a, .str b => a == b
  | .bytes a, .bytes b => a == b
  | .name a, .name b => a == b
  | .tuple a, .tuple b => Expr.sameAll a b
  | .list a, .list b => Expr.sameAll a b
  | .dict a, .dict b => Expr.samePairs a b
  | .call f a k, .call g b l => f.same g && Expr.sameAll a b && Expr.sameNamed k l
  | _, _ => false

def Expr.sameAll : List Expr → List Expr → Bool
  | [], [] => true
  | x :: xs, y :: ys => x.same y && Expr.sameAll xs ys
  | _, _ => false

def Expr.samePairs : List (Expr × Expr) → List (Expr × Expr) → Bool
  | [], [] => true
  | (a, b) :: xs, (c, d) :: ys => a.same c && b.same d && Expr.samePairs xs ys
  | _, _ => false

def Expr.sameNamed : List (String × Expr) → List (String × Expr) → Bool
  | [], [] => true
  | (a, b) :: xs, (c, d) :: ys => a == c && b.same d && Expr.sameNamed xs ys
  | _, _ => false

end

def Expr.sameOption : Option Expr → Option Expr → Bool
  | .none, .none => true
  | some a, some b => a.same b
  | _, _ => false

def Param.same (p q : Param) : Bool := p.name == q.name && Expr.sameOption p.default q.default

/-- Elementwise comparison of two lists of one length. -/
def sameList {α : Type} (same : α → α → Bool) : List α → List α → Bool
  | [], [] => true
  | x :: xs, y :: ys => same x y && sameList same xs ys
  | _, _ => false

def Action.same : Action → Action → Bool
  | .pass, .pass => true
  | .assign n e, .assign m f => n == m && e.same f
  | .delete n, .delete m => n == m
  | .raise t e, .raise u f => t == u && Expr.sameOption e f
  | .ret e, .ret f => Expr.sameOption e f
  | .eval e, .eval f => e.same f
  | _, _ => false

mutual

def Stmt.same : Stmt → Stmt → Bool
  | .act l a, .act m b => l == m && a.same b
  | .define l ⟨n, q, f, k, ps, b⟩, .define m g =>
    l == m && n == g.name && q == g.qualname && f == g.filename && k == g.line &&
      sameList Param.same ps g.params && Stmt.sameAll b g.body
  | _, _ => false

def Stmt.sameAll : List Stmt → List Stmt → Bool
  | [], [] => true
  | x :: xs, y :: ys => x.same y && Stmt.sameAll xs ys
  | _, _ => false

end

def FunctionOf.same (f g : FunctionDef) : Bool :=
  f.name == g.name && f.qualname == g.qualname && f.filename == g.filename && f.line == g.line &&
    sameList Param.same f.params g.params && Stmt.sameAll f.body g.body

end MonitoredVm
