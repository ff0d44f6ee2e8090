/-!
# Why a script does not compile

Causes of compile errors, with their wording in one place, and the error that places a cause in a file.
-/

namespace MonitoredVm

/-- What is wrong with a source text. -/
inductive CompileFault where
  | invalidCharacter (c : Char)
  | unterminatedString
  | nonAsciiBytes
  | invalidDecimal (text : String)
  | integerTooLarge (text : String)
  | invalidForm
  | expected (what : String)
  | returnOutsideFunction
  | cannotAssign (name : String)
  | unknownExceptionType (name : String)
  | nonDefaultAfterDefault
  | positionalAfterKeyword
  /-- The token budget of the parser ran out. -/
  | exhausted
  deriving DecidableEq, Repr, Inhabited

def CompileFault.message : CompileFault → String
  | .invalidCharacter c => "invalid character '" ++ String.singleton c ++ "'"
  | .unterminatedString => "unterminated string literal"
  | .nonAsciiBytes => "bytes can only contain ASCII literal characters"
  | .invalidDecimal t => "invalid decimal literal '" ++ t ++ "'"
  | .integerTooLarge t => "integer literal too large '" ++ t ++ "'"
  | .invalidForm => "invalid syntax"
  | .expected what => "expected " ++ what
  | .returnOutsideFunction => "'return' outside function"
  | .cannotAssign n => "cannot assign to " ++ n
  | .unknownExceptionType n => "unknown exception type '" ++ n ++ "'"
  | .nonDefaultAfterDefault => "non-default argument follows default argument"
  | .positionalAfterKeyword => "positional argument follows keyword argument"
  | .exhausted => "source too large"

structure FaultAt where
  fault : CompileFault
  line : Nat
  deriving DecidableEq, Repr, Inhabited

structure CompileError extends FaultAt where
  filename : String
  deriving DecidableEq, Repr, Inhabited

/-- The message followed by the place. -/
def CompileError.summary (e : CompileError) : String :=
  e.fault.message ++ " (" ++ e.filename ++ ", line " ++ toString e.line ++ ")"

end MonitoredVm
