import MonitoredVm.Binary64.Text
import MonitoredVm.Script.Fault
import MonitoredVm.Text.Letter

/-!
# Tokens

The scanner is an automaton: `Lexer.step` takes one character, so scanning a text is a fold over its
characters and the state after a concatenation is the state after the second part started from the state
after the first. A token carries the line its first character stands on. Newlines count only outside
brackets and after a token on the same line.
-/

namespace MonitoredVm

inductive Tok where
  | name (s : String)
  | int (i : Int64)
  | float (x : Binary64)
  | str (s : String)
  | bytes (b : List UInt8)
  | lparen | rparen | lbracket | rbracket | lbrace | rbrace
  | comma | colon | semi | equal | minus
  | newline
  | eof
  deriving DecidableEq, Repr, Inhabited

structure Token where
  tok : Tok
  line : Nat
  deriving DecidableEq, Repr, Inhabited

/-- What the scanner is in the middle of. Characters read so far are kept newest first. -/
inductive LexMode where
  | between
  | comment
  /-- A `b` that may open a bytes literal or start a name. -/
  | letterB
  | name (read : List Char)
  | number (read : List Char) (isFloat : Bool)
  | text (isBytes : Bool) (quote : Char) (read : List Char)
  /-- A backslash has been read inside a literal. -/
  | escape (isBytes : Bool) (quote : Char) (read : List Char)
  deriving DecidableEq, Repr, Inhabited

/-- The scanner between two characters. -/
structure Lexer where
  mode : LexMode := .between
  line : Nat := 1
  /-- Open brackets; newlines inside them are insignificant. -/
  depth : Nat := 0
  /-- The tokens found, newest first. -/
  tokens : List Token := []
  deriving DecidableEq, Repr, Inhabited

namespace Lexer

/-- Adds a token on the current line and looks for the next one. -/
def push (s : Lexer) (tok : Tok) : Lexer :=
  { s with mode := .between, tokens := ⟨tok, s.line⟩ :: s.tokens }

def fail (s : Lexer) (f : CompileFault) : Except FaultAt Lexer := .error ⟨f, s.line⟩

def atLineStart (s : Lexer) : Bool :=
  match s.tokens with
  | [] => true
  | t :: _ => t.tok == .newline

def newline (s : Lexer) : Lexer :=
  if s.depth > 0 || s.atLineStart then { s with mode := .between, line := s.line + 1 }
  else { s.push .newline with line := s.line + 1 }

def isQuote (c : Char) : Bool := c == '\'' || c == '"'

def openBracket (s : Lexer) (tok : Tok) : Lexer := { s.push tok with depth := s.depth + 1 }

def closeBracket (s : Lexer) (tok : Tok) : Lexer := { s.push tok with depth := s.depth - 1 }

/-- A character that does not continue a token. -/
def start (s : Lexer) (c : Char) : Except FaultAt Lexer :=
  if c = '\n' then .ok s.newline
  else if c = ' ' || c = '\t' || c = '\r' then .ok { s with mode := .between }
  else if c = '#' then .ok { s with mode := .comment }
  else if isQuote c then .ok { s with mode := .text false c [] }
  else if c = 'b' then .ok { s with mode := .letterB }
  else if c.isDigit then .ok { s with mode := .number [c] false }
  else if Text.startsName c then .ok { s with mode := .name [c] }
  else match c with
    | '(' => .ok (s.openBracket .lparen)
    | '[' => .ok (s.openBracket .lbracket)
    | '\x7b' => .ok (s.openBracket .lbrace)
    | ')' => .ok (s.closeBracket .rparen)
    | ']' => .ok (s.closeBracket .rbracket)
    | '\x7d' => .ok (s.closeBracket .rbrace)
    | ',' => .ok (s.push .comma)
    | ':' => .ok (s.push .colon)
    | ';' => .ok (s.push .semi)
    | '=' => .ok (s.push .equal)
    | '-' => .ok (s.push .minus)
    | _ => s.fail (.invalidCharacter c)

def decimalValue (digits : List Char) : Nat := digits.foldl (fun n c => 10 * n + (c.toNat - 48)) 0

/-- Ends a number. Integers must fit in sixty-four bits with sign. -/
def endNumber (s : Lexer) (read : List Char) (isFloat : Bool) : Except FaultAt Lexer :=
  let text := read.reverse
  if isFloat then
    match Binary64.ofDecimal? text with
    | some x => .ok (s.push (.float x))
    | none => s.fail (.invalidDecimal (String.ofList text))
  else if decimalValue text < 0x8000000000000000 then .ok (s.push (.int (Int64.ofNat (decimalValue text))))
  else s.fail (.integerTooLarge (String.ofList text))

/-- Ends a literal at its closing quote. -/
def endText (s : Lexer) (isBytes : Bool) (read : List Char) : Except FaultAt Lexer :=
  let text := read.reverse
  if isBytes then
    if text.all fun c => decide (c.toNat < 128) then
      .ok (s.push (.bytes (text.map fun c => UInt8.ofNat c.toNat)))
    else s.fail .nonAsciiBytes
  else .ok (s.push (.str (String.ofList text)))

/-- The characters an escape stands for; an unknown one stands for itself. Newest first. -/
def unescape (c : Char) : List Char :=
  match c with
  | 'n' => ['\n']
  | 't' => ['\t']
  | '0' => [Char.ofNat 0]
  | '\\' => ['\\']
  | '\'' => ['\'']
  | '"' => ['"']
  | _ => [c, '\\']

def step (s : Lexer) (c : Char) : Except FaultAt Lexer :=
  match s.mode with
  | .between => s.start c
  | .comment => if c = '\n' then .ok s.newline else .ok s
  | .letterB =>
    if isQuote c then .ok { s with mode := .text true c [] }
    else if Text.continuesName c then .ok { s with mode := .name [c, 'b'] }
    else (s.push (.name "b")).start c
  | .name read =>
    if Text.continuesName c then .ok { s with mode := .name (c :: read) }
    else (s.push (.name (String.ofList read.reverse))).start c
  | .number read isFloat =>
    if c.isDigit then .ok { s with mode := .number (c :: read) isFloat }
    else if c = '_' then .ok s
    else if c = '.' then .ok { s with mode := .number (c :: read) true }
    else s.endNumber read isFloat >>= fun s => s.start c
  | .text isBytes quote read =>
    if c = '\n' then s.fail .unterminatedString
    else if c = quote then s.endText isBytes read
    else if c = '\\' then .ok { s with mode := .escape isBytes quote read }
    else .ok { s with mode := .text isBytes quote (c :: read) }
  | .escape isBytes quote read => .ok { s with mode := .text isBytes quote (unescape c ++ read) }

/-- The end of the text ends the token in progress. -/
def settle (s : Lexer) : Except FaultAt Lexer :=
  match s.mode with
  | .between | .comment => .ok { s with mode := .between }
  | .letterB => .ok (s.push (.name "b"))
  | .name read => .ok (s.push (.name (String.ofList read.reverse)))
  | .number read isFloat => s.endNumber read isFloat
  | .text _ _ _ | .escape _ _ _ => s.fail .unterminatedString

/-- The tokens in order, the last line ended and the end of input marked. -/
def finish (s : Lexer) : List Token :=
  let s := if s.atLineStart then s else s.push .newline
  (s.push .eof).tokens.reverse

def run (s : Lexer) (source : List Char) : Except FaultAt Lexer := source.foldlM step s

def scan (source : List Char) : Except FaultAt (List Token) := do
  let s ← run {} source
  let s ← s.settle
  return s.finish

end Lexer
end MonitoredVm
