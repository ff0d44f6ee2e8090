import MonitoredVm.Bytecode.Opcode

/-!
# Code objects

A code object is an immutable stream of two-byte units with a line per unit and a table of exception
handlers. An instruction takes one unit and the cache units after it; an operand wider than a byte is spread
over `EXTENDED_ARG` prefixes, most significant first.
-/

namespace MonitoredVm

/-- A unit: opcode and operand byte, or the two bytes of a cache counter, low byte first. -/
structure CodeUnit where
  code : UInt8 := 0
  arg : UInt8 := 0
  deriving DecidableEq, Repr, Inhabited

namespace CodeUnit

def ofOpcode (op : Opcode) (arg : UInt8) : CodeUnit := ⟨op.byte, arg⟩

/-- The unit read as a counter. -/
def counter (u : CodeUnit) : Nat := u.code.toNat + 256 * u.arg.toNat

/-- The unit that holds a counter. -/
def ofCounter (n : Nat) : CodeUnit := ⟨UInt8.ofNat n, UInt8.ofNat (n / 256)⟩

end CodeUnit

/-- A row of the exception table, in unit offsets; the protected range excludes `stop`. -/
structure Handler where
  start : Nat
  stop : Nat
  target : Nat
  depth : Nat
  lasti : Bool := false
  deriving DecidableEq, Repr, Inhabited

/-- A conditional transfer of control. -/
structure Branch where
  source : Nat
  notTaken : Nat
  taken : Nat
  deriving DecidableEq, Repr, Inhabited

/-- A code object as compiled. -/
structure Code where
  name : String
  qualname : String
  filename : String
  firstLine : UInt32
  units : Array CodeUnit
  lines : Array (Option UInt32)
  handlers : List Handler
  /-- The first offset that may fire events. -/
  firstTraceable : Nat
  noMonitoring : Bool
  deriving Repr, Inhabited

namespace Code

/-- The number of units, caches included. -/
def size (c : Code) : Nat := c.units.size

/-- Nothing in the code is traceable. -/
def isShim (c : Code) : Bool := decide (c.size ≤ c.firstTraceable)

def line (c : Code) (i : Nat) : Option UInt32 := (c.lines[i]?).join

/-- The compiled unit at `i`, an empty cache entry beyond the end. -/
def unitAt (c : Code) (i : Nat) : CodeUnit := (c.units[i]?).getD {}

def opcodeAt (c : Code) (i : Nat) : Opcode := Opcode.ofByte (c.unitAt i).code

def instructionSize (c : Code) (i : Nat) : Nat := 1 + (c.opcodeAt i).caches

def next (c : Code) (i : Nat) : Nat := i + c.instructionSize i

/-- Instruction offsets from `i` on, at most `count` of them. -/
def walk (c : Code) : (count : Nat) → Nat → List Nat
  | 0, _ => []
  | count + 1, i => if i < c.size then i :: c.walk count (c.next i) else []

/-- Instruction offsets from `start` to the end. -/
def offsetsFrom (c : Code) (start : Nat) : List Nat := c.walk (c.size - start) start

/-- What at most `count` prefixes before `j` add to an operand, the nearest one weighing `weight`. -/
def prefixed (c : Code) : (count : Nat) → Nat → (weight : Nat) → Nat
  | 0, _, _ => 0
  | _ + 1, 0, _ => 0
  | count + 1, j + 1, weight =>
    if c.opcodeAt j = .extendedArg then (c.unitAt j).arg.toNat * weight + c.prefixed count j (weight * 256) else 0

/-- The operand of the instruction at `i`, its prefixes folded in. -/
def oparg (c : Code) (i : Nat) : Nat := (c.unitAt i).arg.toNat + c.prefixed 3 i 256

/-- `a - b`, or nothing when that is negative. -/
def subtract? (a b : Nat) : Option Nat := if b ≤ a then some (a - b) else none

/-- Where the jump at `i` leads, nothing if it is no jump. An exhausted `FOR_ITER` or `SEND` lands one past the
instruction its operand points at. -/
def jumpTarget (c : Code) (i : Nat) : Option Nat :=
  match c.opcodeAt i with
  | .popJumpIfFalse | .popJumpIfTrue | .popJumpIfNone | .popJumpIfNotNone | .jumpForward =>
    some (c.next i + c.oparg i)
  | .forIter | .send => some (c.next i + c.oparg i + 1)
  | .jumpBackward | .jumpBackwardNoInterrupt => subtract? (c.next i) (c.oparg i)
  | _ => none

def branchAt? (c : Code) (i : Nat) : Option Branch :=
  let next := c.next i
  match c.opcodeAt i with
  -- the taken direction skips END_FOR and POP_ITER
  | .forIter => some ⟨i, next, next + c.oparg i + 2⟩
  -- the other direction skips NOT_TAKEN
  | .popJumpIfFalse | .popJumpIfTrue | .popJumpIfNone | .popJumpIfNotNone => some ⟨i, next + 1, next + c.oparg i⟩
  | .endAsyncFor => (subtract? next (c.oparg i)).map fun source => ⟨source, source + 2, next⟩
  | _ => none

/-- Every conditional branch, in the order of the instructions that decide or close it. -/
def branches (c : Code) : List Branch := (c.offsetsFrom 0).filterMap c.branchAt?

end Code
end MonitoredVm
