import MonitoredVm.Bindings
import MonitoredVm.Bytecode.Code

/-!
# Assembling code objects

The assembler emits instructions with their caches and records the line of each unit. Operands over a byte
are spread over prefixes; jumps have one-byte operands, and a jump that does not fit is refused without a
change.
-/

namespace MonitoredVm

/-- Why an instruction cannot be encoded. -/
inductive BuildError where
  | jumpTooFar (offset distance : Nat)
  | notBackward (offset target : Nat)
  | notAJump (op : Opcode)
  deriving DecidableEq, Repr, Inhabited

def BuildError.message : BuildError → String
  | .jumpTooFar offset distance =>
    "jump at offset " ++ toString offset ++ " spans " ++ toString distance ++
      " code units, more than a one-byte operand allows"
  | .notBackward offset target =>
    "backward jump at offset " ++ toString offset ++ " targets " ++ toString target ++ ", which is not behind it"
  | .notAJump op => op.name ++ " is not a jump opcode"

/-- A code object under construction. -/
structure Assembler where
  name : String := "f"
  qualname : Option String := none
  filename : String := "<string>"
  firstLine : UInt32 := 1
  units : Array CodeUnit := #[]
  lines : Array (Option UInt32) := #[]
  handlers : List Handler := []
  /-- The line of the instructions to come. -/
  currentLine : Option UInt32 := none
  firstTraceable : Nat := 0
  noMonitoring : Bool := false
  deriving Repr, Inhabited

namespace Assembler

/-- Sets the definition line, which is also the line of the instructions to come. -/
def withFirstLine (a : Assembler) (line : UInt32) : Assembler :=
  { a with firstLine := line, currentLine := some line }

def offset (a : Assembler) : Nat := a.units.size

/-- Appends an instruction and its empty cache units. -/
def push (a : Assembler) (op : Opcode) (arg : UInt8) : Assembler :=
  { a with
    units := a.units ++ (CodeUnit.ofOpcode op arg :: List.replicate op.caches {}).toArray
    lines := a.lines ++ (List.replicate (op.caches + 1) a.currentLine).toArray }

/-- The bytes of an operand above the lowest one, most significant first, without leading zeros. -/
def highBytes (arg : UInt32) : List UInt8 :=
  [UInt8.ofNat (arg.toNat >>> 24), UInt8.ofNat (arg.toNat >>> 16), UInt8.ofNat (arg.toNat >>> 8)].dropWhile
    (· == 0)

/-- Emits an instruction after the prefixes its operand needs. -/
def emit (a : Assembler) (op : Opcode) (arg : UInt32) : Assembler :=
  ((highBytes arg).foldl (fun a byte => a.push .extendedArg byte) a).push op (UInt8.ofNat arg.toNat)

/-- The offset an emitted instruction gets, after its prefixes. -/
def emitOffset (a : Assembler) (arg : UInt32) : Nat := a.offset + (highBytes arg).length

/-- A jump distance as an operand byte. -/
def distance (offset d : Nat) : Except BuildError UInt8 :=
  if d < 256 then .ok (UInt8.ofNat d) else .error (.jumpTooFar offset d)

/-- Points the forward jump at `offset` to the current offset. -/
def patchJump (a : Assembler) (offset : Nat) : Except BuildError Assembler := do
  let unit := (a.units[offset]?).getD {}
  let next := offset + 1 + (Opcode.ofByte unit.code).caches
  let arg ← distance offset (a.offset - next)
  return { a with units := a.units.setIfInBounds offset { unit with arg } }

def jumpBackward (a : Assembler) (op : Opcode) (target : Nat) : Except BuildError Assembler := do
  if op ≠ .jumpBackward ∧ op ≠ .jumpBackwardNoInterrupt then throw (.notAJump op)
  else if a.offset < target then throw (.notBackward a.offset target)
  else
    let arg ← distance a.offset (a.offset + 1 + op.caches - target)
    return a.push op arg

/-- Emits the end of an asynchronous loop, pointing back at the `END_SEND` at `endSend`. -/
def endAsyncFor (a : Assembler) (endSend : Nat) : Except BuildError Assembler := do
  let next := a.offset + 1
  let arg ← distance a.offset (next - min endSend next)
  return a.push .endAsyncFor arg

def build (a : Assembler) : Code where
  name := a.name
  qualname := a.qualname.getD a.name
  filename := a.filename
  firstLine := a.firstLine
  units := a.units
  lines := a.lines
  handlers := a.handlers
  firstTraceable := a.firstTraceable
  noMonitoring := a.noMonitoring

end Assembler

/-- A number of an assembly, given directly or as the offset of a mark. -/
inductive Operand where
  | literal (n : Nat)
  | mark (name : String)
  deriving DecidableEq, Repr, Inhabited

/-- One step of an assembly, with jumps and offsets named. -/
inductive AsmStep where
  | emit (op : Opcode) (arg : Operand)
  | jump (op : Opcode) (label : String)
  | patch (label : String)
  | jumpBack (op : Opcode) (target : Operand)
  | endAsyncFor (target : Operand)
  | line (n : Operand)
  | noLine
  | traceable
  | handler (start stop target depth : Operand)
  | mark (name : String)
  deriving Repr, Inhabited

/-- An assembly with the jumps that can be patched and the marks set so far. -/
structure Assembly where
  assembler : Assembler := {}
  labels : Bindings Nat := {}
  marks : Bindings Nat := {}
  deriving Repr, Inhabited

namespace Assembly

/-- The number an operand stands for; a mark not set stands for the start. -/
def number (s : Assembly) : Operand → Nat
  | .literal n => n
  | .mark name => (s.marks.get? name).getD 0

/-- The outcome of a step: the offset it reports, if any, or a refusal. -/
abbrev Outcome := Except BuildError (Option Nat)

/-- Keeps the assembly when an instruction is refused. -/
def attempt (s : Assembly) (r : Except BuildError Assembler) (reported : Option Nat) : Assembly × Outcome :=
  match r with
  | .ok a => ({ s with assembler := a }, .ok reported)
  | .error e => (s, .error e)

def step (s : Assembly) : AsmStep → Assembly × Outcome
  | .emit op arg =>
    let arg := UInt32.ofNat (s.number arg)
    ({ s with assembler := s.assembler.emit op arg }, .ok (some (s.assembler.emitOffset arg)))
  | .jump op label =>
    let at_ := s.assembler.offset
    ({ s with assembler := s.assembler.push op 0, labels := s.labels.insert label at_ }, .ok (some at_))
  | .patch label => s.attempt (s.assembler.patchJump ((s.labels.get? label).getD 0)) none
  | .jumpBack op target => s.attempt (s.assembler.jumpBackward op (s.number target)) (some s.assembler.offset)
  | .endAsyncFor target => s.attempt (s.assembler.endAsyncFor (s.number target)) (some s.assembler.offset)
  | .line n => ({ s with assembler := { s.assembler with currentLine := some (UInt32.ofNat (s.number n)) } }, .ok none)
  | .noLine => ({ s with assembler := { s.assembler with currentLine := none } }, .ok none)
  | .traceable => ({ s with assembler := { s.assembler with firstTraceable := s.assembler.offset } }, .ok none)
  | .handler start stop target depth =>
    let h : Handler :=
      { start := s.number start, stop := s.number stop, target := s.number target, depth := s.number depth }
    ({ s with assembler := { s.assembler with handlers := s.assembler.handlers ++ [h] } }, .ok none)
  | .mark name => ({ s with marks := s.marks.insert name s.assembler.offset }, .ok (some s.assembler.offset))

def run (s : Assembly) : List AsmStep → Assembly × List Outcome
  | [] => (s, [])
  | step :: rest =>
    let (s, outcome) := s.step step
    let (s, outcomes) := s.run rest
    (s, outcome :: outcomes)

end Assembly

/-- A code object to assemble: its options and its steps. -/
structure CodeSpec where
  name : String := "f"
  qualname : Option String := none
  filename : Option String := none
  firstLine : Option UInt32 := none
  noMonitoring : Bool := false
  steps : List AsmStep := []
  deriving Repr, Inhabited

def CodeSpec.assemble (spec : CodeSpec) : Code × List Assembly.Outcome :=
  let a : Assembler := { name := spec.name, qualname := spec.qualname, noMonitoring := spec.noMonitoring }
  let a := match spec.filename with
    | some filename => { a with filename }
    | none => a
  let a := match spec.firstLine with
    | some line => a.withFirstLine line
    | none => a
  let (s, outcomes) := Assembly.run { assembler := a } spec.steps
  (s.assembler.build, outcomes)

end MonitoredVm
