import MonitoredVm.Bytecode.Code
import MonitoredVm.Monitoring.Event

/-!
# Line tables

What `LINE` events need of a code object: which units start a line, and the line of each instruction. A table
has an entry of bytes for each unit, the mark of a line start and then the line, lowest byte first. A line is
kept as its distance from the first line, two added, in the fewest bytes that hold the largest distance of a
traceable instruction; zero means no line. An instruction starts a line if its line differs from that of the
instruction before it, if a jump leads to it, or if it is an exception handler.
-/

namespace MonitoredVm

/-- What stops the filling of a line table. -/
inductive LineFault where
  /-- A number leaves the signed 32-bit range. -/
  | overflow
  /-- Bytes outside the table are written. -/
  | outside
  deriving DecidableEq, Repr, Inhabited

/-- The lines of a code object, an entry for each unit. -/
structure LineTable where
  /-- Bytes of an entry: one for the mark, the others for the line. -/
  entry : Nat
  bytes : Array UInt8
  deriving DecidableEq, Repr, Inhabited

inductive LineEdit where
  /-- Keeps the distance of the line of a unit. -/
  | keep (i : Nat) (distance : Int)
  /-- Marks a unit as a line start. -/
  | mark (i : Nat)
  /-- Marks a unit that has a line. -/
  | markLined (i : Nat)
  deriving DecidableEq, Repr, Inhabited

namespace LineTable

/-! ## Bytes -/

/-- The lowest bytes of a number, the lowest first. -/
def toBytes : (count : Nat) → (word : Nat) → List UInt8
  | 0, _ => []
  | count + 1, word => UInt8.ofNat word :: toBytes count (word / 0x100)

def ofBytes : List UInt8 → Nat
  | [] => 0
  | byte :: rest => byte.toNat + 0x100 * ofBytes rest

/-- The array with other bytes from `start` on. -/
def put (a : Array UInt8) (start : Nat) : List UInt8 → Array UInt8
  | [] => a
  | byte :: rest => put (a.setIfInBounds start byte) (start + 1) rest

def write (t : LineTable) (start : Nat) (bytes : List UInt8) : Except LineFault LineTable :=
  if start + bytes.length ≤ t.bytes.size then .ok { t with bytes := put t.bytes start bytes } else .error .outside

def slice (a : Array UInt8) (start count : Nat) : List UInt8 := (List.range' start count).map fun k => (a[k]?).getD 0

/-- Bytes from `start` on, if all of them are there. -/
def read? (t : LineTable) (start count : Nat) : Option (List UInt8) :=
  if start + count ≤ t.bytes.size then some (slice t.bytes start count) else none

/-! ## Entries -/

/-- A number that is to fit 32 bits, with a sign. -/
def signed (n : Int) : Except LineFault Int :=
  if -0x80000000 ≤ n ∧ n < 0x80000000 then .ok n else .error .overflow

/-- The distance that stands for no line. -/
def noLine : Int := -2

/-- The distance of a line from the first one. Lines before the one above the first are dropped, as are those too far
below it. -/
def distanceFor (code : Code) (line : Option UInt32) : Int :=
  match line with
  | none => noLine
  | some line => ((signed (line.toNat - code.firstLine.toNat)).toOption.filter (noLine < ·)).getD noLine

def keep (t : LineTable) (i : Nat) (distance : Int) : Except LineFault LineTable := do
  let word ← signed (distance - noLine)
  t.write (i * t.entry + 1) (toBytes (t.entry - 1) word.toNat)

def mark (t : LineTable) (code : Code) (i : Nat) : Except LineFault LineTable :=
  t.write (i * t.entry) [(code.opcodeAt i).byte]

def startsLine (t : LineTable) (i : Nat) : Bool := (t.bytes[i * t.entry]?).getD 0 != 0

/-- The distance kept for the unit at `i`. A word with the top bit set stands for none. -/
def distance (t : LineTable) (i : Nat) : Except LineFault Int :=
  match t.read? (i * t.entry + 1) (t.entry - 1) with
  | none => .ok noLine
  | some bytes => if ofBytes bytes < 0x80000000 then signed (ofBytes bytes + noLine) else .ok noLine

def line (t : LineTable) (code : Code) (i : Nat) : Option UInt32 :=
  match t.distance i with
  | .error _ => none
  | .ok distance =>
    let line := code.firstLine.toNat + distance
    if distance ≠ noLine ∧ 0 ≤ line ∧ line < UInt32.size then some (UInt32.ofNat line.toNat) else none

/-! ## Filling -/

/-- Bytes of an entry for the largest line distance `d`. -/
def entryFor (d : Int) : Nat :=
  if d < 0x100 + noLine then 2 else if d < 0x10000 + noLine then 3 else if d < 0x1000000 + noLine then 4 else 5

/-- The largest distance of a traceable line, at least one. -/
def span (code : Code) : Int :=
  ((code.offsetsFrom code.firstTraceable).filterMap code.line).foldl
    (fun d line => max d ((line.toNat : Int) - code.firstLine.toNat)) 1

def blank (code : Code) : LineTable where
  entry := entryFor (span code)
  bytes := Array.replicate (code.size * entryFor (span code)) 0

/-- Offsets of the instructions that start a line because their line changes; `current` is the line before them. -/
def lineChanges (code : Code) : (offsets : List Nat) → (current : Option UInt32) → List Nat
  | [], _ => []
  | i :: rest, current =>
    if i < code.firstTraceable || (code.opcodeAt i).neverStartsLine then lineChanges code rest current
    else
      let line := code.line i
      if line.isSome && line != current then i :: lineChanges code rest line else lineChanges code rest line

/-- Traceable jumps, whose targets start lines even when the line repeats. -/
def jumpTargets (code : Code) : List Nat :=
  ((code.offsetsFrom code.firstTraceable).filterMap code.jumpTarget).filter fun t =>
    decide (t < code.size) && code.opcodeAt t != .popIter

/-- Handlers that start lines. -/
def handlerTargets (code : Code) : List Nat :=
  (code.handlers.map (·.target)).filter fun t => decide (t < code.size) && code.opcodeAt t != .endAsyncFor

/-- What a table keeps and marks: the line of each instruction first, then the line starts. -/
def edits (code : Code) : List LineEdit :=
  (code.offsetsFrom 0).map (fun i => .keep i (distanceFor code (code.line i))) ++
    ((lineChanges code (code.offsetsFrom 0) none).map .mark ++
      (jumpTargets code ++ handlerTargets code).map .markLined)

def apply (code : Code) (t : LineTable) : LineEdit → Except LineFault LineTable
  | .keep i distance => t.keep i distance
  | .mark i => t.mark code i
  | .markLined i => do if (← t.distance i) = noLine then return t else t.mark code i

/-- The table of a code object, or what stops it. -/
def fill (code : Code) : Except LineFault LineTable := (edits code).foldlM (apply code) (blank code)

/-- The table of a code object, if it can be filled. -/
def build (code : Code) : Option LineTable := (fill code).toOption

end LineTable
end MonitoredVm
