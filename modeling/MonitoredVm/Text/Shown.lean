/-!
# Text without control sequences

What is left of a text once a terminal's control sequences and control characters are taken out. Blanks that
move the cursor (tab, line feed, form feed, return) stay, even in the middle of a sequence.

An escape character begins a sequence anywhere. Most sequences end with a letter or sign; strings of the
operating system end with a bell, other strings with the byte 9C, also where that is part of a character, and
all of them with the next escape character. After a blank inside a sequence the text shows again, and the
sequence goes on only at the next control character.
-/

namespace MonitoredVm.Text

/-- Where a reader stands in a control sequence. -/
inductive Reading where
  | ground
  | escape
  | escapeIntermediate
  /-- Inside a sequence with parameters. -/
  | parameters
  | deviceEntry
  | deviceParameters
  | deviceIntermediate
  /-- Inside a string that is not the operating system's. -/
  | string
  | systemString
  deriving DecidableEq, Repr, Inhabited

namespace Reading

/-- The code point lies in a range. -/
def within (c : Char) (low high : Nat) : Bool := decide (low ≤ c.toNat) && decide (c.toNat ≤ high)

/-- Where an escape sequence leads by its first character. -/
def afterEscape (c : Char) : Reading :=
  if c = '[' then .parameters
  else if c = ']' then .systemString
  else if c = 'P' then .deviceEntry
  else if c = 'X' ∨ c = '^' ∨ c = '_' then .string
  else if within c 0x20 0x2f then .escapeIntermediate
  else if within c 0x30 0x7e then .ground
  else .escape

/-- Where the reader stands after a character other than those that end or begin a sequence anywhere. -/
def advance (r : Reading) (c : Char) : Reading :=
  match r with
  | .ground => .ground
  | .escape => afterEscape c
  | .escapeIntermediate => if within c 0x30 0x7e then .ground else r
  | .parameters => if within c 0x40 0x7e then .ground else r
  | .deviceEntry =>
    if within c 0x40 0x7e then .string
    else if within c 0x30 0x3f then .deviceParameters
    else if within c 0x20 0x2f then .deviceIntermediate
    else r
  | .deviceParameters =>
    if within c 0x3c 0x7e then .string else if within c 0x20 0x2f then .deviceIntermediate else r
  | .deviceIntermediate => if within c 0x30 0x7e then .string else r
  | .string => if (String.utf8EncodeChar c).contains 0x9c then .ground else r
  | .systemString => if c = '\x07' then .ground else r

def next (r : Reading) (c : Char) : Reading :=
  if c = '\x1b' then .escape else if c = '\x18' ∨ c = '\x1a' then .ground else r.advance c

/-- Control characters that are blanks. -/
def isBlank (c : Char) : Bool := c == '\t' || c == '\n' || c == '\x0c' || c == '\r'

/-- The character shows at this place. -/
def shows (r : Reading) (c : Char) : Bool :=
  match r with
  | .ground => isBlank c || (decide (0x20 ≤ c.toNat) && c != '\x7f')
  | .escape | .escapeIntermediate | .parameters => isBlank c
  | _ => false

end Reading

/-- What shows of a text for a reader standing at `r`; `showing` while the last character showed, so that text goes
on until something does not show on the ground. -/
def shownFrom (r : Reading) (showing : Bool) : List Char → List Char
  | [] => []
  | c :: rest =>
    if showing then
      if Reading.ground.shows c then c :: shownFrom (if c.toNat < 0x80 then r else .ground) true rest
      else shownFrom (r.next c) false rest
    else if r.shows c then c :: shownFrom r true rest
    else shownFrom (r.next c) false rest

def shown (s : String) : String := String.ofList (shownFrom .ground false s.toList)

end MonitoredVm.Text
