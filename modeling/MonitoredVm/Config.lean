import MonitoredVm.Json.Scan
import MonitoredVm.Value.Text

/-!
# Interpreter configuration

Six flags and the way an interpreter shares the lock. A configuration is built from a named preset, from an
attribute mapping or from JSON, and can be changed by a mapping that names only some of the fields.
-/

namespace MonitoredVm

/-- How an interpreter shares the global lock. -/
inductive Gil where
  | default
  | shared
  | own
  deriving DecidableEq, Repr, Inhabited

namespace Gil

def name : Gil → String
  | .default => "default"
  | .shared => "shared"
  | .own => "own"

def all : List Gil := [.default, .shared, .own]

def ofName? (s : String) : Option Gil := all.find? (·.name == s)

end Gil

inductive Flag where
  | useMainObmalloc
  | allowFork
  | allowExec
  | allowThreads
  | allowDaemonThreads
  | checkMultiInterpExtensions
  deriving DecidableEq, Repr, Inhabited

namespace Flag

/-- The flags, in the order of an attribute mapping. -/
def all : List Flag :=
  [.useMainObmalloc, .allowFork, .allowExec, .allowThreads, .allowDaemonThreads, .checkMultiInterpExtensions]

def name : Flag → String
  | .useMainObmalloc => "use_main_obmalloc"
  | .allowFork => "allow_fork"
  | .allowExec => "allow_exec"
  | .allowThreads => "allow_threads"
  | .allowDaemonThreads => "allow_daemon_threads"
  | .checkMultiInterpExtensions => "check_multi_interp_extensions"

def ofName? (s : String) : Option Flag := all.find? (·.name == s)

end Flag

/-- The isolation settings of an interpreter. -/
structure Config where
  useMainObmalloc : Bool
  allowFork : Bool
  allowExec : Bool
  allowThreads : Bool
  allowDaemonThreads : Bool
  checkMultiInterpExtensions : Bool
  gil : Gil
  deriving DecidableEq, Repr, Inhabited

/-- Why a configuration cannot be built or used. -/
inductive ConfigError where
  | unsupportedName (name : String)
  | unsupportedGil (name : String)
  | missing (key : String)
  | invalidType (key : String)
  /-- Keys that name no field. -/
  | extraItems (count : Nat) (keys : List String)
  /-- Own storage rules out modules that initialise in one phase. -/
  | singlePhase
  /-- An own lock needs own storage. -/
  | ownLock
  deriving DecidableEq, Repr, Inhabited

namespace ConfigError

def message : ConfigError → String
  | .unsupportedName name => "unsupported config name '" ++ name ++ "'"
  | .unsupportedGil name => "unsupported interpreter config .gil value '" ++ name ++ "'"
  | .missing key => "missing config key: " ++ key
  | .invalidType key => "invalid config type: " ++ key
  | .extraItems count keys =>
    "config dict has " ++ toString count ++ (if count = 1 then " extra item (" else " extra items (") ++
      ", ".intercalate (keys.map fun key => (Value.str key).repr) ++ ")"
  | .singlePhase => "per-interpreter obmalloc does not support single-phase init extension modules"
  | .ownLock => "per-interpreter GIL requires per-interpreter obmalloc"

/-- The kinds that callers tell apart. -/
def kind : ConfigError → String
  | .unsupportedName _ => "UnsupportedName"
  | .unsupportedGil _ => "UnsupportedGil"
  | .missing _ => "Missing"
  | .invalidType _ => "InvalidType"
  | .extraItems _ _ => "ExtraItems"
  | .singlePhase | .ownLock => "Unsupported"

def exception (e : ConfigError) : Exception :=
  let type : ExcType := match e with
    | .invalidType _ => .typeError
    | .singlePhase | .ownLock => .interpreterError
    | _ => .valueError
  .new type e.message

end ConfigError

namespace Config

/-- Own storage, own lock, no fork or exec. -/
def isolated : Config := ⟨false, false, false, true, false, true, .own⟩

/-- Shares everything with the main interpreter. -/
def legacy : Config := ⟨true, true, true, true, true, false, .shared⟩

def empty : Config := ⟨false, false, false, false, false, false, .default⟩

def named (name : Option String) : Except ConfigError Config :=
  match name.getD "isolated" with
  | "" | "default" | "isolated" => .ok isolated
  | "legacy" => .ok legacy
  | "empty" => .ok empty
  | other => .error (.unsupportedName other)

def get (c : Config) : Flag → Bool
  | .useMainObmalloc => c.useMainObmalloc
  | .allowFork => c.allowFork
  | .allowExec => c.allowExec
  | .allowThreads => c.allowThreads
  | .allowDaemonThreads => c.allowDaemonThreads
  | .checkMultiInterpExtensions => c.checkMultiInterpExtensions

def set (c : Config) (flag : Flag) (b : Bool) : Config :=
  match flag with
  | .useMainObmalloc => { c with useMainObmalloc := b }
  | .allowFork => { c with allowFork := b }
  | .allowExec => { c with allowExec := b }
  | .allowThreads => { c with allowThreads := b }
  | .allowDaemonThreads => { c with allowDaemonThreads := b }
  | .checkMultiInterpExtensions => { c with checkMultiInterpExtensions := b }

/-- A configuration in the course of a change, with the number of keys that have been used for it. -/
structure Applied where
  config : Config
  used : Nat := 0
  deriving DecidableEq, Repr, Inhabited

def applyFlag (attrs : Namespace) (partly : Bool) (a : Applied) (flag : Flag) : Except ConfigError Applied :=
  match attrs.get? flag.name with
  | some (.bool b) => .ok ⟨a.config.set flag b, a.used + 1⟩
  | some _ => .error (.invalidType flag.name)
  | none => if partly then .ok a else .error (.missing flag.name)

def applyGil (attrs : Namespace) (partly : Bool) (a : Applied) : Except ConfigError Applied :=
  match attrs.get? "gil" with
  | some (.str s) =>
    match Gil.ofName? s with
    | some gil => .ok ⟨{ a.config with gil }, a.used + 1⟩
    | none => .error (.unsupportedGil s)
  | some _ => .error (.invalidType "gil")
  | none => if partly then .ok a else .error (.missing "gil")

def isField (key : String) : Bool := key == "gil" || (Flag.ofName? key).isSome

/-- A copy with the values that a mapping has for the fields, which must be all of them unless `partly`. -/
def readAttrs (c : Config) (attrs : Namespace) (partly : Bool) : Except ConfigError Applied := do
  applyGil attrs partly (← Flag.all.foldlM (applyFlag attrs partly) { config := c })

/-- A change of a configuration in place, which may be refused. -/
abbrev Change := ExceptT ConfigError (StateM Config)

/-- The answer to a change, and the configuration after it. -/
def Change.on (change : Change Unit) (c : Config) : Except ConfigError Unit × Config := change.run.run c

/-- Sets the fields that a mapping names. A key that names no field shows in the number of keys. -/
def applyAttrs (attrs : Namespace) (partly : Bool) : Change Unit := do
  let a ← liftM ((← getThe Config).readAttrs attrs partly)
  if a.used < attrs.size then
    throw (.extraItems (attrs.size - a.used) (attrs.names.filter fun key => !isField key))
  MonadState.set a.config

def Change.result (change : Change Unit) (c : Config) : Except ConfigError Config :=
  match change.on c with
  | (.ok (), c) => .ok c
  | (.error e, _) => .error e

def update (c : Config) (attrs : Namespace) : Except ConfigError Config := (applyAttrs attrs true).result c

def ofAttrs (attrs : Namespace) : Except ConfigError Config := (applyAttrs attrs false).result empty

def preset (name : Option String) (overrides : Namespace) : Except ConfigError Config := do
  (← named name).update overrides

def attrs (c : Config) : Namespace :=
  Bindings.ofList (Flag.all.map (fun flag => (flag.name, .bool (c.get flag))) ++ [("gil", .str c.gil.name)])

/-- An interpreter can be created with these settings. -/
def validate (c : Config) : Except ConfigError Unit :=
  if !c.useMainObmalloc && !c.checkMultiInterpExtensions then .error .singlePhase
  else if c.gil = .own ∧ c.useMainObmalloc then .error .ownLock
  else .ok ()

def json (c : Config) : String :=
  let flags := Flag.all.map fun flag => "  \"" ++ flag.name ++ "\": " ++ (if c.get flag then "true" else "false")
  "\x7b\n" ++ ",\n".intercalate (flags ++ ["  \"gil\": \"" ++ c.gil.name ++ "\""]) ++ "\n\x7d"

/-- A configuration being read: the fields met so far. -/
structure Draft where
  flags : List (Flag × Bool) := []
  gil : Option Gil := none
  deriving Repr, Inhabited

def Draft.flag? (d : Draft) (flag : Flag) : Option Bool := d.flags.lookup flag

/-- The finished configuration, if no field is missing. -/
def Draft.finish (d : Draft) : Except Json.Problem Config := do
  let c ← Flag.all.foldlM (fun (c : Config) flag => ((d.flag? flag).map (c.set flag)).elim (.error .mismatch) .ok) empty
  match d.gil with
  | some gil => return { c with gil }
  | none => throw .mismatch

/-- The lock mode of a name given in bytes. -/
def gilOfBytes (name : List UInt8) : Option Gil := Gil.all.find? fun g => g.name.toUTF8.toList == name

def readGil (text : List UInt8) : Except Json.Problem (Gil × List UInt8) := Json.oneOf gilOfBytes text

/-- Reads the value of a field; a field may come once, unknown ones are skipped. -/
def readField (d : Draft) (key : List UInt8) (text : List UInt8) : Except Json.Problem (Draft × List UInt8) := do
  match Flag.all.find? fun flag => flag.name.toUTF8.toList == key with
  | some flag =>
    if (d.flag? flag).isSome then throw .mismatch
    let (b, text) ← Json.bool (← Json.colon text)
    return ({ d with flags := (flag, b) :: d.flags }, text)
  | none =>
    if key == "gil".toUTF8.toList then
      if d.gil.isSome then throw .mismatch
      let (gil, text) ← readGil (← Json.colon text)
      return ({ d with gil := some gil }, text)
    else return (d, ← Json.skipValue (← Json.colon text))

/-- Reads the fields of an object, at most `count` of them. -/
def readFields : (count : Nat) → Draft → (first : Bool) → List UInt8 → Except Json.Problem (Config × List UInt8)
  | 0, _, _, _ => .error .truncated
  | count + 1, d, first, text => do
    match ← Json.nextKey first text with
    | none =>
      let c ← d.finish
      return (c, ← Json.endObject text)
    | some text =>
      let (key, text) ← Json.string text
      let (d, text) ← readField d key text
      readFields count d false text

/-- Reads the flags still due from a list, then the lock mode. -/
def readItems (c : Config) (first : Bool) : List Flag → List UInt8 → Except Json.Problem (Config × List UInt8)
  | [], text => do
    match ← Json.nextItem first text with
    | none => throw .mismatch
    | some text =>
      let (gil, text) ← readGil text
      return ({ c with gil }, text)
  | flag :: flags, text => do
    match ← Json.nextItem first text with
    | none => throw .mismatch
    | some text =>
      let (b, text) ← Json.bool text
      readItems (c.set flag b) false flags text

/-- Reads a configuration from JSON text: an object of its fields, or a list of them in order. -/
def ofJson (source : String) : Except Json.Problem Config := do
  let text := source.toUTF8.toList
  match Json.skipSpace text with
  | [] => throw .truncated
  | b :: rest =>
    if b = 123 then
      let (c, rest) ← readFields (rest.length + 1) {} true rest
      Json.endText rest
      return c
    else if b = 91 then
      let (c, rest) ← readItems empty true Flag.all rest
      let rest ← Json.endList rest
      Json.endText rest
      return c
    else throw (Json.wrongKind (b :: rest))

end Config

inductive ConfigSource where
  | preset (name : Option String) (overrides : Namespace)
  | attrs (attrs : Namespace)
  | json (text : String)
  deriving Repr, Inhabited

inductive ConfigFault where
  | refused (e : ConfigError)
  | unreadable (p : Json.Problem)
  deriving DecidableEq, Repr, Inhabited

def ConfigSource.values : ConfigSource → List Value
  | .preset _ overrides => overrides.values
  | .attrs pairs => pairs.values
  | .json _ => []

def ConfigSource.build : ConfigSource → Except ConfigFault Config
  | .preset name overrides => (Config.preset name overrides).mapError .refused
  | .attrs pairs => (Config.ofAttrs pairs).mapError .refused
  | .json text => (Config.ofJson text).mapError .unreadable

end MonitoredVm
