import MonitoredVm.Machine.Error
import MonitoredVm.Portable.Encoding

/-!
# Snapshots

What crosses between interpreters: the portable form of a value, encoded one way or another, a buffer on a
lease from its owner, or a compiled script. A call is packed as up to three snapshots.
-/

namespace MonitoredVm

inductive Snapshot.Content where
  | binary (p : Portable)
  | json (p : Portable)
  | buffer (bytes : List UInt8) (lease : Lease)
  | script (s : Script)
  deriving Repr, Inhabited

/-- A snapshot with the interpreter it was taken in. -/
structure Snapshot where
  source : Int
  content : Snapshot.Content
  deriving Repr, Inhabited

namespace Snapshot

def isBuffer (s : Snapshot) : Bool :=
  match s.content with
  | .buffer _ _ => true
  | _ => false

def leases (s : Snapshot) : List Lease :=
  match s.content with
  | .buffer _ lease => [lease]
  | _ => []

/-- The leases that named snapshots stand on, in order. -/
def leasesAll (named : List (String × Snapshot)) : List Lease := named.flatMap fun s => s.2.leases

def encoding (s : Snapshot) : String :=
  match s.content with
  | .binary p => "marshal(" ++ toString p.datum.binary.length ++ " bytes)"
  | .json p => "pickle(" ++ toString (Datum.byteSize p.datum.json) ++ " bytes)"
  | .buffer bytes lease => "buffer(" ++ toString bytes.length ++ " bytes, owner " ++ toString lease.owner ++ ")"
  | .script s => "script(" ++ toString s.datum.binary.length ++ " bytes)"

def describe (s : Snapshot) : String :=
  "XiData \x7b source: " ++ toString s.source ++ ", repr: \"" ++ s.encoding ++ "\" \x7d"

/-- The value it stands for, where the host knows the functions that `knows` tells. -/
def toValue (knows : String → Bool) (s : Snapshot) : Except CrossError Value :=
  match s.content with
  | .binary p => (p.toValue knows).mapError CrossError.unknownNative
  | .json p =>
    match p.throughJson with
    | .error fault => .error (.other ("cross-interpreter data encoding failed: " ++ fault.message))
    | .ok p => (p.toValue knows).mapError CrossError.unknownNative
  | .buffer bytes lease => .ok (.buffer bytes (some lease))
  | .script _ => .error (.other "script data is not a value")

def toScript (s : Snapshot) : Except CrossError Script :=
  match s.content with
  | .script script => .ok script
  | _ => .error (.other "data is not a script")

end Snapshot

/-- A call packed for another interpreter. Arguments that are not there are not packed. -/
structure PendingCall where
  func : Option Snapshot := none
  args : Option Snapshot := none
  kwargs : Option Snapshot := none
  deriving Repr, Inhabited

namespace PendingCall

def isPacked (c : PendingCall) : Bool := c.func.isSome

def leases (c : PendingCall) : List Lease := [c.func, c.args, c.kwargs].flatMap fun s => (s.map Snapshot.leases).getD []

def describe (c : PendingCall) : String :=
  let part (s : Option Snapshot) : String := match s with
    | some s => "Some(" ++ s.describe ++ ")"
    | none => "None"
  "PendingCall \x7b func: " ++ part c.func ++ ", args: " ++ part c.args ++ ", kwargs: " ++ part c.kwargs ++ " \x7d"

/-- A part that cannot be shared is reported by its name. -/
def blame (part : String) (e : CrossError) : CrossError :=
  if e.code = .notShareable then
    { CrossError.notShareable (part ++ " not shareable") with cause := some e.exception }
  else e

/-- The keyword arguments of a dict with string keys. -/
def keywords : List (Value × Value) → Namespace → Except CrossError Namespace
  | [], ns => .ok ns
  | (.str key, v) :: rest, ns => keywords rest (ns.insert key v)
  | _, _ => .error (.notShareable "kwargs not shareable")

/-- Unpacks the call: callee, arguments and keyword arguments. The parts read before a failure are gone. -/
def unpack (knows : String → Bool) (c : PendingCall) :
    PendingCall × Except CrossError (Value × List Value × Namespace) :=
  match c.func with
  | none => (c, .error (.other "no call pending"))
  | some func =>
    let c := { c with func := none }
    match func.toValue knows with
    | .error e => (c, .error (blame "func" e))
    | .ok callee =>
      if !callee.isFunction then (c, .error (.notShareable "func not shareable")) else
      let args : Except CrossError (List Value) := match c.args with
        | none => .ok []
        | some s => match s.toValue knows with
          | .error e => .error (blame "args" e)
          | .ok (.tuple items) => .ok items
          | .ok _ => .error (.notShareable "args not shareable")
      let c := { c with args := none }
      match args with
      | .error e => (c, .error e)
      | .ok args =>
        let kwargs : Except CrossError Namespace := match c.kwargs with
          | none => .ok {}
          | some s => match s.toValue knows with
            | .error e => .error (blame "kwargs" e)
            | .ok (.dict items) => keywords items {}
            | .ok _ => .error (.notShareable "kwargs not shareable")
        ({ c with kwargs := none }, kwargs.map fun kwargs => (callee, args, kwargs))

end PendingCall
end MonitoredVm
