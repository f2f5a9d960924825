import Reckon.Fault

/-! The calls under way and the bound on their number. -/

namespace Reckon

structure Call where
  name : String
  location : Location
deriving DecidableEq, Repr

namespace Call

def note (call : Call) : Note := .inCall call.name call.location.position

end Call

/-- The calls under way, the latest first, and how many there may be at a time. -/
structure Calls where
  active : List Call
  limit? : Option Nat
deriving DecidableEq, Repr

namespace Calls

def start (limit? : Option Nat) : Calls := ⟨[], limit?⟩

def depth (calls : Calls) : Nat := calls.active.length

def isEmpty (calls : Calls) : Bool := calls.active.isEmpty

def push (calls : Calls) (call : Call) : Except Fault Calls :=
  match calls.limit? with
  | some limit =>
      if limit ≤ calls.depth then
        .error ((Fault.of (.recursionLimit call.name limit)).locate call.location)
      else .ok { calls with active := call :: calls.active }
  | none => .ok { calls with active := call :: calls.active }

def pop (calls : Calls) : Calls := { calls with active := calls.active.tail }

def latest? (calls : Calls) : Option Call := calls.active.head?

end Calls

end Reckon
