import Standstill.Label
import Standstill.Settings

/-!
The control record of a thread: what its owner, the roster and a suspending thread share.
-/
namespace Standstill

/-- A handle is a number taken from one counter for all services; zero is never taken. -/
abbrev Handle := Nat

/-- A native thread. -/
abbrev ThreadId := Nat

abbrev ServiceId := Nat
abbrev RecordId := Nat
abbrev MutexRef := Nat
abbrev CondRef := Nat

/-- What a thread is doing. -/
inductive Phase
  | creating
  | started
  | running
  | waiting
  | timedWaiting
  | blocked
  | suspended
  deriving DecidableEq, Repr

/-- How strongly a thread refuses to be stopped at present. -/
inductive Level
  /-- It can be stopped at any instruction. -/
  | noBlock
  /-- It may sleep; the stop signal is masked. -/
  | blocking
  /-- It is in a short section; the stop signal is not masked, only ignored. -/
  | critical
  deriving DecidableEq, Repr

def Phase.name : Phase → String
  | .creating => "Creating"
  | .started => "Started"
  | .running => "Running"
  | .waiting => "Waiting"
  | .timedWaiting => "TimedWaiting"
  | .blocked => "Blocked"
  | .suspended => "Suspended"

def Level.name : Level → String
  | .noBlock => "NoBlock"
  | .blocking => "Blocking"
  | .critical => "Critical"

/-- The part of a thread's stack in use, as far as anyone looks at it. -/
inductive StackTop
  | unset
  /-- The address noted when the thread was bound. -/
  | base
  /-- An address noted when the thread parked. -/
  | parked
  deriving DecidableEq, Repr

structure ThreadRecord where
  handle : Handle
  service : ServiceId
  name : String
  priority : Int
  stackSize : Nat
  daemon : Bool
  phase : Phase := .creating
  level : Level := .noBlock
  /-- Somebody wants the owner to stop. -/
  requested : Bool := false
  /-- How often the owner has parked. -/
  epoch : Nat := 0
  stackTop : StackTop := .unset
  baseSet : Bool := false
  started : Bool := false
  /-- The native thread that the record is bound to. -/
  owner : Option ThreadId := none
  deriving DecidableEq, Repr

namespace ThreadRecord

/-- The owner has to stop now. -/
def shouldPark (r : ThreadRecord) : Bool := r.requested && r.level == .noBlock

/-- The owner has to stop now and has not yet done so. -/
def isUnsettled (r : ThreadRecord) : Bool := r.shouldPark && r.phase != .suspended

/-- A new record stores the clamped name. -/
def create (handle : Handle) (service : ServiceId) (name : String) (priority : Int)
    (stackSize : Nat) (daemon : Bool) : ThreadRecord :=
  { handle, service, name := Label.clamp name, priority, stackSize, daemon }

/-- Binds the record to native thread `t` and notes where its stack begins. -/
def bindTo (r : ThreadRecord) (t : ThreadId) : ThreadRecord :=
  { r with owner := some t, baseSet := true, stackTop := .base }

end ThreadRecord

end Standstill
