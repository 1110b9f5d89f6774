/-!
Why an operation of the thread service is refused, and the wording of each cause.
-/
namespace Standstill

/-- What is wrong with an argument. -/
inductive BadArgument
  | priority
  | stackSize
  | nativeThread
  | slotIndex
  | shortSleep
  deriving DecidableEq, Repr

def BadArgument.text : BadArgument → String
  | .priority => "priority outside 1..=10"
  | .stackSize => "stack size below MIN_STACK_SIZE"
  | .nativeThread => "native thread creation failed"
  | .slotIndex => "unallocated pool index"
  | .shortSleep => "usleep takes 1..1_000_000 microseconds"

/-- The cause of a refused operation. -/
inductive Fault
  /-- No thread is registered under the handle. -/
  | unknownHandle
  /-- Every one of the `capacity` places is taken. -/
  | exhausted (capacity : Nat)
  | busy
  | timeout
  | badArgument (what : BadArgument)
  /-- The system does not take the priority. -/
  | unsupported
  /-- The caller holds the mutex it asks for. -/
  | wouldDeadlock
  /-- The caller does not own what it wants to give up. -/
  | notOwner
  deriving DecidableEq, Repr

def Fault.message : Fault → String
  | .unknownHandle => "unknown thread or pool handle"
  | .exhausted capacity => s!"pool capacity of {capacity} exhausted"
  | .busy => "resource is busy"
  | .timeout => "wait timed out"
  | .badArgument what => "invalid argument: " ++ what.text
  | .unsupported => "unsupported on this platform: OS refused the priority change"
  | .wouldDeadlock => "mutex is already held by the calling thread"
  | .notOwner => "caller does not own the resource"

end Standstill
