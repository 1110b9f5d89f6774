/-!
The operating system, as far as it has a say in what becomes of a call. What it answers is its own
affair and can change at any time.
-/
namespace Standstill

/-- Why the system gives no native thread. -/
inductive SystemError
  | wouldBlock
  | outOfMemory
  | other
  deriving DecidableEq, Repr

/-- The system is short of something that it may have again later. -/
def SystemError.isShortage : SystemError → Bool
  | .wouldBlock | .outOfMemory => true
  | .other => false

/-- What the system answers when it is asked for a native thread. -/
inductive ThreadReply
  | granted
  | refused (e : SystemError)
  deriving DecidableEq, Repr

/-- What the system would answer at present. -/
structure System where
  thread : ThreadReply := .granted
  /-- It would accept a change of a thread's priority. -/
  takesPriority : Bool := true
  deriving DecidableEq, Repr

end Standstill
