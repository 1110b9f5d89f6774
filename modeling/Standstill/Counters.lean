/-!
Counters of the suspension protocol and of the pools. They are words of 64 bits and wrap.
-/
namespace Standstill

/-- A length of time. -/
structure Span where
  seconds : Nat
  nanoseconds : Nat
  deriving DecidableEq, Repr

/-- Whole microseconds, the lowest 64 bits of their number. -/
def Span.microseconds (d : Span) : UInt64 :=
  UInt64.ofNat (d.seconds * 1000000 + d.nanoseconds / 1000)

def Span.ofMicroseconds (n : Nat) : Span := ⟨n / 1000000, n % 1000000 * 1000⟩

structure Counters where
  suspendRequests : UInt64 := 0
  resumeRequests : UInt64 := 0
  suspendAllCount : UInt64 := 0
  suspendWaitMicros : UInt64 := 0
  contentionCount : UInt64 := 0
  contentionMicros : UInt64 := 0
  deriving DecidableEq, Repr

namespace Counters

def countSuspend (c : Counters) : Counters := { c with suspendRequests := c.suspendRequests + 1 }

def countResume (c : Counters) : Counters := { c with resumeRequests := c.resumeRequests + 1 }

def countSuspendAll (c : Counters) : Counters :=
  { c with suspendAllCount := c.suspendAllCount + 1 }

/-- Time that a suspending thread has waited for its target to park. -/
def addSuspendWait (c : Counters) (d : Span) : Counters :=
  { c with suspendWaitMicros := c.suspendWaitMicros + d.microseconds }

/-- One more thread had to wait for a pool mutex, and for how long. -/
def addContention (c : Counters) (d : Span) : Counters :=
  { c with
    contentionCount := c.contentionCount + 1
    contentionMicros := c.contentionMicros + d.microseconds }

end Counters

/-- Something that is counted. -/
inductive Tally
  | suspendRequest
  | resumeRequest
  | suspendAll
  | suspendWait (d : Span)
  | contention (d : Span)
  deriving DecidableEq, Repr

def Counters.add (c : Counters) : Tally → Counters
  | .suspendRequest => c.countSuspend
  | .resumeRequest => c.countResume
  | .suspendAll => c.countSuspendAll
  | .suspendWait d => c.addSuspendWait d
  | .contention d => c.addContention d

end Standstill
