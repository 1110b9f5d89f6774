import Standstill.PoolCondition
import Standstill.PoolLock
import Standstill.Roster
import Standstill.Stats

/-!
What a thread has still to do, cut into single accesses to what threads share. Each instruction is
one atomic step; a critical section lies between `acquire` and `release` of its lock.
-/
namespace Standstill

/-- A lock that is held for a critical section only. -/
inductive Lock
  | roster (s : ServiceId)
  | mutexTable (s : ServiceId)
  | condTable (s : ServiceId)
  | mutexState (m : MutexRef)
  | condState (c : CondRef)
  | name (r : RecordId)
  | park (r : RecordId)
  deriving DecidableEq, Repr

/-- A queue of sleeping threads, first come first. -/
inductive WaitList
  | roster (s : ServiceId)
  | mutex (m : MutexRef)
  | cond (c : CondRef)
  | park (r : RecordId)
  deriving DecidableEq, Repr

/-- Locks, queues and time. Times are in microseconds. -/
inductive SyncInstr
  | acquire (l : Lock)
  | release (l : Lock)
  /-- Gives up the lock and joins the queue in one step. -/
  | wait (q : WaitList) (l : Lock) (deadline : Option Nat)
  /-- Sleeps until it is taken out of the queue. -/
  | resting (q : WaitList) (deadline : Option Nat)
  | notifyOne (q : WaitList)
  | notifyAll (q : WaitList)
  | doze (micros : Nat)
  | dozing (deadline : Nat)
  deriving DecidableEq, Repr

/-- The caller's own level, phase and signal mask. -/
inductive GuardInstr
  /-- Opens a guard of the given level; for a thread not attached to the service it is empty. -/
  | raise (s : ServiceId) (level : Level)
  /-- Closes the innermost guard and stops if a request came meanwhile. -/
  | lower (s : ServiceId)
  | mask (s : ServiceId)
  | unmask (s : ServiceId)
  | setMask (masked : Bool)
  /-- Notes the phase to come back to. -/
  | enter (s : ServiceId) (phase : Phase)
  | setPhase (r : RecordId) (phase : Phase)
  /-- Comes back to the phase noted last. -/
  | leave
  | disable (s : ServiceId)
  | enable (s : ServiceId)
  | disableFast (s : ServiceId)
  | enableFast (s : ServiceId)
  deriving DecidableEq, Repr

/-- What is read before a thread decides to park. -/
inductive Test
  | request
  | level
  | phase
  deriving DecidableEq, Repr

/-- How a thread gets into its park loop. -/
inductive Entry
  /-- From the handler of the stop signal, which runs with the signal blocked. -/
  | handler
  /-- From a call on a service that stops its threads in this way. -/
  | call (how : Mechanism)
  deriving DecidableEq, Repr

/-- A thread in its park loop: what it sleeps on, whose request it obeys, the phase to restore. -/
structure Parking where
  sleep : Mechanism
  record : RecordId
  previous : Phase
  deriving DecidableEq, Repr

inductive ParkInstr
  /-- Parks if all tests pass, read one after the other. -/
  | check (tests : List Test) (entry : Entry) (r : RecordId)
  | save (sleep : Mechanism) (r : RecordId)
  | spill (p : Parking)
  | mark (p : Parking)
  | count (p : Parking)
  | testRequest (p : Parking)
  | testLevel (p : Parking)
  /-- The request read once more under the park lock, before sleeping there. -/
  | retestRequest (r : RecordId)
  | retestLevel (r : RecordId)
  /-- Unblocks the stop signal and sleeps until it comes, in one step. -/
  | awaitSignal
  | restore (p : Parking)
  deriving DecidableEq, Repr

/-- A suspending thread that waits for its target to park. -/
structure Watch where
  service : ServiceId
  record : RecordId
  epoch : Nat
  since : Nat
  warned : Bool
  deriving DecidableEq, Repr

/-- Stopping threads and letting them go. -/
inductive StopInstr
  | countSuspend (s : ServiceId)
  | suspendFind (s : ServiceId) (h : Handle)
  | readEpoch (s : ServiceId) (r : RecordId)
  | request (s : ServiceId) (r : RecordId) (epoch : Nat)
  | readLevel (s : ServiceId) (r : RecordId) (epoch : Nat) (already : Bool)
  | deliver (s : ServiceId) (r : RecordId) (epoch : Nat) (already : Bool)
  | withdraw (r : RecordId)
  | watchStart (s : ServiceId) (r : RecordId) (epoch : Nat)
  | watchEpoch (w : Watch)
  | watchPhase (w : Watch)
  | watchRequest (w : Watch)
  | watchLevel (w : Watch)
  | watchClock (w : Watch)
  | watchEnd (w : Watch)
  | countResume (s : ServiceId)
  | resumeFind (s : ServiceId) (h : Handle)
  | resumeClear (s : ServiceId) (r : RecordId)
  | resumeLevel (s : ServiceId) (r : RecordId)
  | resumeWake (s : ServiceId) (r : RecordId)
  | resumePhase (r : RecordId)
  | resumeRequest (r : RecordId)
  | countSuspendAll (s : ServiceId)
  | haltOthers (s : ServiceId)
  | haltRequest (s : ServiceId) (r : RecordId)
  | haltLevel (s : ServiceId) (r : RecordId)
  | haltDeliver (s : ServiceId) (r : RecordId)
  | closeGate (s : ServiceId)
  | freeOthers (s : ServiceId)
  | freeClear (s : ServiceId) (r : RecordId)
  | freeLevel (s : ServiceId) (r : RecordId)
  | freeWake (s : ServiceId) (r : RecordId)
  | openGate (s : ServiceId)
  | settleStart (s : ServiceId) (micros : Nat)
  | settle (s : ServiceId) (deadline : Nat)
  | scan (s : ServiceId) (deadline : Nat)
  | scanRequest (s : ServiceId) (deadline : Nat) (rest : List RecordId) (settled : Bool)
  | scanLevel (s : ServiceId) (deadline : Nat) (r : RecordId) (rest : List RecordId)
      (settled : Bool)
  | scanPhase (s : ServiceId) (deadline : Nat) (r : RecordId) (rest : List RecordId)
      (settled : Bool)
  | verdict (s : ServiceId) (deadline : Nat) (settled : Bool)
  /-- Undoes a stop of the world that did not settle. -/
  | undoStop (s : ServiceId)
  deriving DecidableEq, Repr

/-- What is done with a mutex once it is found in the pool. -/
inductive MutexUse
  | lock
  | rawLock
  | tryLock
  | unlock
  | wait (c : CondRef) (micros : Option Nat)
  deriving DecidableEq, Repr

/-- What is done with a condition once it is found in the pool. -/
inductive CondUse
  | signal
  | broadcast
  | wait (mutex : Nat) (micros : Option Nat)
  deriving DecidableEq, Repr

/-- A thread that waits on a condition of the pool. -/
structure CondWait where
  service : ServiceId
  cond : CondRef
  mutex : MutexRef
  deadline : Option Nat
  deriving DecidableEq, Repr

inductive PoolInstr
  | mutexAllot (s : ServiceId) (name : String)
  | mutexFind (s : ServiceId) (i : Nat) (use : MutexUse)
  | tryTake (m : MutexRef)
  | take (s : ServiceId) (m : MutexRef)
  /-- The first look after a sleep: has the mutex been given up? -/
  | retake (s : ServiceId) (m : MutexRef) (since : Nat)
  | giveUp (m : MutexRef)
  | mutexDispose (s : ServiceId) (i : Nat)
  | mutexIdle (s : ServiceId) (i : Nat) (m : MutexRef)
  | mutexFree (s : ServiceId) (i : Nat)
  | condAllot (s : ServiceId) (name : String)
  | condFind (s : ServiceId) (i : Nat) (use : CondUse)
  | signal (c : CondRef)
  | broadcast (c : CondRef)
  | condDispose (s : ServiceId) (i : Nat)
  | condIdle (s : ServiceId) (i : Nat) (c : CondRef)
  | condFree (s : ServiceId) (i : Nat)
  | waitOwner (s : ServiceId) (c : CondRef) (m : MutexRef) (micros : Option Nat)
  | waitClock (s : ServiceId) (c : CondRef) (m : MutexRef) (micros : Option Nat)
  | waitRegister (w : CondWait)
  | waitGiveUp (w : CondWait) (ticket : Nat)
  | waitCheck (w : CondWait) (ticket : Nat)
  | waitRetire (w : CondWait)
  deriving DecidableEq, Repr

/-- What a new thread is to be. -/
structure SpawnOptions where
  name : String := "thread"
  /-- Zero stands for the size that the service is set up with. -/
  stackSize : Nat := 0
  priority : Int := normalPriority
  daemon : Bool := false
  deriving DecidableEq, Repr

/-- Services, and threads that join and leave them. -/
inductive MemberInstr
  | establish (settings : Settings)
  | publish (s : ServiceId) (r : RecordId)
  | bind (r : RecordId)
  | unbind (h : Handle)
  | attach (s : ServiceId) (name : String)
  | detach (s : ServiceId)
  | detachRaise (s : ServiceId) (r : RecordId)
  | detachRemove (s : ServiceId) (r : RecordId) (previous : Level)
  | clearRequest (r : RecordId)
  | setLevel (r : RecordId) (level : Level)
  | spawn (s : ServiceId) (options : SpawnOptions)
  | spawnRecord (s : ServiceId) (options : SpawnOptions) (stackSize : Nat)
  | spawnNative (s : ServiceId) (r : RecordId)
  | noThread (s : ServiceId)
  | spawnWait (s : ServiceId) (r : RecordId)
  | own (r : RecordId)
  | capture (r : RecordId)
  | gateEnter (s : ServiceId) (r : RecordId)
  | gateWait (s : ServiceId) (r : RecordId)
  | gatePass (s : ServiceId) (r : RecordId)
  | noteStarted (r : RecordId)
  /-- Reads the name of a thread that ended by a panic. -/
  | mourn (s : ServiceId) (r : RecordId)
  | exitRaise (s : ServiceId) (r : RecordId)
  | exitRemove (s : ServiceId) (r : RecordId)
  | awaitExit (s : ServiceId) (micros : Option Nat)
  | awaitExitCheck (s : ServiceId) (deadline : Option Nat)
  deriving DecidableEq, Repr

/-- What is asked of a thread found by its handle. -/
inductive Inquiry
  | phase
  | name
  | rename (name : String)
  | priority
  | setPriority (priority : Int)
  | isSuspendable
  | stack
  | record
  deriving DecidableEq, Repr

/-- Reading records and counts. -/
inductive ReadInstr
  | find (s : ServiceId) (h : Handle) (q : Inquiry)
  | phase (r : RecordId)
  | name (r : RecordId)
  | rename (r : RecordId) (name : String)
  | priority (r : RecordId)
  | setPriority (r : RecordId) (priority : Int)
  | isSuspendable (r : RecordId)
  | stack (r : RecordId)
  | record (r : RecordId)
  | all (s : ServiceId) (withNames : Bool)
  | row (r : RecordId)
  | census (s : ServiceId)
  | statsCensus (s : ServiceId)
  | statsMutexes (s : ServiceId)
  | statsConds (s : ServiceId)
  | statsCounters (s : ServiceId)
  deriving DecidableEq, Repr

inductive Instr
  /-- The thread is in code of its own, outside every call on a service. -/
  | user
  | sync (i : SyncInstr)
  | guard (i : GuardInstr)
  | park (i : ParkInstr)
  | stop (i : StopInstr)
  | pool (i : PoolInstr)
  | member (i : MemberInstr)
  | read (i : ReadInstr)
  deriving DecidableEq, Repr

/-- What a call answers. -/
inductive Value
  | unit
  | flag (b : Bool)
  | number (n : Nat)
  | integer (i : Int)
  | text (s : String)
  | handle (h : Handle)
  | phase (p : Phase)
  | stack (size : Nat) (baseSet topIsBase : Bool)
  | record (r : Option (RecordId × ThreadRecord))
  | records (rs : List ThreadRecord)
  | census (c : Census)
  | stats (s : Stats)
  | service (s : ServiceId) (main : Handle)
  deriving DecidableEq, Repr

inductive Outcome
  | value (v : Value)
  | fault (f : Fault)
  | panicked
  deriving DecidableEq, Repr

end Standstill
