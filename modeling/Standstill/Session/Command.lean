import Standstill.Call

/-!
What the actors of a session can be told to do, and what they report.
-/
namespace Standstill.Session

/-- A thread as a command names it. -/
inductive Who
  | handle (h : Handle)
  | main
  | self
  deriving DecidableEq, Repr

/-- How the record of a thread is shown. -/
inductive View
  /-- The answer of the inquiry itself. -/
  | plain (q : Inquiry)
  | lookup
  | debug
  deriving DecidableEq, Repr

inductive PoolKind
  | mutex
  | cond
  deriving DecidableEq, Repr

/-- A command that concerns one service. Times are in milliseconds unless they say otherwise. -/
inductive Request
  /-- An argument is missing or of the wrong kind. -/
  | malformed (field : String)
  | dropService
  | settings
  | mechanism
  | mainHandle
  | currentHandle
  | spawn (actor : String) (options : SpawnOptions)
  | attach (name : String)
  | detach
  | sleep (ms : Nat)
  | shortSleep (micros : Nat)
  | yield
  | awaitExit (ms : Option Nat)
  | inquire (who : Who) (view : View)
  | forEach
  | snapshot
  | counts
  | census
  | stats
  | contention
  | suspend (who : Who)
  | resume (who : Who)
  | suspendAll
  | resumeAll
  | awaitSuspended (ms : Nat)
  | stopTheWorld (ms : Nat)
  | safePoint
  | disableSuspend
  | enableSuspend
  | disableSuspendFast
  | enableSuspendFast
  | mutex (a : Access) (c : MutexCall)
  | cond (a : Access) (c : CondCall)
  | condWait (cond mutex : Nat) (ms : Option Nat)
  | waitUnlock (cond mutex : Nat)
  | slotName (k : PoolKind) (i : Nat)
  | pools
  | sideRegister (who : Who)
  | sideLookup (who : Who)
  | sideRemove (who : Who)
  | sideInfo
  deriving DecidableEq, Repr

inductive Command
  | establish (settings : Settings)
  | exit
  | panic
  | polling (on : Bool)
  | signalBlocked
  | releaseAll
  /-- Drops the guard over a stopped world that the actor got last. -/
  | endStop
  | on (s : ServiceId) (r : Request)
  deriving DecidableEq, Repr

/-- A line of the script. -/
inductive Line
  | pause (ms : Nat)
  | order (actor : String) (c : Command) (async : Bool)
  deriving DecidableEq, Repr

/-- What a command that has come to its end reports. -/
inductive Report
  | value (v : Value)
  | settings (x : Settings)
  | mechanism (m : Mechanism)
  | handle? (h : Option Handle)
  | counts (c : Census)
  | rows (rs : List ThreadRecord)
  | view (r : Option (ThreadRecord × Bool))
  | text? (t : Option String)
  | pools (mutexes conds : Nat × Nat)
  | side (rs : List ThreadRecord)
  | both (first second : Outcome)
  deriving DecidableEq, Repr

inductive Result
  | done (r : Report)
  | fault (f : Fault)
  | unusable (f : SettingsFault)
  | panicked
  /-- The command itself cannot be understood: the word says what is wrong. -/
  | badInput (word : String)
  deriving DecidableEq, Repr

inductive Reply
  | result (r : Result)
  | pending
  | exited
  | busy
  | parked
  | gone
  | noActor
  | smallStack
  deriving DecidableEq, Repr

/-- Counts and rows of one service as a bystander sees them. -/
structure Sight where
  census : Census
  rows : List ThreadRecord
  deriving DecidableEq, Repr

/-- What is written down for one line of the script. -/
structure Entry where
  reply : Reply
  /-- Earlier commands of other actors that have come to their end. -/
  finished : List (String × Reply) := []
  /-- One per service, in the order of their making; `none` once dropped. -/
  sights : List (Option Sight) := []
  deriving DecidableEq, Repr

end Standstill.Session
