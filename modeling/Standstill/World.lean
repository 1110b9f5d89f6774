import Standstill.Counters
import Standstill.Instr
import Standstill.Slots
import Standstill.System

/-!
All that the threads of a process share, with the threads themselves. Objects are found by number
and are never taken away, so a reference stays good when a pool slot is used again.
-/
namespace Standstill

/-- A scope that its thread has opened and not yet closed. -/
inductive Scope
  /-- A guard over `record`; `none` if the caller was not attached. -/
  | guard (record : Option RecordId) (level previous : Level)
  /-- A phase to come back to. -/
  | phase (record : Option RecordId) (previous : Phase)
  deriving DecidableEq, Repr

/-- A native thread. One that has nothing more to do, not even code of its own, has ended. -/
structure Thread where
  code : List Instr := [.user]
  scopes : List Scope := []
  /-- The record that stands for the thread at present. -/
  binding : Option RecordId := none
  /-- The stop signal is blocked. -/
  masked : Bool := false
  /-- A stop signal has been sent and not yet taken. -/
  pending : Bool := false
  outcome : Outcome := .value .unit
  deriving DecidableEq, Repr

structure Service where
  settings : Settings
  main : Handle
  roster : Roster := {}
  mutexes : Slots MutexRef
  conds : Slots CondRef
  counters : Counters := {}
  deriving DecidableEq, Repr

structure World where
  threads : List Thread
  records : List ThreadRecord := []
  services : List Service := []
  mutexes : List PoolLock := []
  conds : List PoolCondition := []
  /-- Who holds which lock. -/
  held : List (Lock × ThreadId) := []
  /-- Who sleeps in which queue, in the order in which they began to. -/
  asleep : List (WaitList × ThreadId) := []
  nextHandle : Handle := 1
  /-- Microseconds since the beginning. -/
  clock : Nat := 0
  system : System := {}
  deriving DecidableEq, Repr

namespace World

/-- A world of `n` threads and no service. -/
def initial (n : Nat) : World := { threads := List.replicate n {} }

def modThread (w : World) (t : ThreadId) (f : Thread → Thread) : World :=
  { w with threads := w.threads.modify t f }

def modRecord (w : World) (r : RecordId) (f : ThreadRecord → ThreadRecord) : World :=
  { w with records := w.records.modify r f }

def modService (w : World) (s : ServiceId) (f : Service → Service) : World :=
  { w with services := w.services.modify s f }

def modRoster (w : World) (s : ServiceId) (f : Roster → Roster) : World :=
  w.modService s fun v => { v with roster := f v.roster }

def modCensus (w : World) (s : ServiceId) (f : Census → Census) : World :=
  w.modRoster s fun g => { g with census := f g.census }

def modMutex (w : World) (m : MutexRef) (f : PoolLock → PoolLock) : World :=
  { w with mutexes := w.mutexes.modify m f }

def modCond (w : World) (c : CondRef) (f : PoolCondition → PoolCondition) : World :=
  { w with conds := w.conds.modify c f }

def count (w : World) (s : ServiceId) (x : Tally) : World :=
  w.modService s fun v => { v with counters := v.counters.add x }

/-- Sets what the call in progress will answer. -/
def say (w : World) (t : ThreadId) (o : Outcome) : World :=
  w.modThread t fun x => { x with outcome := o }

def fail (w : World) (t : ThreadId) (f : Fault) : World := w.say t (.fault f)

def answer (w : World) (t : ThreadId) (v : Value) : World := w.say t (.value v)

def mechanism (w : World) (s : ServiceId) : Mechanism :=
  match w.services[s]? with
  | some v => v.settings.mechanism
  | none => .safepoint

def roster (w : World) (s : ServiceId) : Roster :=
  match w.services[s]? with
  | some v => v.roster
  | none => {}

def census (w : World) (s : ServiceId) : Census := (w.roster s).census

/-- The record that stands for thread `t` in service `s`. -/
def selfIn (w : World) (t : ThreadId) (s : ServiceId) : Option RecordId :=
  match w.threads[t]? with
  | none => none
  | some x =>
    match x.binding with
    | none => none
    | some r =>
      match w.records[r]? with
      | none => none
      | some c => if c.service = s then some r else none

def handleOf (w : World) (r : RecordId) : Option Handle := w.records[r]?.map (·.handle)

def ownerOf (w : World) (r : RecordId) : Option ThreadId :=
  match w.records[r]? with
  | some c => c.owner
  | none => none

def phaseOf (w : World) (r : RecordId) : Phase :=
  match w.records[r]? with
  | some c => c.phase
  | none => .creating

def levelOf (w : World) (r : RecordId) : Level :=
  match w.records[r]? with
  | some c => c.level
  | none => .noBlock

def isRequested (w : World) (r : RecordId) : Bool :=
  match w.records[r]? with
  | some c => c.requested
  | none => false

def holder? (w : World) (l : Lock) : Option ThreadId := w.held.lookup l

/-- Marks the stop signal as sent to thread `t`. -/
def sendSignal (w : World) (t : ThreadId) : World :=
  w.modThread t fun x => { x with pending := true }

/-- Takes the thread that has slept longest out of the queue. -/
def wakeFirst (w : World) (q : WaitList) : World :=
  match w.asleep.find? (·.1 == q) with
  | none => w
  | some e => { w with asleep := w.asleep.erase e }

def wakeAll (w : World) (q : WaitList) : World :=
  { w with asleep := w.asleep.filter (·.1 != q) }

end World

/-- The world after an instruction, and what its thread has to do in its place. -/
abbrev Effect := World × List Instr

end Standstill
