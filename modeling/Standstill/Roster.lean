import Standstill.Fault
import Standstill.ThreadRecord

/-!
The roster of a service: which record is found under which handle, and counts of threads.
-/
namespace Standstill

/-- Counts that the roster lock protects. -/
structure Census where
  live : Nat := 0
  peak : Nat := 0
  totalStarted : Nat := 0
  nonDaemon : Nat := 0
  /-- Threads held at the start gate. -/
  waitingToStart : Nat := 0
  /-- The start gate is closed. -/
  allSuspended : Bool := false
  deriving DecidableEq, Repr

namespace Census

/-- One more thread is live. -/
def arrive (c : Census) : Census :=
  { c with live := c.live + 1, peak := max c.peak (c.live + 1), totalStarted := c.totalStarted + 1 }

/-- A thread waits at the start gate. -/
def queueUp (c : Census) : Census := { c with waitingToStart := c.waitingToStart + 1 }

/-- A waiting thread goes through the start gate. -/
def passGate (c : Census) (daemon : Bool) : Census :=
  let c := { c with waitingToStart := c.waitingToStart - 1 }.arrive
  if daemon then c else { c with nonDaemon := c.nonDaemon + 1 }

/-- An attached thread leaves. -/
def leave (c : Census) : Census := { c with live := c.live - 1 }

/-- A thread that the service started leaves. -/
def finish (c : Census) (daemon : Bool) : Census :=
  if daemon then c.leave else { c.leave with nonDaemon := c.nonDaemon - 1 }

end Census

structure Roster where
  entries : List (Handle × RecordId) := []
  census : Census := {}
  deriving DecidableEq, Repr

namespace Roster

def lookup (g : Roster) (h : Handle) : Option RecordId := g.entries.lookup h

def records (g : Roster) : List RecordId := g.entries.map (·.2)

def size (g : Roster) : Nat := g.entries.length

/-- Stores a record under its handle, in the place of one that was there. -/
def insert (g : Roster) (h : Handle) (r : RecordId) : Roster :=
  { g with entries := g.entries.filter (·.1 != h) ++ [(h, r)] }

def erase (g : Roster) (h : Handle) : Roster :=
  { g with entries := g.entries.filter (·.1 != h) }

/-- Takes out the record under `h` for thread `caller`. A record that is bound to a thread can be
taken out by that thread only. -/
def removeBy (g : Roster) (ownerOf : RecordId → Option ThreadId) (caller : ThreadId)
    (h : Handle) : Except Fault (RecordId × Roster) :=
  match g.lookup h with
  | none => .error .unknownHandle
  | some r =>
    match ownerOf r with
    | none => .ok (r, g.erase h)
    | some t => if t = caller then .ok (r, g.erase h) else .error .notOwner

end Roster

end Standstill
