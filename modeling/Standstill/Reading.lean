import Standstill.Guarding

/-!
Reading records and counts. A record is looked up under the roster lock in a guard of its own and
read afterwards.
-/
namespace Standstill

/-- What follows a look-up that found record `r`. -/
def Inquiry.code (s : ServiceId) (r : RecordId) : Inquiry → List Instr
  | .phase => [.read (.phase r)]
  | .name => guarded s .critical (locked (.name r) [.read (.name r)])
  | .rename text => guarded s .critical (locked (.name r) [.read (.rename r text)])
  | .priority => [.read (.priority r)]
  | .setPriority p => [.read (.setPriority r p)]
  | .isSuspendable => [.read (.isSuspendable r)]
  | .stack => [.read (.stack r)]
  | .record => [.read (.record r)]

/-- What a look-up that found nothing answers. -/
def Inquiry.absent : Inquiry → Outcome
  | .record => .value (.record none)
  | _ => .fault .unknownHandle

namespace World

/-- Adds to the figures that the call in progress will answer. -/
def modStats (w : World) (t : ThreadId) (f : Stats → Stats) : World :=
  w.modThread t fun x =>
    match x.outcome with
    | .value (.stats s) => { x with outcome := .value (.stats (f s)) }
    | _ => { x with outcome := .value (.stats (f {})) }

/-- Adds a record to those that the call in progress will answer. -/
def addRow (w : World) (t : ThreadId) (c : ThreadRecord) : World :=
  w.modThread t fun x =>
    match x.outcome with
    | .value (.records rs) => { x with outcome := .value (.records (rs ++ [c])) }
    | _ => { x with outcome := .value (.records [c]) }

end World

namespace ReadInstr

/-- Answers something of a record. -/
def tell (t : ThreadId) (w : World) (r : RecordId) (f : ThreadRecord → Value) : Effect :=
  match w.records[r]? with
  | none => (w, [])
  | some c => (w.answer t (f c), [])

/-- Reads something of a service. -/
def consult (w : World) (s : ServiceId) (f : Service → World) : Effect :=
  match w.services[s]? with
  | none => (w, [])
  | some v => (f v, [])

def run (t : ThreadId) (w : World) : ReadInstr → Effect
  | .find s h q =>
    match (w.roster s).lookup h with
    | none => (w.say t q.absent, leaveRoster s)
    | some r => (w, leaveRoster s ++ q.code s r)
  | .phase r => tell t w r fun c => .phase c.phase
  | .name r => tell t w r fun c => .text c.name
  | .rename r text => (w.modRecord r fun c => { c with name := Label.clamp text }, [])
  | .priority r => tell t w r fun c => .integer c.priority
  | .setPriority r p =>
    if (w.ownerOf r).isNone then (w.fail t .unknownHandle, [])
    else if w.system.takesPriority then (w.modRecord r fun c => { c with priority := p }, [])
    else (w.fail t .unsupported, [])
  | .isSuspendable r => tell t w r fun c => .flag (c.level == .noBlock)
  | .stack r => tell t w r fun c => .stack c.stackSize c.baseSet (c.stackTop != .parked)
  | .record r => tell t w r fun c => .record (some (r, c))
  | .all s withNames =>
    (w.answer t (.records []),
     (w.roster s).records.flatMap fun r =>
       if withNames then locked (.name r) [.read (.row r)] else [.read (.row r)])
  | .row r =>
    match w.records[r]? with
    | none => (w, [])
    | some c => (w.addRow t c, [])
  | .census s => (w.answer t (.census (w.census s)), [])
  | .statsCensus s =>
    (w.modStats t fun x =>
      { x with
        threadsCount := (w.census s).live
        peakCount := (w.census s).peak
        totalStarts := (w.census s).totalStarted
        nonDaemonCount := (w.census s).nonDaemon }, [])
  | .statsMutexes s =>
    consult w s fun v => w.modStats t fun x => { x with mutexesInUse := v.mutexes.inUse }
  | .statsConds s =>
    consult w s fun v => w.modStats t fun x => { x with condsInUse := v.conds.inUse }
  | .statsCounters s =>
    consult w s fun v => w.modStats t fun x =>
      { x with
        suspendRequests := v.counters.suspendRequests.toNat
        resumeRequests := v.counters.resumeRequests.toNat
        suspendAllCount := v.counters.suspendAllCount.toNat
        suspendWaitMicros := v.counters.suspendWaitMicros.toNat
        contentionCount := v.counters.contentionCount.toNat
        contentionMicros := v.counters.contentionMicros.toNat }

end ReadInstr

end Standstill
