import Standstill.Parking

/-!
Stopping one thread or all the others, waiting until they have stopped, and letting them go. A
thread found at level `noBlock` is told at once; any other parks when it lowers its level.
-/
namespace Standstill

namespace World

def setRequest (w : World) (r : RecordId) (b : Bool) : World :=
  w.modRecord r fun c => { c with requested := b }

/-- The records in service `s` other than the caller's own. -/
def others (w : World) (t : ThreadId) (s : ServiceId) : List RecordId :=
  let me := (w.selfIn t s).bind w.handleOf
  (w.roster s).records.filter fun r => w.handleOf r ≠ me

/-- Sends the stop signal to the owner of `r`. A thread that has none yet cannot be reached. -/
def signalOwner (w : World) (r : RecordId) : World :=
  match w.ownerOf r with
  | some o => w.sendSignal o
  | none => w

/-- Under signals, a record that is bound to no thread cannot be told anything. -/
def isOutOfReach (w : World) (s : ServiceId) (r : RecordId) : Bool :=
  w.mechanism s = .signal && (w.ownerOf r).isNone

def warnAfter (w : World) (s : ServiceId) : Nat :=
  match w.services[s]? with
  | some v => v.settings.warnAfterMs * 1000
  | none => 0

end World

/-- Wakes a thread that sleeps in its park loop under safe points. -/
def ringPark (r : RecordId) : List Instr := locked (.park r) [.sync (.notifyAll (.park r))]

/-- Clears all requests but the caller's, opens the start gate and wakes who waits there. -/
def resumeAllCode (s : ServiceId) : List Instr :=
  [.guard (.raise s .critical), .sync (.acquire (.roster s)), .stop (.freeOthers s)]

namespace StopInstr

def run (t : ThreadId) (w : World) : StopInstr → Effect
  | .countSuspend s => (w.count s .suspendRequest, [])
  | .suspendFind s h =>
    match (w.roster s).lookup h with
    | none => (w.fail t .unknownHandle, leaveRoster s)
    | some r => (w, [.stop (.readEpoch s r)])
  | .readEpoch s r =>
    match w.records[r]? with
    | none => (w, leaveRoster s)
    | some c => (w, [.stop (.request s r c.epoch)])
  | .request s r epoch =>
    (w.setRequest r true, [.stop (.readLevel s r epoch (w.isRequested r))])
  | .readLevel s r epoch already =>
    (w, if w.levelOf r = .noBlock then [.stop (.deliver s r epoch already)] else leaveRoster s)
  | .deliver s r epoch already =>
    if w.isOutOfReach s r then
      (w.fail t .unknownHandle, (if already then [] else [.stop (.withdraw r)]) ++ leaveRoster s)
    else
      (match w.mechanism s with
       | .signal => w.signalOwner r
       | .safepoint => w,
       leaveRoster s ++ [.stop (.watchStart s r epoch)])
  | .withdraw r => (w.setRequest r false, [])
  | .watchStart s r epoch => (w, [.stop (.watchEpoch ⟨s, r, epoch, w.clock, false⟩)])
  | .watchEpoch x =>
    match w.records[x.record]? with
    | none => (w, [])
    | some c => (w, if c.epoch = x.epoch then [.stop (.watchPhase x)] else [.stop (.watchEnd x)])
  | .watchPhase x =>
    (w, if w.phaseOf x.record = .suspended then [.stop (.watchEnd x)]
        else [.stop (.watchRequest x)])
  | .watchRequest x =>
    (w, if w.isRequested x.record then [.stop (.watchLevel x)] else [.stop (.watchEnd x)])
  | .watchLevel x =>
    (w, if w.levelOf x.record = .noBlock then [.stop (.watchClock x)]
        else [.stop (.watchEnd x)])
  | .watchClock x =>
    (w, if ¬ x.warned ∧ w.warnAfter x.service < w.clock - x.since then
          guarded x.service .critical (locked (.name x.record) [])
            ++ [.stop (.watchEpoch { x with warned := true })]
        else [.stop (.watchEpoch x)])
  | .watchEnd x =>
    (w.count x.service (.suspendWait (.ofMicroseconds (w.clock - x.since))), [])
  | .countResume s => (w.count s .resumeRequest, [])
  | .resumeFind s h =>
    match (w.roster s).lookup h with
    | none => (w.fail t .unknownHandle, leaveRoster s)
    | some r => (w, [.stop (.resumeClear s r)])
  | .resumeClear s r => (w.setRequest r false, [.stop (.resumeLevel s r)])
  | .resumeLevel s r =>
    (w, if w.levelOf r = .noBlock then [.stop (.resumeWake s r)] else leaveRoster s)
  | .resumeWake s r =>
    if w.isOutOfReach s r then (w.fail t .unknownHandle, leaveRoster s)
    else
      match w.mechanism s with
      | .signal => (w.signalOwner r, leaveRoster s ++ [.stop (.resumePhase r)])
      | .safepoint => (w, ringPark r ++ leaveRoster s ++ [.stop (.resumePhase r)])
  | .resumePhase r =>
    (w, if w.phaseOf r = .suspended then [.stop (.resumeRequest r)] else [])
  | .resumeRequest r => (w, if w.isRequested r then [] else [.stop (.resumePhase r)])
  | .countSuspendAll s => (w.count s .suspendAll, [])
  | .haltOthers s =>
    (w, (w.others t s).map (fun r => .stop (.haltRequest s r))
          ++ .stop (.closeGate s) :: leaveRoster s)
  | .haltRequest s r => (w.setRequest r true, [.stop (.haltLevel s r)])
  | .haltLevel s r => (w, if w.levelOf r = .noBlock then [.stop (.haltDeliver s r)] else [])
  | .haltDeliver s r =>
    (match w.mechanism s with
     | .signal => w.signalOwner r
     | .safepoint => w, [])
  | .closeGate s => (w.modCensus s fun c => { c with allSuspended := true }, [])
  | .freeOthers s =>
    (w, (w.others t s).map (fun r => .stop (.freeClear s r))
          ++ [.stop (.openGate s), .sync (.release (.roster s)),
              .sync (.notifyAll (.roster s)), .guard (.lower s)])
  | .freeClear s r => (w.setRequest r false, [.stop (.freeLevel s r)])
  | .freeLevel s r => (w, if w.levelOf r = .noBlock then [.stop (.freeWake s r)] else [])
  | .freeWake s r =>
    match w.mechanism s with
    | .signal => (w.signalOwner r, [])
    | .safepoint => (w, ringPark r)
  | .openGate s => (w.modCensus s fun c => { c with allSuspended := false }, [])
  | .settleStart s micros => (w, [.stop (.settle s (w.clock + micros))])
  | .settle s d =>
    (w, [.guard (.raise s .critical), .sync (.acquire (.roster s)), .stop (.scan s d)])
  | .scan s d => (w, [.stop (.scanRequest s d (w.roster s).records true)])
  | .scanRequest s d [] settled =>
    (w, [.sync (.release (.roster s)), .stop (.verdict s d settled)])
  | .scanRequest s d (r :: rest) settled =>
    (w, if w.isRequested r then [.stop (.scanLevel s d r rest settled)]
        else [.stop (.scanRequest s d rest settled)])
  | .scanLevel s d r rest settled =>
    (w, if w.levelOf r = .noBlock then [.stop (.scanPhase s d r rest settled)]
        else [.stop (.scanRequest s d rest settled)])
  | .scanPhase s d r rest settled =>
    (w, [.stop (.scanRequest s d rest (settled && w.phaseOf r == .suspended))])
  | .verdict s d settled =>
    if settled then (w, [.guard (.lower s)])
    else if d ≤ w.clock then (w.fail t .timeout, [.guard (.lower s)])
    else (w, [.guard (.lower s), .stop (.settle s d)])
  | .undoStop s =>
    match w.threads[t]? with
    | some { outcome := .fault _, .. } => (w, resumeAllCode s)
    | _ => (w, [])

end StopInstr

end Standstill
