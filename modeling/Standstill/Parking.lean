import Standstill.Guarding

/-!
The park loop. A thread in it sleeps for as long as its request stands and its level is `noBlock`;
then it takes up the phase that it had before.
-/
namespace Standstill

namespace World

/-- The stop signal's handler, as thread `t` would run it now. -/
def handlerCode (w : World) (t : ThreadId) : List Instr :=
  match w.threads[t]? with
  | none => []
  | some x =>
    match x.binding with
    | none => []
    | some r => [.park (.check [.request, .level, .phase] .handler r)]

def passes (w : World) (r : RecordId) : Test → Bool
  | .request => w.isRequested r
  | .level => w.levelOf r = .noBlock
  | .phase => w.phaseOf r ≠ .suspended

end World

/-- One sleep in the park loop. Under the park lock the request is read again, so that a wake-up
that comes before the sleep is not lost. -/
def Parking.sleepCode (p : Parking) : List Instr :=
  match p.sleep with
  | .signal => [.park .awaitSignal]
  | .safepoint => locked (.park p.record) [.park (.retestRequest p.record)]

namespace ParkInstr

def isReady (w : World) (t : ThreadId) : ParkInstr → Bool
  | .awaitSignal =>
    match w.threads[t]? with
    | some x => x.pending
    | none => false
  | _ => true

def run (t : ThreadId) (w : World) : ParkInstr → Effect
  | .check (x :: rest) entry r =>
    (w, if w.passes r x then [.park (.check rest entry r)] else [])
  | .check [] .handler r => (w, [.park (.save .signal r)])
  | .check [] (.call .safepoint) r => (w, [.park (.save .safepoint r)])
  | .check [] (.call .signal) r =>
    match w.threads[t]? with
    | none => (w, [])
    | some x => (w.setMask t true, [.park (.save .signal r), .guard (.setMask x.masked)])
  | .save sleep r => (w, [.park (.spill ⟨sleep, r, w.phaseOf r⟩)])
  | .spill p => (w.modRecord p.record fun c => { c with stackTop := .parked }, [.park (.mark p)])
  | .mark p => (w.setPhase p.record .suspended, [.park (.count p)])
  | .count p =>
    (w.modRecord p.record fun c => { c with epoch := c.epoch + 1 }, [.park (.testRequest p)])
  | .testRequest p =>
    (w, if w.isRequested p.record then [.park (.testLevel p)] else [.park (.restore p)])
  | .testLevel p =>
    (w, if w.levelOf p.record = .noBlock then p.sleepCode ++ [.park (.testRequest p)]
        else [.park (.restore p)])
  | .retestRequest r => (w, if w.isRequested r then [.park (.retestLevel r)] else [])
  | .retestLevel r =>
    (w, if w.levelOf r = .noBlock then [.sync (.wait (.park r) (.park r) none)] else [])
  | .awaitSignal =>
    (w.modThread t fun x => { x with pending := false }, w.handlerCode t)
  | .restore p => (w.setPhase p.record p.previous, [])

end ParkInstr

end Standstill
