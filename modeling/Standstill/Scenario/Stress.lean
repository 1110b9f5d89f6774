import Standstill.Report
import Standstill.Scenario.Fault
import Standstill.Schedule

/-!
Many workers, each with a mutex and a condition of its own, take a number of timed waits. Meanwhile
every second one is stopped and let go again, and then all of them.
-/
namespace Standstill.Stress

structure Plan where
  workers : Nat
  /-- How often a worker waits. -/
  steps : Nat
  /-- How long it waits each time. -/
  stepMs : Nat
  deriving DecidableEq, Repr

namespace Plan

/-- The length of a step in microseconds. -/
def step (p : Plan) : Nat := p.stepMs * 1000

/-- How long the workers are waited for at the end, in microseconds. The number of steps is a word
of 32 bits; seconds, with the last half minute, have to fit into 64. -/
def budget? (p : Plan) : Option Nat :=
  let n := (p.steps + 20) % 0x100000000 * p.step
  let n := n + 30 * 1000000
  if n / 1000000 < 0x10000000000000000 then some n else none

end Plan

/-- A number in at least two digits. -/
def twoDigits (i : Nat) : String := if i < 10 then "0" ++ toString i else toString i

/-- The call that a worker makes next, or has made last. -/
inductive Stage
  | createCond
  | createMutex (cond : Nat)
  | lock (cond mutex left : Nat)
  | wait (cond mutex left : Nat)
  | unlock (cond mutex left : Nat) (waited : Outcome)
  | poll (cond mutex left : Nat)
  | destroyMutex (cond mutex : Nat)
  | destroyCond (cond : Nat)
  | over (failed : Bool)
  deriving DecidableEq, Repr

namespace Stage

/-- The stage of a worker with so many steps to take. -/
def turn (cond mutex : Nat) : Nat → Stage
  | 0 => .destroyMutex cond mutex
  | n + 1 => .lock cond mutex n

/-- The call of the stage, made by the worker of number `i`. -/
def call? (p : Plan) (s : ServiceId) (i : Nat) : Stage → Option Call
  | .createCond => some (.cond s .guarded (.create ("ct" ++ twoDigits i)))
  | .createMutex _ => some (.mutex s .guarded (.create ("lt" ++ twoDigits i)))
  | .lock _ m _ => some (.mutex s .guarded (.lock m))
  | .wait c m _ => some (.condWait s c m (some p.step))
  | .unlock _ m _ _ => some (.mutex s .guarded (.unlock m))
  | .poll _ _ _ => some (.safePoint s)
  | .destroyMutex _ m => some (.mutex s .guarded (.destroy m))
  | .destroyCond c => some (.cond s .guarded (.destroy c))
  | .over _ => none

/-- The stage that follows when the call has come to its outcome. A worker gives up at the first
refusal, except that a wait may run out of time. -/
def next (p : Plan) : Stage → Outcome → Stage
  | .createCond, .value (.number c) => .createMutex c
  | .createMutex c, .value (.number m) => turn c m p.steps
  | .lock c m left, .value _ => .wait c m left
  | .wait c m left, o => .unlock c m left o
  | .unlock c m left (.value _), .value _ => .poll c m left
  | .unlock c m left (.fault .timeout), .value _ => .poll c m left
  | .poll c m left, _ => turn c m left
  | .destroyMutex c _, .value _ => .destroyCond c
  | .destroyCond _, .value _ => .over false
  | .over failed, _ => .over failed
  | _, _ => .over true

end Stage

/-- What the conducting thread is about. -/
inductive Control
  | establish
  /-- Starts a worker; those started before have these handles, the last one first. -/
  | start (handles : List Handle)
  | letWork (chosen : List Handle)
  | suspend (rest chosen : List Handle)
  | letOthersWork (chosen : List Handle)
  | resume (rest : List Handle)
  | suspendAll
  | letRest
  | resumeAll
  | awaitExit (budget : Nat)
  | stats
  | over (result : Except ScenarioFault Report)

/-- Every second of the list, from the first on. -/
def everySecond : List α → List α
  | [] => []
  | [a] => [a]
  | a :: _ :: rest => a :: everySecond rest

structure State where
  control : Control := .establish
  /-- The conducting thread has a call under way. -/
  inCall : Bool := false
  /-- Each worker's stage, and whether its call is under way. -/
  workers : List (Stage × Bool) := []
  failed : Nat := 0

def isOver (x : State) : Bool :=
  match x.control with
  | .over _ => true
  | _ => false

namespace Control

/-- Starts the next worker, or lets all of them work once they are there. -/
def starting (p : Plan) (handles : List Handle) : Control :=
  if handles.length < p.workers then .start handles
  else .letWork (everySecond handles.reverse)

def suspending (rest chosen : List Handle) : Control :=
  match rest with
  | [] => .letOthersWork chosen
  | _ => .suspend rest chosen

def resuming (rest : List Handle) : Control :=
  match rest with
  | [] => .suspendAll
  | _ => .resume rest

def call? (settings : Settings) (p : Plan) (s : ServiceId) : Control → Option Call
  | .establish => some (.establish settings)
  | .start handles =>
    some (.spawn s
      { name := "TEST_THREAD-" ++ twoDigits handles.length, stackSize := defaultStackSize })
  | .letWork _ => some (.sleep s (2 * p.step))
  | .suspend (h :: _) _ => some (.suspend s h)
  | .letOthersWork _ => some (.sleep s (5 * p.step))
  | .resume (h :: _) => some (.resume s h)
  | .suspendAll => some (.suspendAll s)
  | .letRest => some (.sleep s (2 * p.step))
  | .resumeAll => some (.resumeAll s)
  | .awaitExit budget => some (.awaitExit s (some budget))
  | .stats => some (.stats s)
  | .suspend [] _ | .resume [] | .over _ => none

def fail (f : ScenarioFault) : Control := .over (.error f)

/-- Goes on if the call was granted. -/
def granted (o : Outcome) (c : Control) : Control :=
  match o.scenarioFault? with
  | none => c
  | some f => fail f

/-- Goes on even if there was no such thread any more. -/
def tolerated (o : Outcome) (c : Control) : Control :=
  match o with
  | .fault .unknownHandle => c
  | o => granted o c

/-- Looks over the work of all the workers, who have gone by now. -/
def review (w : World) (p : Plan) (s : ServiceId) (failed : Nat) : Control :=
  if 0 < failed then fail (.finding (.workersFailed failed p.workers))
  else if (w.mutexSlots s).inUse ≠ 0 ∨ (w.condSlots s).inUse ≠ 0 then
    fail (.finding .slotsLeaked)
  else .stats

def reportOf (settings : Settings) (p : Plan) (stats : Stats) : Report :=
  { scenario := "stress", mechanism := settings.mechanism, stats
    detail := toString p.workers ++ " threads x " ++ toString p.steps ++ " steps completed" }

def next (w : World) (settings : Settings) (p : Plan) (s : ServiceId) (failed : Nat) :
    Control → Outcome → Control
  | .establish, o => granted o (starting p [])
  | .start handles, .value (.handle h) => starting p (h :: handles)
  | .start _, o => granted o (fail .broken)
  | .letWork chosen, o => granted o (suspending chosen chosen)
  | .suspend rest chosen, o => tolerated o (suspending rest.tail chosen)
  | .letOthersWork chosen, o => granted o (resuming chosen)
  | .resume rest, o => tolerated o (resuming rest.tail)
  | .suspendAll, o => granted o .letRest
  | .letRest, o => granted o .resumeAll
  | .resumeAll, o =>
    granted o (match p.budget? with | some n => .awaitExit n | none => fail .broken)
  | .awaitExit _, o => granted o (review w p s failed)
  | .stats, .value (.stats x) => .over (.ok (reportOf settings p x))
  | .stats, o => granted o (fail .broken)
  | .over r, _ => .over r

end Control

/-- The service of the scenario is the first of its world. -/
def service : ServiceId := 0

/-- Thread 0 conducts; thread `i + 1` is the worker of number `i`. -/
def own (settings : Settings) (p : Plan) : Schedule.Script State := fun t (w, x) =>
  match t with
  | 0 =>
    if x.inCall then
      let control := x.control.next w settings p service x.failed (w.outcomeOf 0)
      some (w, { x with control, inCall := false })
    else
      match x.control.call? settings p service with
      | none => none
      | some c =>
        let workers :=
          match x.control with
          | .start _ => x.workers ++ [(.createCond, false)]
          | _ => x.workers
        some (w.invoke 0 c, { x with inCall := true, workers })
  | i + 1 =>
    match x.workers[i]? with
    | none => none
    | some (stage, true) =>
      let stage := stage.next p (w.outcomeOf t)
      let failed := if stage = .over true then x.failed + 1 else x.failed
      some (w, { x with workers := x.workers.set i (stage, false), failed })
    | some (stage, false) =>
      match stage.call? p service i with
      | none => some (w.finish t false, x)
      | some c => some (w.invoke t c, { x with workers := x.workers.set i (stage, true) })

/-- Time goes on once for each step of a worker at most, and a few times for the conductor. -/
def rounds (p : Plan) : Nat := (p.workers + 2) * (p.steps + 4) + 64

/-- Plays the scenario in a world of its own. -/
def play (settings : Settings) (p : Plan) : Except ScenarioFault Report :=
  let x := (Schedule.runUntil (own settings p) isOver (rounds p) (World.initial 1, {})).2
  match x.control with
  | .over r => r
  | _ => .error .broken

end Standstill.Stress
