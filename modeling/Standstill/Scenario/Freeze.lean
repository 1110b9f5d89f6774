import Standstill.Report
import Standstill.Scenario.Fault
import Standstill.Schedule

/-!
Workers that count without end are brought to a standstill for a while and then go on; a stopped
worker must not count, and one let go again must.
-/
namespace Standstill.Freeze

structure Plan where
  workers : Nat
  /-- How long the world stands still. -/
  pauseMs : Nat
  deriving DecidableEq, Repr

/-- How long the world may take to come to a standstill, in microseconds. -/
def stopBudget : Nat := 10 * 1000000

/-- How long the workers are waited for at the end, in microseconds. -/
def exitBudget : Nat := 30 * 1000000

/-- A worker counts and looks at the safe point in turn, once at every instant. -/
structure Worker where
  count : Nat := 0
  countedAt : Option Nat := none
  inCall : Bool := false
  deriving DecidableEq, Repr

/-- What the conducting thread is about. -/
inductive Control
  | establish
  | start (started : Nat)
  | letCount
  | stop
  | watch (before : List Nat)
  | release (frozen : Bool)
  | letGoOn (frozen : Bool) (before : List Nat)
  | awaitExit (frozen progressed : Bool)
  | stats
  | over (result : Except ScenarioFault Report)

structure State where
  control : Control := .establish
  /-- The conducting thread has a call under way. -/
  inCall : Bool := false
  workers : List Worker := []
  /-- The workers are to end. -/
  done : Bool := false

def isOver (x : State) : Bool :=
  match x.control with
  | .over _ => true
  | _ => false

namespace Control

def starting (p : Plan) (started : Nat) : Control :=
  if started < p.workers then .start started else .letCount

def call? (settings : Settings) (p : Plan) (s : ServiceId) : Control → Option Call
  | .establish => some (.establish settings)
  | .start i => some (.spawn s { name := "counter-" ++ toString i })
  | .letCount => some (.pause (p.pauseMs * 1000 / 4))
  | .stop => some (.stopTheWorld s stopBudget)
  | .watch _ => some (.pause (p.pauseMs * 1000))
  | .release _ => some (.resumeAll s)
  | .letGoOn _ _ => some (.pause (p.pauseMs * 1000 / 2))
  | .awaitExit _ _ => some (.awaitExit s (some exitBudget))
  | .stats => some (.stats s)
  | .over _ => none

def fail (f : ScenarioFault) : Control := .over (.error f)

/-- Goes on if the call was granted. -/
def granted (o : Outcome) (c : Control) : Control :=
  match o.scenarioFault? with
  | none => c
  | some f => fail f

/-- Looks over what the counters have shown. -/
def review (frozen progressed : Bool) : Control :=
  if !frozen then fail (.finding .movedWhileStopped)
  else if !progressed then fail (.finding .stuckAfterResume)
  else .stats

def reportOf (settings : Settings) (p : Plan) (stats : Stats) : Report :=
  { scenario := "stw", mechanism := settings.mechanism, stats
    detail := toString p.workers ++ " workers frozen for " ++ toString p.pauseMs
      ++ " ms and resumed" }

/-- What follows a call, given what the counters show then. -/
def next (settings : Settings) (p : Plan) (counts : List Nat) : Control → Outcome → Control
  | .establish, o => granted o (starting p 0)
  | .start i, o => granted o (starting p (i + 1))
  | .letCount, o => granted o .stop
  | .stop, o => granted o (.watch counts)
  | .watch before, o => granted o (.release (before = counts))
  | .release frozen, o => granted o (.letGoOn frozen counts)
  | .letGoOn frozen before, o =>
    granted o (.awaitExit frozen ((counts.zip before).all fun (now, old) => old < now))
  | .awaitExit frozen progressed, o => granted o (review frozen progressed)
  | .stats, .value (.stats x) => .over (.ok (reportOf settings p x))
  | .stats, o => granted o (fail .broken)
  | .over r, _ => .over r

end Control

/-- The service of the scenario is the first of its world. -/
def service : ServiceId := 0

/-- Thread 0 conducts; thread `i + 1` is the worker of number `i`. -/
def own (settings : Settings) (p : Plan) : Schedule.Script State := fun t (w, x) =>
  match t with
  | 0 =>
    if x.inCall then
      let control := x.control.next settings p (x.workers.map (·.count)) (w.outcomeOf 0)
      let done := match control with | .awaitExit .. => true | _ => x.done
      some (w, { x with control, done, inCall := false })
    else
      match x.control.call? settings p service with
      | none => none
      | some c =>
        let workers := match x.control with | .start _ => x.workers ++ [{}] | _ => x.workers
        some (Schedule.call w 0 c, { x with inCall := true, workers })
  | i + 1 =>
    match x.workers[i]? with
    | none => none
    | some k =>
      if k.inCall then
        some (w, { x with workers := x.workers.set i { k with inCall := false } })
      else if x.done then some (w.finish t false, x)
      else if k.countedAt = some w.clock && !w.isSummoned t then none
      else
        let k := { count := k.count + 1, countedAt := some w.clock, inCall := true }
        some (w.invoke t (.safePoint service), { x with workers := x.workers.set i k })

/-- The conductor lets time go on a few times, and each worker at its end. -/
def rounds (p : Plan) : Nat := p.workers + 64

/-- Plays the scenario in a world of its own. -/
def play (settings : Settings) (p : Plan) : Except ScenarioFault Report :=
  let x := (Schedule.runUntil (own settings p) isOver (rounds p) (World.initial 1, {})).2
  match x.control with
  | .over r => r
  | _ => .error .broken

end Standstill.Freeze
