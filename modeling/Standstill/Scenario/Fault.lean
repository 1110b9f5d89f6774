import Standstill.Instr

/-!
How a scenario can come to a bad end.
-/
namespace Standstill

/-- What a scenario finds wrong when it looks over its work. -/
inductive Finding
  | workersFailed (failed total : Nat)
  | slotsLeaked
  | movedWhileStopped
  | stuckAfterResume
  deriving DecidableEq, Repr

def Finding.text : Finding → String
  | .workersFailed failed total => s!"{failed} of {total} workers failed"
  | .slotsLeaked => "pool slots leaked"
  | .movedWhileStopped => "a counter advanced while the world was stopped"
  | .stuckAfterResume => "a counter did not advance after resume"

inductive ScenarioFault
  | service (f : Fault)
  | finding (f : Finding)
  /-- A number outgrows its word, or the scenario gets nowhere: the program breaks off. -/
  | broken
  deriving DecidableEq, Repr

def ScenarioFault.message : ScenarioFault → String
  | .service f => "runtime error: " ++ f.message
  | .finding f => "check failed: " ++ f.text
  | .broken => "broken off"

/-- What goes wrong with a scenario by a call that was not granted. -/
def Outcome.scenarioFault? : Outcome → Option ScenarioFault
  | .value _ => none
  | .fault f => some (.service f)
  | .panicked => some .broken

end Standstill
