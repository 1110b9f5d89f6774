import Standstill.Settings

/-!
The options of the command line: their names, and the values that they take.
-/
namespace Standstill.CommandLine

/-- Why a command line is not carried out. Two of the causes are requests for help. -/
inductive UsageFault
  | help
  | version
  /-- Nothing at all was said. -/
  | nothingGiven
  | noScenario
  | unknownScenario
  | unknownArgument
  /-- A value is missing, or is none of those to choose from. -/
  | badValue
  /-- A value is not a number of the right range. -/
  | badNumber
  /-- A flag was given a value. -/
  | valueForFlag
  /-- An option stands twice where it may stand once. -/
  | repeated
  deriving DecidableEq, Repr

/-- The exit code of the program that meets with the fault. -/
def UsageFault.exitCode : UsageFault → Nat
  | .help | .version => 0
  | _ => 2

inductive ScenarioKind
  | stress
  | stopTheWorld
  deriving DecidableEq, Repr

def ScenarioKind.name : ScenarioKind → String
  | .stress => "stress"
  | .stopTheWorld => "stw"

/-- Where an argument stands: before the scenario's word, or after it. -/
inductive Place
  | front
  | after (k : ScenarioKind)
  deriving DecidableEq, Repr

/-- An option that takes a value. -/
inductive Setting
  | config
  | mechanism
  | threads
  | steps
  | stepMs
  | workers
  | pauseMs
  deriving DecidableEq, Repr

inductive Flag
  | json
  | verbose
  | help
  | version
  deriving DecidableEq, Repr

inductive Opt
  | setting (s : Setting)
  | flag (f : Flag)
  deriving DecidableEq, Repr

/-- The option of a long name. The file, the mechanism, the form of the report and the log may be
chosen anywhere, the figures of a scenario only after its word. -/
def Opt.ofLong? : Place → String → Option Opt
  | _, "config" => some (.setting .config)
  | _, "mechanism" => some (.setting .mechanism)
  | _, "json" => some (.flag .json)
  | _, "verbose" => some (.flag .verbose)
  | _, "help" => some (.flag .help)
  | .front, "version" => some (.flag .version)
  | .after .stress, "threads" => some (.setting .threads)
  | .after .stress, "steps" => some (.setting .steps)
  | .after .stress, "step-ms" => some (.setting .stepMs)
  | .after .stopTheWorld, "workers" => some (.setting .workers)
  | .after .stopTheWorld, "pause-ms" => some (.setting .pauseMs)
  | _, _ => none

def Opt.ofShort? : Place → Char → Option Opt
  | _, 'c' => some (.setting .config)
  | _, 'm' => some (.setting .mechanism)
  | _, 'v' => some (.flag .verbose)
  | _, 'h' => some (.flag .help)
  | .front, 'V' => some (.flag .version)
  | _, _ => none

/-- A number in decimal digits. -/
def digits? (s : List Char) : Option Nat :=
  if s.isEmpty || !s.all Char.isDigit then none
  else some (s.foldl (fun n c => 10 * n + (c.toNat - '0'.toNat)) 0)

/-- A number below `bound`, perhaps after a plus. -/
def natural? (bound : Nat) (s : String) : Option Nat := do
  let n ← digits? (match s.toList with | '+' :: cs => cs | cs => cs)
  if n < bound then some n else none

/-- A number from zero up to below `bound`; zero may have a minus in front. -/
def signed? (bound : Nat) (s : String) : Option Nat :=
  match s.toList with
  | '-' :: cs => do
    let n ← digits? cs
    if n = 0 then some 0 else none
  | _ => natural? bound s

/-- What has been chosen on one side of the scenario's word. -/
structure Choices where
  config : Option String := none
  mechanism : Option Mechanism := none
  json : Bool := false
  verbose : Nat := 0
  threads : Option Nat := none
  steps : Option Nat := none
  stepMs : Option Nat := none
  workers : Option Nat := none
  pauseMs : Option Nat := none
  deriving DecidableEq, Repr

namespace Choices

def isEmpty (c : Choices) : Bool := c = {}

def has (c : Choices) : Setting → Bool
  | .config => c.config.isSome
  | .mechanism => c.mechanism.isSome
  | .threads => c.threads.isSome
  | .steps => c.steps.isSome
  | .stepMs => c.stepMs.isSome
  | .workers => c.workers.isSome
  | .pauseMs => c.pauseMs.isSome

/-- A value that must be there, or the fault. -/
def orElse (x : Option α) (f : UsageFault) : Except UsageFault α :=
  match x with
  | some a => .ok a
  | none => .error f

/-- Chooses a value for an option that has none yet. -/
def set (c : Choices) (s : Setting) (v : String) : Except UsageFault Choices :=
  if c.has s then .error .repeated
  else
    let size := orElse (natural? 0x10000000000000000 v) .badNumber
    match s with
    | .config => .ok { c with config := some v }
    | .mechanism => do .ok { c with mechanism := some (← orElse (Mechanism.ofName? v) .badValue) }
    | .threads => do .ok { c with threads := some (← size) }
    | .steps => do .ok { c with steps := some (← orElse (signed? 0x100000000 v) .badNumber) }
    | .stepMs => do .ok { c with stepMs := some (← size) }
    | .workers => do .ok { c with workers := some (← size) }
    | .pauseMs => do .ok { c with pauseMs := some (← size) }

/-- Raises a flag. More than 255 times counts as 255. -/
def raise (c : Choices) : Flag → Except UsageFault Choices
  | .json => if c.json then .error .repeated else .ok { c with json := true }
  | .verbose => .ok { c with verbose := min 255 (c.verbose + 1) }
  | .help => .error .help
  | .version => .error .version

end Choices

end Standstill.CommandLine
