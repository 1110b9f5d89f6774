import Standstill.CommandLine.Option

/-!
Reading a command line from left to right. The first fault wins, but a value that is a word of its
own is looked at only when the next option, or the end of its side, is reached.
-/
namespace Standstill.CommandLine

/-- A scenario with its figures; times are in milliseconds. -/
inductive Scenario
  | stress (threads steps stepMs : Nat)
  | stopTheWorld (workers pauseMs : Nat)
  deriving DecidableEq, Repr

structure Arguments where
  config : Option String := none
  mechanism : Option Mechanism := none
  json : Bool := false
  verbose : Nat := 0
  scenario : Scenario
  deriving DecidableEq, Repr

/-- An option that stands alone so far, and its value if that has come by now. -/
structure Pending where
  setting : Setting
  value : Option String := none
  deriving DecidableEq, Repr

structure Progress where
  choices : Choices := {}
  pending : Option Pending := none
  deriving DecidableEq, Repr

namespace Progress

/-- Looks at the value that has been put off. -/
def resolve (p : Progress) : Except UsageFault Choices :=
  match p.pending with
  | none => .ok p.choices
  | some ⟨_, none⟩ => .error .badValue
  | some ⟨s, some v⟩ => p.choices.set s v

def isAwaiting (p : Progress) : Bool :=
  match p.pending with
  | some ⟨_, none⟩ => true
  | _ => false

def raise (p : Progress) (f : Flag) : Except UsageFault Progress := do
  let c ← p.resolve
  .ok { choices := ← c.raise f }

def set (p : Progress) (s : Setting) (v : String) : Except UsageFault Progress := do
  let c ← p.resolve
  .ok { choices := ← c.set s v }

def await (p : Progress) (s : Setting) : Except UsageFault Progress := do
  .ok { choices := ← p.resolve, pending := some ⟨s, none⟩ }

/-- Short options in one word after a dash; the first that takes a value takes the rest. -/
def short (place : Place) (p : Progress) : List Char → Except UsageFault Progress
  | [] => .ok p
  | c :: rest =>
    match Opt.ofShort? place c with
    | none => .error .unknownArgument
    | some (.flag f) => do short place (← p.raise f) rest
    | some (.setting s) =>
      match rest with
      | [] => p.await s
      | '=' :: v => p.set s (String.ofList v)
      | v => p.set s (String.ofList v)

/-- A long option, with the value that stands after an equals sign. -/
def long (place : Place) (p : Progress) (name : String) (v : Option String) :
    Except UsageFault Progress :=
  match Opt.ofLong? place name, v with
  | none, _ => .error .unknownArgument
  | some (.flag _), some _ => .error .valueForFlag
  | some (.flag f), none => p.raise f
  | some (.setting s), some v => p.set s v
  | some (.setting s), none => p.await s

end Progress

/-- What an argument looks like. -/
inductive Shape
  /-- Two dashes: no option follows. -/
  | divider
  | long (name : String) (value : Option String)
  | short (options : List Char)
  | word
  deriving DecidableEq, Repr

def Shape.of (arg : String) : Shape :=
  match arg.toList with
  | ['-', '-'] => .divider
  | '-' :: '-' :: cs =>
    let (name, rest) := cs.span (· ≠ '=')
    .long (String.ofList name)
      (match rest with | [] => none | _ :: v => some (String.ofList v))
  | ['-'] => .word
  | '-' :: cs => .short cs
  | _ => .word

/-- The words that may stand in the place of a scenario's. -/
inductive Keyword
  | help
  | scenario (k : ScenarioKind)
  deriving DecidableEq, Repr

def Keyword.of? : Place → String → Option Keyword
  | .front, "help" => some .help
  | .front, "stress" => some (.scenario .stress)
  | .front, "stw" => some (.scenario .stopTheWorld)
  | _, _ => none

/-- What follows the word `help`. -/
def helpFault (words : List String) : UsageFault :=
  match words with
  | [] => .help
  | [w] => if (Keyword.of? .front w).isSome then .help else .unknownScenario
  | _ => .unknownScenario

/-- The fault of a word that has no place. -/
def strayFault (place : Place) (divided : Bool) (word : String) : UsageFault :=
  if place = .front ∧ ¬(divided ∧ (Keyword.of? place word).isSome) then .unknownScenario
  else .unknownArgument

/-- Reads the arguments of one side, up to a scenario's word or the end. -/
def side (place : Place) (p : Progress) :
    List String → Except UsageFault (Progress × Option (ScenarioKind × List String))
  | [] => .ok (p, none)
  | arg :: rest =>
    match if p.isAwaiting then none else Keyword.of? place arg with
    | some .help => .error (helpFault rest)
    | some (.scenario k) => .ok (p, some (k, rest))
    | none =>
      match Shape.of arg with
      | .divider =>
        match rest with
        | [] => .ok (p, none)
        | word :: _ => .error (strayFault place true word)
      | .long name v => do side place (← p.long place name v) rest
      | .short cs => do side place (← p.short place cs) rest
      | .word =>
        match p.pending with
        | some ⟨s, none⟩ => side place { p with pending := some ⟨s, some arg⟩ } rest
        | _ => .error (strayFault place false arg)

def scenarioOf (k : ScenarioKind) (c : Choices) : Scenario :=
  match k with
  | .stress => .stress (c.threads.getD 64) (c.steps.getD 15) (c.stepMs.getD 100)
  | .stopTheWorld => .stopTheWorld (c.workers.getD 8) (c.pauseMs.getD 500)

/-- Both sides together: what is chosen after the scenario's word counts first. -/
def combine (k : ScenarioKind) (front after : Choices) : Arguments :=
  { config := after.config <|> front.config
    mechanism := after.mechanism <|> front.mechanism
    json := after.json || front.json
    verbose := if after.verbose = 0 then front.verbose else after.verbose
    scenario := scenarioOf k after }

/-- Reads the arguments of the program. -/
def parse (args : List String) : Except UsageFault Arguments := do
  let (front, next) ← side .front {} args
  match next with
  | none =>
    let c ← front.resolve
    .error (if c.isEmpty then .nothingGiven else .noScenario)
  | some (k, rest) =>
    let (after, _) ← side (.after k) {} rest
    let after ← after.resolve
    let front ← front.resolve
    .ok (combine k front after)

end Standstill.CommandLine
