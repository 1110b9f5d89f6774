import Standstill.CommandLine.Arguments
import Standstill.Scenario.Freeze
import Standstill.Scenario.Stress
import Standstill.SettingsFile

/-!
The program: from its arguments and the files it can read to what it prints and its exit code.
-/
namespace Standstill

/-- Why a file cannot be read. -/
inductive FileFault
  | missing
  | notAllowed
  | belowFile
  | directory
  | notText
  deriving DecidableEq, Repr

def FileFault.message : FileFault → String
  | .missing => "No such file or directory (os error 2)"
  | .notAllowed => "Permission denied (os error 13)"
  | .belowFile => "Not a directory (os error 20)"
  | .directory => "Is a directory (os error 21)"
  | .notText => "stream did not contain valid UTF-8"

/-- The bytes of a file as text. -/
def textOf (bytes : ByteArray) : Except FileFault String :=
  match String.fromUTF8? bytes with
  | some text => .ok text
  | none => .error .notText

/-- Why the program fails although it has understood its arguments. -/
inductive Failure
  | file (f : FileFault)
  | settings (f : SettingsFileFault)
  | scenario (f : ScenarioFault)
  deriving DecidableEq, Repr

def Failure.message : Failure → String
  | .file f => "cannot read config file: " ++ f.message
  | .settings .unreadable => "Config parse error"
  | .settings (.unusable f) => f.message
  | .scenario f => f.message

/-- The files that the program can read, by name. -/
abbrev Files := String → Except FileFault String

namespace Program

/-- The settings of the file, if there is one; a mechanism among the arguments counts first. -/
def settings (files : Files) (a : CommandLine.Arguments) : Except Failure Settings := do
  let s ← match a.config with
    | none => .ok {}
    | some path => do
      let text ← (files path).mapError .file
      (Settings.read text).mapError .settings
  .ok { s with mechanism := a.mechanism.getD s.mechanism }

def play (s : Settings) : CommandLine.Scenario → Except ScenarioFault Report
  | .stress threads steps stepMs => Stress.play s ⟨threads, steps, stepMs⟩
  | .stopTheWorld workers pauseMs => Freeze.play s ⟨workers, pauseMs⟩

/-- Carries out what the arguments ask for. -/
def run (files : Files) (a : CommandLine.Arguments) : Except Failure Report := do
  let s ← settings files a
  match s.fault? with
  | some f => .error (.settings (.unusable f))
  | none => (play s a.scenario).mapError .scenario

/-- What a run leaves behind. -/
structure Output where
  exitCode : Nat
  stdout : String := ""
  stderr : String := ""
  deriving DecidableEq, Repr

def usage : String :=
  "Scenarios that bring the threads of a service to a standstill\n\n"
  ++ "Usage: standstill [OPTIONS] <COMMAND>\n\n"
  ++ "Commands:\n"
  ++ "  stress  [--threads N] [--steps N] [--step-ms MS]\n"
  ++ "  stw     [--workers N] [--pause-ms MS]\n"
  ++ "  help    Print this message\n\n"
  ++ "Options:\n"
  ++ "  -c, --config <FILE>            TOML file with settings of the service\n"
  ++ "  -m, --mechanism <MECHANISM>    signal or safepoint\n"
  ++ "      --json                     Print the report as JSON\n"
  ++ "  -v, --verbose...               Increase log verbosity\n"
  ++ "  -h, --help                     Print help\n"
  ++ "  -V, --version                  Print version\n"

def version : String := "standstill 0.1.0\n"

/-- What is said to someone who has not asked for a scenario in the right way. -/
def usageOutput (f : CommandLine.UsageFault) : Output :=
  match f with
  | .help => { exitCode := f.exitCode, stdout := usage }
  | .version => { exitCode := f.exitCode, stdout := version }
  | _ => { exitCode := f.exitCode, stderr := usage }

/-- The report as it is asked for, or the reason why there is none. -/
def output (json : Bool) : Except Failure Report → Output
  | .ok r => { exitCode := 0, stdout := if json then r.json ++ "\n" else r.text }
  | .error f => { exitCode := 1, stderr := "Error: " ++ f.message ++ "\n" }

/-- The whole program. -/
def execute (files : Files) (args : List String) : Output :=
  match CommandLine.parse args with
  | .error f => usageOutput f
  | .ok a => output a.json (run files a)

end Program

end Standstill
