import Standstill.Settings
import Standstill.Stats
import Standstill.Text.Quoted

/-!
The report of a scenario, as indented JSON and as text.
-/
namespace Standstill

namespace Stats

/-- The figures as one line of JSON. -/
def json (s : Stats) : String :=
  "\x7b" ++ ",".intercalate (s.fields.map fun (name, n) => Quoted.json name ++ ":" ++ toString n)
  ++ "\x7d"

end Stats

structure Report where
  scenario : String
  mechanism : Mechanism
  detail : String
  stats : Stats
  deriving DecidableEq, Repr

namespace Report

/-- One member of an object on a line of its own. -/
def member (indent : Nat) (name value : String) : String :=
  "".pushn ' ' indent ++ Quoted.json name ++ ": " ++ value

/-- An object with each member on a line of its own. -/
def object (indent : Nat) (members : List (String × String)) : String :=
  "\x7b\n" ++ ",\n".intercalate (members.map fun (name, value) => member (indent + 2) name value)
  ++ "\n" ++ "".pushn ' ' indent ++ "\x7d"

def json (r : Report) : String :=
  object 0
    [("scenario", Quoted.json r.scenario), ("mechanism", Quoted.json r.mechanism.name),
     ("detail", Quoted.json r.detail),
     ("stats", object 2 (r.stats.fields.map fun (name, n) => (name, toString n)))]

def text (r : Report) : String := r.scenario ++ ": " ++ r.detail ++ "\n" ++ r.stats.text

end Report

end Standstill
