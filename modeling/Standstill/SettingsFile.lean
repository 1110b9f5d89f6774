import Standstill.Settings
import Standstill.Toml.Document

/-!
Settings read from a document: each known member overrides one of the defaults, any other is passed
over.
-/
namespace Standstill

/-- Why a document gives no settings that can be used. -/
inductive SettingsFileFault
  /-- It is not a document, or a known member is of the wrong type. -/
  | unreadable
  | unusable (f : SettingsFault)
  deriving DecidableEq, Repr

namespace Settings

/-- The number under a key, which must not be negative. -/
def number? (ms : Toml.Members) (key : String) (default : Nat) : Option Nat :=
  match ms.lookup key with
  | none => some default
  | some (.integer n) => if 0 ≤ n then some n.toNat else none
  | some _ => none

/-- A value with nothing in it, as may stand beside the name of a mechanism. -/
def isVoid : Toml.Value → Bool
  | .table _ ms => ms.isEmpty
  | .array vs => vs.isEmpty
  | _ => false

/-- A mechanism by its name, or by a table with the name as its only key. -/
def mechanismOf? : Toml.Value → Option Mechanism
  | .text name => Mechanism.ofName? name
  | .table _ [(name, v)] => if isVoid v then Mechanism.ofName? name else none
  | _ => none

def mechanism? (ms : Toml.Members) (default : Mechanism) : Option Mechanism :=
  match ms.lookup "stop_mechanism" with
  | none => some default
  | some v => mechanismOf? v

/-- The settings that the members of a document say. -/
def ofMembers? (ms : Toml.Members) : Option Settings := do
  let d : Settings := {}
  some
    { mutexCapacity := ← number? ms "mutex_capacity" d.mutexCapacity
      condCapacity := ← number? ms "cond_capacity" d.condCapacity
      stackSize := ← number? ms "default_stack_size" d.stackSize
      mechanism := ← mechanism? ms d.mechanism
      warnAfterMs := ← number? ms "suspend_warn_after_ms" d.warnAfterMs }

/-- The usable settings that a document says. -/
def read (text : String) : Except SettingsFileFault Settings :=
  match (Toml.parse? text).bind ofMembers? with
  | none => .error .unreadable
  | some s =>
    match s.fault? with
    | some f => .error (.unusable f)
    | none => .ok s

end Settings

end Standstill
