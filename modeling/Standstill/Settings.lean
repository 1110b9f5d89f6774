/-!
How a service is set up, the limits it keeps, and which settings are usable.
-/
namespace Standstill

/-- How a running thread is made to stop: by a signal sent to it, or by itself at a safe point. -/
inductive Mechanism
  | signal
  | safepoint
  deriving DecidableEq, Repr

def Mechanism.name : Mechanism → String
  | .signal => "signal"
  | .safepoint => "safepoint"

def Mechanism.ofName? : String → Option Mechanism
  | "signal" => some .signal
  | "safepoint" => some .safepoint
  | _ => none

/-- Smallest stack that a thread may be given, in bytes. -/
def minStackSize : Nat := 16 * 1024

/-- Stack of a thread that asks for none in particular, in bytes. -/
def defaultStackSize : Nat := 256 * 1024

def minPriority : Int := 1
def normalPriority : Int := 5
def maxPriority : Int := 10

structure Settings where
  mutexCapacity : Nat := 1024
  condCapacity : Nat := 1024
  stackSize : Nat := defaultStackSize
  mechanism : Mechanism := .signal
  /-- A thread that waits longer than this for another to stop says so in the log. -/
  warnAfterMs : Nat := 1000
  deriving DecidableEq, Repr

/-- Settings that no service can be built from. -/
inductive SettingsFault
  | noMutexes
  | noConds
  | smallStack
  deriving DecidableEq, Repr

def SettingsFault.message : SettingsFault → String
  | .noMutexes => "Invalid config: mutex_capacity must be non-zero"
  | .noConds => "Invalid config: cond_capacity must be non-zero"
  | .smallStack => "Invalid config: default_stack_size below MIN_STACK_SIZE"

/-- The first of the settings that cannot be used, if there is one. -/
def Settings.fault? (s : Settings) : Option SettingsFault :=
  if s.mutexCapacity = 0 then some .noMutexes
  else if s.condCapacity = 0 then some .noConds
  else if s.stackSize < minStackSize then some .smallStack
  else none

end Standstill
