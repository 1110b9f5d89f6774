import Standstill.World

/-!
Locks, queues of sleepers and the clock.
-/
namespace Standstill

/-- A critical section under lock `l`. -/
def locked (l : Lock) (body : List Instr) : List Instr :=
  .sync (.acquire l) :: body ++ [.sync (.release l)]

/-- A stretch of code under a guard of the given level. -/
def guarded (s : ServiceId) (level : Level) (body : List Instr) : List Instr :=
  .guard (.raise s level) :: body ++ [.guard (.lower s)]

/-- Ends a critical section on the roster of `s` that lies in a guard of its own. -/
def leaveRoster (s : ServiceId) : List Instr :=
  [.sync (.release (.roster s)), .guard (.lower s)]

namespace World

def isFree (w : World) (l : Lock) : Bool := (w.holder? l).isNone

/-- The deadline has come. -/
def isDue (w : World) : Option Nat → Bool
  | none => false
  | some d => d ≤ w.clock

end World

namespace SyncInstr

/-- The instruction need not wait any longer. -/
def isReady (w : World) (t : ThreadId) : SyncInstr → Bool
  | .acquire l => w.isFree l
  | .resting q d => !w.asleep.contains (q, t) || w.isDue d
  | .dozing d => d ≤ w.clock
  | _ => true

def run (t : ThreadId) (w : World) : SyncInstr → Effect
  | .acquire l => ({ w with held := (l, t) :: w.held }, [])
  | .release l => ({ w with held := w.held.erase (l, t) }, [])
  | .wait q l d =>
    ({ w with held := w.held.erase (l, t), asleep := w.asleep ++ [(q, t)] },
     [.sync (.resting q d), .sync (.acquire l)])
  | .resting q _ => ({ w with asleep := w.asleep.erase (q, t) }, [])
  | .notifyOne q => (w.wakeFirst q, [])
  | .notifyAll q => (w.wakeAll q, [])
  | .doze n => (w, [.sync (.dozing (w.clock + n))])
  | .dozing _ => (w, [])

end SyncInstr

end Standstill
