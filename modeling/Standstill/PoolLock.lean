import Standstill.Fault
import Standstill.ThreadRecord

/-!
A mutex of the pool. It knows its owner and is not recursive.
-/
namespace Standstill

structure PoolLock where
  owner : Option ThreadId := none
  deriving DecidableEq, Repr

namespace PoolLock

def isTaken (m : PoolLock) : Bool := m.owner.isSome

def isOwnedBy (m : PoolLock) (t : ThreadId) : Bool := m.owner == some t

/-- Takes the mutex only if it is free. -/
def tryTake (m : PoolLock) (t : ThreadId) : Except Fault PoolLock :=
  if m.isTaken then .error .busy else .ok { m with owner := some t }

def take (m : PoolLock) (t : ThreadId) : PoolLock := { m with owner := some t }

def giveUp (m : PoolLock) (t : ThreadId) : Except Fault PoolLock :=
  if m.isOwnedBy t then .ok { m with owner := none } else .error .notOwner

end PoolLock

end Standstill
