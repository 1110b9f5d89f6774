/-!
The counts of a condition of the pool, and what each critical section does to them. A waiter keeps
the generation at which it began to wait as its ticket; only a wake-up issued later is for it.
-/
namespace Standstill

structure PoolCondition where
  waiters : Nat := 0
  /-- Wake-ups issued and not yet used. -/
  wakeups : Nat := 0
  /-- Grows with every wake-up that is issued. -/
  generation : Nat := 0
  deriving DecidableEq, Repr

namespace PoolCondition

/-- A thread begins to wait; its ticket is the generation before. -/
def register (c : PoolCondition) : PoolCondition := { c with waiters := c.waiters + 1 }

/-- A waiter with this ticket may use a wake-up. -/
def mayWake (c : PoolCondition) (ticket : Nat) : Bool := 0 < c.wakeups && c.generation != ticket

def consume (c : PoolCondition) : PoolCondition := { c with wakeups := c.wakeups - 1 }

/-- A waiter stops waiting, woken or not. -/
def retire (c : PoolCondition) : PoolCondition :=
  { c with waiters := c.waiters - 1, wakeups := min c.wakeups (c.waiters - 1) }

/-- Some waiter has no wake-up standing for it. -/
def canSignal (c : PoolCondition) : Bool := c.wakeups < c.waiters

def signal (c : PoolCondition) : PoolCondition :=
  if c.canSignal then { c with wakeups := c.wakeups + 1, generation := c.generation + 1 } else c

def canBroadcast (c : PoolCondition) : Bool := 0 < c.waiters

def broadcast (c : PoolCondition) : PoolCondition :=
  if c.canBroadcast then { c with wakeups := c.waiters, generation := c.generation + 1 } else c

end PoolCondition

end Standstill
