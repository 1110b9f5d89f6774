import Standstill.Schedule

/-!
One thread alone with a service that it is not attached to.
-/
namespace Standstill.Solo

/-- A service nobody belongs to, and one thread. -/
def world (settings : Settings) : World :=
  (World.initial 1).addService
    { settings, main := 0, mutexes := .empty settings.mutexCapacity,
      conds := .empty settings.condCapacity }

/-- Nobody does anything without being told. -/
def idle : Schedule.Script Unit := fun _ _ => none

/-- Makes a call and lets it come to its end; it has none if the thread sleeps for ever. -/
def call (w : World) (c : Call) : Option Outcome × World :=
  let w := (Schedule.drain idle [0] (w.invoke 0 c, ())).1
  (if w.inUser 0 then w.threads[0]?.map (·.outcome) else none, w)

end Standstill.Solo
