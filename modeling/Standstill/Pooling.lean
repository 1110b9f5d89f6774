import Standstill.Guarding

/-!
The two pools of a service. An operation finds its object under the lock of the slot table and then
works on the object, so a slot may be given back while somebody still sleeps on what it held.
-/
namespace Standstill

namespace World

def mutexSlots (w : World) (s : ServiceId) : Slots MutexRef :=
  match w.services[s]? with
  | some v => v.mutexes
  | none => .empty 0

def condSlots (w : World) (s : ServiceId) : Slots CondRef :=
  match w.services[s]? with
  | some v => v.conds
  | none => .empty 0

def setMutexSlots (w : World) (s : ServiceId) (p : Slots MutexRef) : World :=
  w.modService s fun v => { v with mutexes := p }

def setCondSlots (w : World) (s : ServiceId) (p : Slots CondRef) : World :=
  w.modService s fun v => { v with conds := p }

def mutex (w : World) (m : MutexRef) : PoolLock :=
  match w.mutexes[m]? with
  | some x => x
  | none => {}

def cond (w : World) (c : CondRef) : PoolCondition :=
  match w.conds[c]? with
  | some x => x
  | none => {}

end World

/-- Takes a mutex, sleeping for as long as another thread owns it. -/
def takeCode (s : ServiceId) (m : MutexRef) : List Instr :=
  locked (.mutexState m) [.pool (.take s m)]

/-- A call that may sleep on a pool object: phase and level are set for the time of `body`. -/
def sleeping (s : ServiceId) (p : Phase) (body : List Instr) : List Instr :=
  .guard (.enter s p) :: guarded s .blocking body ++ [.guard .leave]

/-- What follows once the mutex looked for is found to be `m`. -/
def MutexUse.found (s : ServiceId) (m : MutexRef) : MutexUse → List Instr
  | .lock => .guard (.lower s) :: sleeping s .blocked (takeCode s m)
  | .rawLock => takeCode s m
  | .tryLock => locked (.mutexState m) [.pool (.tryTake m)]
  | .unlock => [.sync (.acquire (.mutexState m)), .pool (.giveUp m)]
  | .wait c micros =>
    .guard (.lower s) ::
      sleeping s (if micros.isSome then .timedWaiting else .waiting)
        [.sync (.acquire (.mutexState m)), .pool (.waitOwner s c m micros)]

/-- What follows if there is no such mutex: guards that `found` would have closed are closed. -/
def MutexUse.missing (s : ServiceId) : MutexUse → List Instr
  | .lock | .wait .. => [.guard (.lower s)]
  | _ => []

def CondUse.found (s : ServiceId) (c : CondRef) : CondUse → List Instr
  | .signal => locked (.condState c) [.pool (.signal c)]
  | .broadcast => locked (.condState c) [.pool (.broadcast c)]
  | .wait i micros => [.sync (.acquire (.mutexTable s)), .pool (.mutexFind s i (.wait c micros))]

def CondUse.missing (s : ServiceId) : CondUse → List Instr
  | .wait .. => [.guard (.lower s)]
  | _ => []

namespace PoolInstr

def run (t : ThreadId) (w : World) : PoolInstr → Effect
  | .mutexAllot s name =>
    match (w.mutexSlots s).allocate name w.mutexes.length with
    | .error f => (w.fail t f, [])
    | .ok (i, p) =>
      let w := { w with mutexes := w.mutexes ++ [({} : PoolLock)] }
      ((w.setMutexSlots s p).answer t (.number i), [])
  | .mutexFind s i use =>
    match (w.mutexSlots s).get i with
    | .error f => (w.fail t f, .sync (.release (.mutexTable s)) :: use.missing s)
    | .ok m => (w, .sync (.release (.mutexTable s)) :: use.found s m)
  | .tryTake m =>
    match (w.mutex m).tryTake t with
    | .error f => (w.fail t f, [])
    | .ok x => (w.modMutex m fun _ => x, [])
  | .take s m =>
    if (w.mutex m).isOwnedBy t then (w.fail t .wouldDeadlock, [])
    else if (w.mutex m).isTaken then
      (w, [.sync (.wait (.mutex m) (.mutexState m) none), .pool (.retake s m w.clock)])
    else (w.modMutex m fun x => x.take t, [])
  | .retake s m since =>
    if (w.mutex m).isTaken then
      (w, [.sync (.wait (.mutex m) (.mutexState m) none), .pool (.retake s m since)])
    else
      ((w.count s (.contention (.ofMicroseconds (w.clock - since)))).modMutex m fun x => x.take t,
       [])
  | .giveUp m =>
    match (w.mutex m).giveUp t with
    | .error f => (w.fail t f, [.sync (.release (.mutexState m))])
    | .ok x =>
      (w.modMutex m fun _ => x,
       [.sync (.release (.mutexState m)), .sync (.notifyOne (.mutex m))])
  | .mutexDispose s i =>
    match (w.mutexSlots s).get i with
    | .error f => (w.fail t f, [])
    | .ok m => (w, [.sync (.acquire (.mutexState m)), .pool (.mutexIdle s i m)])
  | .mutexIdle s i m =>
    if (w.mutex m).isTaken then (w.fail t .busy, [.sync (.release (.mutexState m))])
    else (w, [.sync (.release (.mutexState m)), .pool (.mutexFree s i)])
  | .mutexFree s i => (w.setMutexSlots s ((w.mutexSlots s).free i), [])
  | .condAllot s name =>
    match (w.condSlots s).allocate name w.conds.length with
    | .error f => (w.fail t f, [])
    | .ok (i, p) =>
      let w := { w with conds := w.conds ++ [({} : PoolCondition)] }
      ((w.setCondSlots s p).answer t (.number i), [])
  | .condFind s i use =>
    match (w.condSlots s).get i with
    | .error f => (w.fail t f, .sync (.release (.condTable s)) :: use.missing s)
    | .ok c => (w, .sync (.release (.condTable s)) :: use.found s c)
  | .signal c =>
    if (w.cond c).canSignal then
      (w.modCond c fun x => x.signal, [.sync (.notifyAll (.cond c))])
    else (w, [])
  | .broadcast c =>
    if (w.cond c).canBroadcast then
      (w.modCond c fun x => x.broadcast, [.sync (.notifyAll (.cond c))])
    else (w, [])
  | .condDispose s i =>
    match (w.condSlots s).get i with
    | .error f => (w.fail t f, [])
    | .ok c => (w, [.sync (.acquire (.condState c)), .pool (.condIdle s i c)])
  | .condIdle s i c =>
    if 0 < (w.cond c).waiters then (w.fail t .busy, [.sync (.release (.condState c))])
    else (w, [.sync (.release (.condState c)), .pool (.condFree s i)])
  | .condFree s i => (w.setCondSlots s ((w.condSlots s).free i), [])
  | .waitOwner s c m micros =>
    if (w.mutex m).isOwnedBy t then
      (w, [.sync (.release (.mutexState m)), .pool (.waitClock s c m micros)])
    else (w.fail t .notOwner, [.sync (.release (.mutexState m))])
  | .waitClock s c m micros =>
    (w, [.sync (.acquire (.condState c)),
         .pool (.waitRegister ⟨s, c, m, micros.map (w.clock + ·)⟩)])
  | .waitRegister x =>
    (w.modCond x.cond fun c => c.register,
     [.sync (.acquire (.mutexState x.mutex)),
      .pool (.waitGiveUp x (w.cond x.cond).generation)])
  | .waitGiveUp x ticket =>
    match (w.mutex x.mutex).giveUp t with
    | .error f =>
      (w.fail t f, [.sync (.release (.mutexState x.mutex)), .sync (.release (.condState x.cond))])
    | .ok m =>
      (w.modMutex x.mutex fun _ => m,
       [.sync (.release (.mutexState x.mutex)), .sync (.notifyOne (.mutex x.mutex)),
        .pool (.waitCheck x ticket)])
  | .waitCheck x ticket =>
    if (w.cond x.cond).mayWake ticket then
      (w.modCond x.cond fun c => c.consume, [.pool (.waitRetire x)])
    else if w.isDue x.deadline then (w.fail t .timeout, [.pool (.waitRetire x)])
    else
      (w, [.sync (.wait (.cond x.cond) (.condState x.cond) x.deadline),
           .pool (.waitCheck x ticket)])
  | .waitRetire x =>
    (w.modCond x.cond fun c => c.retire,
     .sync (.release (.condState x.cond)) :: takeCode x.service x.mutex)

end PoolInstr

end Standstill
