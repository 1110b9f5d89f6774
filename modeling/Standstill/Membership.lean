import Standstill.Stopping

/-!
Services, and threads that join and leave them. A thread that a service starts registers itself,
waits until the start gate is open, and is counted from then until it has run its last section.
-/
namespace Standstill

/-- Whoever asks the system for a thread under a name with a NUL in it panics. -/
def isRefusedName (name : String) : Bool := name.toList.contains '\x00'

/-- The stack of a thread that a service with settings `x` starts with options `o`. -/
def SpawnOptions.stackFor (o : SpawnOptions) (x : Settings) : Nat :=
  if o.stackSize = 0 then x.stackSize else o.stackSize

/-- All that a thread started by a service does, its own code in the middle. -/
def threadCode (s : ServiceId) (r : RecordId) : List Instr :=
  [.member (.own r), .member (.bind r), .member (.capture r), .guard (.setPhase r .started),
   .guard (.raise s .blocking), .sync (.acquire (.roster s)), .member (.gateEnter s r),
   .member (.gateWait s r),
   .user,
   .member (.exitRaise s r)]

/-- Reads the count of live threads for a refusal. -/
def refuseCode (s : ServiceId) : List Instr :=
  guarded s .critical (locked (.roster s) [.member (.noThread s)])

namespace World

/-- Puts a new record into the world. -/
def addRecord (w : World) (c : ThreadRecord) : World :=
  { w with records := w.records ++ [c], nextHandle := w.nextHandle + 1 }

def addThread (w : World) (x : Thread) : World := { w with threads := w.threads ++ [x] }

def addService (w : World) (v : Service) : World := { w with services := w.services ++ [v] }

def setBinding (w : World) (t : ThreadId) (b : Option RecordId) : World :=
  w.modThread t fun x => { x with binding := b }

end World

/-- Registers a record that is bound and running, and makes it the caller's. -/
def publishCode (s : ServiceId) (r : RecordId) : List Instr :=
  locked (.roster s) [.member (.publish s r)] ++ [.member (.bind r)]

namespace MemberInstr

def run (t : ThreadId) (w : World) : MemberInstr → Effect
  | .establish settings =>
    let s := w.services.length
    let r := w.records.length
    let main := ThreadRecord.create w.nextHandle s "main" normalPriority 0 false
    let service : Service :=
      { settings, main := w.nextHandle, mutexes := .empty settings.mutexCapacity,
        conds := .empty settings.condCapacity }
    (((w.addService service).addRecord
        { main.bindTo t with phase := .running, started := true }).answer t
        (.service s w.nextHandle),
     publishCode s r)
  | .publish s r =>
    match w.handleOf r with
    | none => (w, [])
    | some h => ((w.modRoster s fun g => g.insert h r).modCensus s fun c => c.arrive, [])
  | .bind r => (w.setBinding t (some r), [])
  | .unbind h =>
    match w.threads[t]? with
    | none => (w, [])
    | some x =>
      if x.binding.bind w.handleOf = some h then (w.setBinding t none, []) else (w, [])
  | .attach s name =>
    match w.selfIn t s with
    | some r =>
      match w.handleOf r with
      | some h => (w.answer t (.handle h), [])
      | none => (w, [])
    | none =>
      let c := ThreadRecord.create w.nextHandle s name normalPriority 0 true
      ((w.addRecord { c.bindTo t with phase := .running, started := true }).answer t
        (.handle w.nextHandle),
       publishCode s w.records.length)
  | .detach s =>
    match w.selfIn t s with
    | none => (w.fail t .unknownHandle, [])
    | some r =>
      if w.services[s]?.map (·.main) = w.handleOf r then (w.fail t .notOwner, [])
      else (w, [.member (.detachRaise s r)])
  | .detachRaise s r =>
    (w.setLevel r .critical,
     [.sync (.acquire (.roster s)), .member (.detachRemove s r (w.levelOf r))])
  | .detachRemove s r previous =>
    match w.handleOf r with
    | none => (w, [.sync (.release (.roster s))])
    | some h =>
      match (w.roster s).removeBy w.ownerOf t h with
      | .error f => (w.fail t f, [.sync (.release (.roster s))])
      | .ok (_, g) =>
        ((w.modRoster s fun _ => g).modCensus s fun c => c.leave,
         [.sync (.release (.roster s)), .sync (.notifyAll (.roster s)), .member (.unbind h),
          .member (.clearRequest r), .member (.setLevel r previous)])
  | .clearRequest r => (w.setRequest r false, [])
  | .setLevel r level => (w.setLevel r level, [])
  | .spawn s o =>
    if o.priority < minPriority ∨ maxPriority < o.priority then
      (w.fail t (.badArgument .priority), [])
    else if o.stackSize = 0 then
      match w.services[s]? with
      | none => (w, [])
      | some v => (w, [.member (.spawnRecord s o v.settings.stackSize)])
    else if o.stackSize < minStackSize then (w.fail t (.badArgument .stackSize), [])
    else (w, [.member (.spawnRecord s o o.stackSize)])
  | .spawnRecord s o stackSize =>
    (w.addRecord (.create w.nextHandle s o.name o.priority stackSize o.daemon),
     [.member (.spawnNative s w.records.length)])
  | .spawnNative s r =>
    match w.records[r]?, w.threads[t]? with
    | some c, some x =>
      if isRefusedName c.name then (w.say t .panicked, [])
      else
        match w.system.thread with
        | .refused e =>
          if e.isShortage then (w, refuseCode s) else (w.fail t (.badArgument .nativeThread), [])
        | .granted =>
          ((w.addThread { code := threadCode s r, masked := x.masked }).answer t
            (.handle c.handle),
           [.guard (.raise s .blocking), .sync (.acquire (.roster s)), .member (.spawnWait s r)])
    | _, _ => (w, [])
  | .noThread s => (w.fail t (.exhausted (w.census s).live), [])
  | .spawnWait s r =>
    match w.records[r]? with
    | none => (w, leaveRoster s)
    | some c =>
      (w, if c.started then leaveRoster s
          else [.sync (.wait (.roster s) (.roster s) none), .member (.spawnWait s r)])
  | .own r => (w.modRecord r fun c => { c with owner := some t }, [])
  | .capture r => (w.modRecord r fun c => { c with baseSet := true, stackTop := .base }, [])
  | .gateEnter s r =>
    match w.handleOf r with
    | none => (w, [])
    | some h => ((w.modRoster s fun g => g.insert h r).modCensus s fun c => c.queueUp, [])
  | .gateWait s r =>
    (w, if (w.census s).allSuspended then
          [.sync (.wait (.roster s) (.roster s) none), .member (.gateWait s r)]
        else
          [.member (.gatePass s r), .guard (.setPhase r .running), .member (.noteStarted r),
           .sync (.release (.roster s)), .sync (.notifyAll (.roster s)), .guard (.lower s)])
  | .gatePass s r =>
    match w.records[r]? with
    | none => (w, [])
    | some c => (w.modCensus s fun x => x.passGate c.daemon, [])
  | .noteStarted r => (w.modRecord r fun c => { c with started := true }, [])
  | .mourn s r => (w, guarded s .critical (locked (.name r) []))
  | .exitRaise s r =>
    (w.setLevel r .blocking,
     (if w.levelOf r = .blocking then [] else [.guard (.mask s)])
       ++ [.sync (.acquire (.roster s)), .member (.exitRemove s r)])
  | .exitRemove s r =>
    match w.records[r]? with
    | none => (w, [.sync (.release (.roster s))])
    | some c =>
      let removed :=
        match (w.roster s).removeBy w.ownerOf t c.handle with
        | .error _ => w
        | .ok (_, g) => w.modRoster s fun _ => g
      (removed.modCensus s fun x => x.finish c.daemon,
       [.sync (.release (.roster s)), .sync (.notifyAll (.roster s)),
        .member (.unbind c.handle)])
  | .awaitExit s micros =>
    (w, [.guard (.raise s .blocking), .sync (.acquire (.roster s)),
         .member (.awaitExitCheck s (micros.map (w.clock + ·)))])
  | .awaitExitCheck s d =>
    if (w.census s).nonDaemon = 0 then (w, leaveRoster s)
    else if w.isDue d then (w.fail t .timeout, leaveRoster s)
    else (w, [.sync (.wait (.roster s) (.roster s) d), .member (.awaitExitCheck s d)])

end MemberInstr

end Standstill
