import Standstill.Membership
import Standstill.Pooling
import Standstill.Reading

/-!
The calls that a thread can make on a service, each as the instructions it stands for.
-/
namespace Standstill

/-- Through the service, under its guards, or straight on the pool without any. -/
inductive Access
  | guarded
  | raw
  deriving DecidableEq, Repr

inductive MutexCall
  | create (name : String)
  | lock (i : Nat)
  | tryLock (i : Nat)
  | unlock (i : Nat)
  | destroy (i : Nat)
  deriving DecidableEq, Repr

inductive CondCall
  | create (name : String)
  | signal (i : Nat)
  | broadcast (i : Nat)
  | destroy (i : Nat)
  deriving DecidableEq, Repr

/-- A call. Times are in microseconds; `none` is for ever. -/
inductive Call
  | establish (settings : Settings)
  | spawn (s : ServiceId) (options : SpawnOptions)
  | attach (s : ServiceId) (name : String)
  | detach (s : ServiceId)
  | sleep (s : ServiceId) (micros : Nat)
  | shortSleep (s : ServiceId) (micros : Nat)
  /-- Sleeps without a word to any service. -/
  | pause (micros : Nat)
  | yield
  | awaitExit (s : ServiceId) (micros : Option Nat)
  | inquire (s : ServiceId) (h : Handle) (q : Inquiry)
  | forEach (s : ServiceId)
  | snapshot (s : ServiceId)
  | census (s : ServiceId)
  | stats (s : ServiceId)
  | suspend (s : ServiceId) (h : Handle)
  | resume (s : ServiceId) (h : Handle)
  | suspendAll (s : ServiceId)
  | resumeAll (s : ServiceId)
  | awaitSuspended (s : ServiceId) (micros : Nat)
  | stopTheWorld (s : ServiceId) (micros : Nat)
  | safePoint (s : ServiceId)
  | disableSuspend (s : ServiceId)
  | enableSuspend (s : ServiceId)
  | disableSuspendFast (s : ServiceId)
  | enableSuspendFast (s : ServiceId)
  | mutex (s : ServiceId) (a : Access) (c : MutexCall)
  | cond (s : ServiceId) (a : Access) (c : CondCall)
  | condWait (s : ServiceId) (cond mutex : Nat) (micros : Option Nat)
  deriving DecidableEq, Repr

def MutexCall.code (s : ServiceId) : MutexCall → List Instr
  | .create name => locked (.mutexTable s) [.pool (.mutexAllot s name)]
  | .lock i => [.sync (.acquire (.mutexTable s)), .pool (.mutexFind s i .rawLock)]
  | .tryLock i => [.sync (.acquire (.mutexTable s)), .pool (.mutexFind s i .tryLock)]
  | .unlock i => [.sync (.acquire (.mutexTable s)), .pool (.mutexFind s i .unlock)]
  | .destroy i => locked (.mutexTable s) [.pool (.mutexDispose s i)]

def CondCall.code (s : ServiceId) : CondCall → List Instr
  | .create name => locked (.condTable s) [.pool (.condAllot s name)]
  | .signal i => [.sync (.acquire (.condTable s)), .pool (.condFind s i .signal)]
  | .broadcast i => [.sync (.acquire (.condTable s)), .pool (.condFind s i .broadcast)]
  | .destroy i => locked (.condTable s) [.pool (.condDispose s i)]

def sleepCode (s : ServiceId) (micros : Nat) : List Instr :=
  sleeping s .timedWaiting [.sync (.doze micros)]

def suspendAllCode (s : ServiceId) : List Instr :=
  [.stop (.countSuspendAll s), .guard (.raise s .critical), .sync (.acquire (.roster s)),
   .stop (.haltOthers s)]

def inquireCode (s : ServiceId) (h : Handle) (q : Inquiry) : List Instr :=
  [.guard (.raise s .critical), .sync (.acquire (.roster s)), .read (.find s h q)]

namespace Call

/-- The call is refused for its arguments alone. -/
def refusal? : Call → Option Fault
  | .shortSleep _ n =>
    if n = 0 ∨ 1000000 ≤ n then some (.badArgument .shortSleep) else none
  | .inquire _ _ (.setPriority p) =>
    if p < minPriority ∨ maxPriority < p then some (.badArgument .priority) else none
  | _ => none

/-- The instructions of a call that thread `t` makes in world `w`. -/
def code (w : World) (t : ThreadId) : Call → List Instr
  | .establish settings => [.member (.establish settings)]
  | .spawn s o => [.member (.spawn s o)]
  | .attach s name => [.member (.attach s name)]
  | .detach s => [.member (.detach s)]
  | .sleep s n | .shortSleep s n => sleepCode s n
  | .pause n => [.sync (.doze n)]
  | .yield => []
  | .awaitExit s n => [.member (.awaitExit s n)]
  | .inquire s h q => inquireCode s h q
  | .forEach s => guarded s .critical (locked (.roster s) [.read (.all s false)])
  | .snapshot s => guarded s .critical (locked (.roster s) [.read (.all s true)])
  | .census s => guarded s .critical (locked (.roster s) [.read (.census s)])
  | .stats s =>
    guarded s .critical
      (locked (.roster s) [.read (.statsCensus s)]
        ++ locked (.mutexTable s) [.read (.statsMutexes s)]
        ++ locked (.condTable s) [.read (.statsConds s)]
        ++ [.read (.statsCounters s)])
  | .suspend s h =>
    [.stop (.countSuspend s), .guard (.raise s .critical), .sync (.acquire (.roster s)),
     .stop (.suspendFind s h)]
  | .resume s h =>
    [.stop (.countResume s), .guard (.raise s .critical), .sync (.acquire (.roster s)),
     .stop (.resumeFind s h)]
  | .suspendAll s => suspendAllCode s
  | .resumeAll s => resumeAllCode s
  | .awaitSuspended s n => [.stop (.settleStart s n)]
  | .stopTheWorld s n => suspendAllCode s ++ [.stop (.settleStart s n), .stop (.undoStop s)]
  | .safePoint s =>
    match w.selfIn t s with
    | none => []
    | some r => [.park (.check [.request, .level, .phase] (.call (w.mechanism s)) r)]
  | .disableSuspend s => [.guard (.disable s)]
  | .enableSuspend s => [.guard (.enable s)]
  | .disableSuspendFast s => [.guard (.disableFast s)]
  | .enableSuspendFast s => [.guard (.enableFast s)]
  | .mutex s .guarded (.lock i) =>
    [.guard (.raise s .critical), .sync (.acquire (.mutexTable s)),
     .pool (.mutexFind s i .lock)]
  | .mutex s .guarded c => guarded s .critical (c.code s)
  | .mutex s .raw c => c.code s
  | .cond s .guarded c => guarded s .critical (c.code s)
  | .cond s .raw c => c.code s
  | .condWait s c m n =>
    [.guard (.raise s .critical), .sync (.acquire (.condTable s)),
     .pool (.condFind s c (.wait m n))]

end Call

end Standstill
