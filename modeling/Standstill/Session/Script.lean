import Standstill.Session.Actor

/-!
Running a script. Each line is carried out with all its consequences before the next one begins.
-/
namespace Standstill.Session

/-- What a command comes down to. -/
inductive Plan
  /-- It is answered at once. -/
  | now (r : Result)
  | task (k : Task)
  deriving DecidableEq, Repr

namespace Plan

def value (r : Report) : Plan := .now (.done r)

def unit : Plan := .value (.value .unit)

def calls (cs : List Call) (shape : Shape) : Plan := .task { acts := cs.map .call, shape }

def call (c : Call) : Plan := .calls [c] .plain

/-- A call that ends by itself after `ms`; one second counts as for ever. -/
def timedCall (c : Call) (ms : Nat) (shape : Shape) : Plan :=
  .task { acts := [.call c], shape, timed := ms < 1000 }

end Plan

/-- The handle that a command means. -/
def handleOf? (w : World) (t : ThreadId) (s : ServiceId) : Who → Option Handle
  | .handle h => some h
  | .main => w.services[s]?.map (·.main)
  | .self => (w.selfIn t s).bind w.handleOf

/-- Plans a command about the thread that `who` means. -/
def withHandle (w : World) (t : ThreadId) (s : ServiceId) (who : Who) (f : Handle → Plan) :
    Plan :=
  match handleOf? w t s who with
  | some h => f h
  | none => .now (.badInput "h")

def rowsOf (w : World) (rs : List RecordId) : List ThreadRecord :=
  sortByHandle (rs.filterMap (w.records[·]?))

def slotName {α : Type} (p : Slots α) (i : Nat) : Plan :=
  match p.nameAt i with
  | .ok name => .value (.value (.text name))
  | .error f => .now (.fault f)

/-- The indices of the slots of `v` whose mutex thread `t` owns. -/
def ownedSlots (w : World) (t : ThreadId) (v : Service) : List Nat :=
  v.mutexes.slots.zipIdx.filterMap fun (x, i) =>
    if x.used && x.value.any fun m => (w.mutex m).isOwnedBy t then some i else none

def viewPlan (s : ServiceId) (h : Handle) : View → Plan
  | .plain q => .call (.inquire s h q)
  | .lookup => .calls [.inquire s h .record] .lookup
  | .debug => .calls [.inquire s h .record] .debug

/-- The plan of a request to service `s`, which is `v`, by thread `t`. -/
def requestPlan (w : World) (c : Cast) (t : ThreadId) (s : ServiceId) (v : Service) :
    Request → Plan
  | .malformed field => .now (.badInput field)
  | .dropService => .unit
  | .settings => .value (.settings v.settings)
  | .mechanism => .value (.mechanism v.settings.mechanism)
  | .mainHandle => .value (.value (.handle v.main))
  | .currentHandle => .value (.handle? ((w.selfIn t s).bind w.handleOf))
  | .spawn actor o =>
    if (c.find? actor).isSome then .now (.badInput "actor") else .call (.spawn s o)
  | .attach name => .call (.attach s name)
  | .detach => .call (.detach s)
  | .sleep ms => .timedCall (.sleep s (ms * 1000)) ms .plain
  | .shortSleep micros => .timedCall (.shortSleep s micros) 0 .plain
  | .yield => .call .yield
  | .awaitExit none => .call (.awaitExit s none)
  | .awaitExit (some ms) => .timedCall (.awaitExit s (some (ms * 1000))) ms .plain
  | .inquire who view => withHandle w t s who fun h => viewPlan s h view
  | .forEach => .calls [.forEach s] .rows
  | .snapshot => .call (.snapshot s)
  | .counts => .calls [.census s] .counts
  | .census => .call (.census s)
  | .stats => .call (.stats s)
  | .contention => .value (.value (.number v.counters.contentionCount.toNat))
  | .suspend who => withHandle w t s who fun h => .call (.suspend s h)
  | .resume who => withHandle w t s who fun h => .call (.resume s h)
  | .suspendAll => .call (.suspendAll s)
  | .resumeAll => .call (.resumeAll s)
  | .awaitSuspended ms => .timedCall (.awaitSuspended s (ms * 1000)) ms .plain
  | .stopTheWorld ms => .timedCall (.stopTheWorld s (ms * 1000)) ms (.guard s)
  | .safePoint => .call (.safePoint s)
  | .disableSuspend => .call (.disableSuspend s)
  | .enableSuspend => .call (.enableSuspend s)
  | .disableSuspendFast => .call (.disableSuspendFast s)
  | .enableSuspendFast => .call (.enableSuspendFast s)
  | .mutex a x => .call (.mutex s a x)
  | .cond a x => .call (.cond s a x)
  | .condWait x m none => .call (.condWait s x m none)
  | .condWait x m (some ms) => .timedCall (.condWait s x m (some (ms * 1000))) ms .plain
  | .waitUnlock x m => .calls [.condWait s x m none, .mutex s .guarded (.unlock m)] .both
  | .slotName .mutex i => slotName v.mutexes i
  | .slotName .cond i => slotName v.conds i
  | .pools =>
    .value (.pools (v.mutexes.inUse, v.mutexes.capacity) (v.conds.inUse, v.conds.capacity))
  | .sideRegister who =>
    withHandle w t s who fun h => .calls [.inquire s h .record] (.sideRegister s h)
  | .sideLookup who =>
    withHandle w t s who fun h => .value (.handle? ((c.side.lookup h).map fun _ => h))
  | .sideRemove who =>
    withHandle w t s who fun h =>
      match c.side.removeBy w.ownerOf t h with
      | .ok _ => .value (.value (.handle h))
      | .error f => .now (.fault f)
  | .sideInfo => .value (.side (rowsOf w c.side.records))

/-- Actor `a` lets go of the worlds that it has stopped, and ends. -/
def endPlan (a : Actor) (panicked : Bool) : Plan :=
  .task { acts := a.guards.map (.call <| .resumeAll ·) ++ [.finish panicked], shape := .unit }

/-- The plan of a command given to actor `a`. -/
def plan (w : World) (c : Cast) (a : Actor) : Command → Plan
  | .establish settings =>
    match settings.fault? with
    | some f => .now (.unusable f)
    | none => .call (.establish settings)
  | .exit => endPlan a false
  | .panic => endPlan a true
  | .polling _ => .unit
  | .signalBlocked =>
    .value (.value (.flag (match w.threads[a.thread]? with | some x => x.masked | none => false)))
  | .releaseAll =>
    .calls
      (w.services.zipIdx.flatMap fun (v, s) =>
        (ownedSlots w a.thread v).map fun i => .mutex s .raw (.unlock i)) .unit
  | .endStop =>
    match a.guards with
    | [] => .now (.badInput "no guard")
    | s :: _ => .calls [.resumeAll s] .unit
  | .on s r =>
    match w.services[s]? with
    | none => .now (.badInput "rt")
    | some v => if s ∈ c.dropped then .now (.badInput "rt") else requestPlan w c a.thread s v r

/-- What a command changes beside the world as soon as it is given. -/
def prepare (w : World) (a : Actor) (c : Cast) : Command → Cast
  | .polling on => c.modify a.thread fun a => { a with polling := on }
  | .endStop => c.modify a.thread fun a => { a with guards := a.guards.tail }
  | .on s .dropService => if s < w.services.length then { c with dropped := s :: c.dropped } else c
  | .on s (.sideRemove who) =>
    match handleOf? w a.thread s who with
    | none => c
    | some h =>
      match c.side.removeBy w.ownerOf a.thread h with
      | .ok (_, g) => { c with side := g }
      | .error _ => c
  | _ => c

/-- Somebody's command is to be waited for and only time lets it go on. -/
def isTimed (p : World × Cast) : Bool :=
  p.2.actors.any fun a => (a.task.any (·.timed)) && (p.1.deadline? a.thread).isSome

/-- Lets everybody go on, and time too while a command is waited for; at most `n` times. -/
def settleFor : Nat → List ThreadId → World × Cast → World × Cast
  | 0, first, p => Schedule.drain own first p
  | n + 1, first, p =>
    let p := Schedule.drain own first p
    match isTimed p, p.1.nextDeadline? with
    | true, some d => settleFor n [] (p.1.tick (d - p.1.clock), p.2)
    | _, _ => p

/-- Each round of waiting brings some thread to its deadline, and a thread has one at most. -/
def settle (first : List ThreadId) (p : World × Cast) : World × Cast :=
  settleFor (4 * p.1.threads.length + 4) first p

/-- Gives the actor named for a new thread its place. -/
def welcome (before : Nat) (w : World) (c : Cast) : Command → Cast
  | .on _ (.spawn actor _) =>
    match w.threads[before]? with
    | none => c
    | some _ =>
      let stackSize :=
        match w.records.find? (·.owner == some before) with
        | some r => r.stackSize
        | none => 0
      { c with
        actors := c.actors ++
          [{ name := actor, thread := before, tiny := stackSize < 128 * 1024 }] }
  | _ => c

/-- Why a command is not carried out at all. -/
def hindrance? (w : World) (a : Actor) (c : Command) : Option Reply :=
  if w.isGone a.thread then some .gone
  else if a.task.isSome then some .busy
  else if !w.inUser a.thread then
    some (if (w.threads[a.thread]?.bind (·.binding)).any fun r => w.phaseOf r = .suspended
      then .parked else .busy)
  else if a.tiny && c != .exit then some .smallStack
  else none

/-- The reply of actor `a` to the command that it has just been given. -/
def replyOf (w : World) (a : Actor) : Reply :=
  match a.answer with
  | some r => r
  | none => if w.isGone a.thread then .exited else .pending

/-- Replies of the other actors to earlier commands. -/
def finishedOthers (w : World) (c : Cast) (me : Option ThreadId) (busy : List ThreadId) :
    List (String × Reply) :=
  c.actors.filterMap fun a =>
    if some a.thread = me then none
    else match a.answer with
      | some r => some (a.name, r)
      | none => if busy.contains a.thread && w.isGone a.thread then some (a.name, .exited) else none

def sights (w : World) (c : Cast) : List (Option Sight) :=
  w.services.zipIdx.map fun (v, s) =>
    if s ∈ c.dropped then none
    else some ⟨v.roster.census, rowsOf w v.roster.records⟩

/-- The threads that have a command under way. -/
def engaged (w : World) (c : Cast) : List ThreadId :=
  (c.actors.filter fun a => a.task.isSome && !w.isGone a.thread).map (·.thread)

def clearAnswers (c : Cast) : Cast :=
  { c with actors := c.actors.map fun a => { a with answer := none } }

/-- Writes down what there is to be seen after a line. -/
def record (busy : List ThreadId) (me : Option ThreadId) (reply : Reply) (p : World × Cast) :
    Entry × (World × Cast) :=
  (⟨reply, finishedOthers p.1 p.2 me busy, sights p.1 p.2⟩, (p.1, clearAnswers p.2))

/-- Carries out a command that actor `a` is free to take. -/
def carryOut (w : World) (c : Cast) (a : Actor) (x : Command) (async : Bool) :
    Entry × (World × Cast) :=
  let busy := engaged w c
  let c' := prepare w a c x
  match plan w c a x with
  | .now r => record busy (some a.thread) (.result r) (w, c')
  | .task k =>
    let k := { k with timed := k.timed && !async }
    let p := settle [a.thread] (w, c'.modify a.thread fun a => { a with task := some k })
    let c'' := welcome w.threads.length p.1 p.2 x
    let reply :=
      match c''.onThread? a.thread with
      | some a => replyOf p.1 a
      | none => .noActor
    record busy (some a.thread) reply (p.1, c'')

def play (p : World × Cast) : Line → Entry × (World × Cast)
  | .pause ms =>
    let busy := engaged p.1 p.2
    let target := p.1.clock + ms * 1000
    record busy none (.result (.done (.value .unit)))
      (Schedule.passUntil own target (ms * 1000 + 1) p)
  | .order name x async =>
    match p.2.find? name with
    | none => record [] none .noActor p
    | some a =>
      match hindrance? p.1 a x with
      | some reply => record [] none reply p
      | none => carryOut p.1 p.2 a x async

def playAll : World × Cast → List Line → List Entry
  | _, [] => []
  | p, x :: rest =>
    let (e, p) := play p x
    e :: playAll p rest

/-- The actors `n0`, `n1`, … on plain threads of their own. -/
def natives (n : Nat) : Cast :=
  { actors := (List.range n).map fun i => { name := "n" ++ toString i, thread := i } }

/-- Plays a script with `n` plain threads. -/
def run (n : Nat) (script : List Line) : List Entry := playAll (World.initial n, natives n) script

end Standstill.Session
