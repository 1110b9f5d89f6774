import Standstill.Step

/-!
A fair order of steps: whoever was woken first runs first, and a thread runs until it has to wait.
Time stands still until nobody can go on.
-/
namespace Standstill

namespace World

/-- The head of thread `t`'s code. -/
def head? (w : World) (t : ThreadId) : Option Instr :=
  match w.threads[t]? with
  | none => none
  | some x => x.code.head?

def isGone (w : World) (t : ThreadId) : Bool := (w.head? t).isNone

/-- Somebody other than `r` has a request to obey and has not stopped yet. -/
def isUnsettled (w : World) (s : ServiceId) (me : Option RecordId) : Bool :=
  (w.roster s).records.any fun r =>
    some r ≠ me &&
      match w.records[r]? with
      | some c => c.isUnsettled
      | none => false

def shouldPark (w : World) (r : RecordId) : Bool :=
  match w.records[r]? with
  | some c => c.shouldPark
  | none => false

/-- Thread `t` is about to read again what it has read before, to the same end: until another thread
or the clock moves, it goes round in a circle. -/
def spins (w : World) (t : ThreadId) : Bool :=
  match w.head? t with
  | some (.stop (.watchEpoch x)) =>
    match w.records[x.record]? with
    | none => false
    | some c =>
      c.epoch = x.epoch && c.isUnsettled
        && (x.warned || w.clock - x.since ≤ w.warnAfter x.service)
  | some (.stop (.resumePhase r)) => w.phaseOf r = .suspended && !w.isRequested r
  | some (.stop (.settle s d)) =>
    let me := w.selfIn t s
    w.clock < d && w.isUnsettled s me && !(me.any w.shouldPark)
  | _ => false

/-- Thread `t` can get on within a call. -/
def canAdvance (w : World) (t : ThreadId) : Bool :=
  match w.head? t with
  | none => false
  | some i => i.isReady w t && !w.spins t

/-- When the clock alone lets thread `t` go on. -/
def deadline? (w : World) (t : ThreadId) : Option Nat :=
  match w.head? t with
  | some (.sync (.resting _ d)) => d
  | some (.sync (.dozing d)) => some d
  | some (.stop (.settle _ d)) => some d
  | _ => none

/-- The earliest time at which the clock lets somebody go on. -/
def nextDeadline? (w : World) : Option Nat :=
  ((List.range w.threads.length).filterMap w.deadline?).min?

/-- Who sleeps in `before` and no longer in `w`, in the order in which they began to. -/
def wokenSince (w before : World) : List ThreadId :=
  if w.asleep.length < before.asleep.length then
    (before.asleep.filter (!w.asleep.contains ·)).map (·.2)
  else []

/-- The record that stands for thread `t` has a request that it has not yet obeyed. -/
def isSummoned (w : World) (t : ThreadId) : Bool :=
  match w.threads[t]? with
  | none => false
  | some x => x.binding.any fun r => (w.records[r]?).any (·.isUnsettled)

/-- The outcome of the call that thread `t` has made last. -/
def outcomeOf (w : World) (t : ThreadId) : Outcome :=
  match w.threads[t]? with
  | some x => x.outcome
  | none => .panicked

/-- A bound on the steps that are taken before everybody waits. -/
def budget (w : World) : Nat := 1000 * (w.threads.length + 4) * (w.records.length + 4)

end World

namespace Schedule

/-- On the machine that plays a script no thread is given a stack of this many bytes or more. -/
def stackCeiling : Nat := 0x800000000000

/-- What the system of that machine would answer to what the call asks of it. -/
def systemFor (w : World) : Call → System
  | .spawn s o =>
    match w.services[s]? with
    | none => {}
    | some v =>
      if stackCeiling ≤ o.stackFor v.settings then { thread := .refused .wouldBlock } else {}
  | _ => {}

/-- Thread `t` makes a call on that machine. -/
def call (w : World) (t : ThreadId) (c : Call) : World := (w.setSystem (systemFor w c)).invoke t c

variable {σ : Type}

/-- What a thread that is in code of its own does next, if anything. -/
abbrev Script (σ : Type) := ThreadId → World × σ → Option (World × σ)

/-- One move of thread `t`, if it can make one. -/
def move? (own : Script σ) (t : ThreadId) (p : World × σ) : Option (World × σ) :=
  if p.1.canInterrupt t then some (p.1.interrupt t, p.2)
  else if p.1.inUser t then own t p
  else if p.1.canAdvance t then some (p.1.advance t, p.2)
  else none

/-- Some thread that can move, with its move. -/
def mover? (own : Script σ) (p : World × σ) : Option ThreadId :=
  (List.range p.1.threads.length).find? fun t => (move? own t p).isSome

/-- Takes at most `n` moves, the threads in the queue first, until nobody can move. -/
def drainFor (own : Script σ) : Nat → List ThreadId → World × σ → World × σ
  | 0, _, p => p
  | n + 1, [], p =>
    match mover? own p with
    | none => p
    | some t => drainFor own n [t] p
  | n + 1, t :: queue, p =>
    match move? own t p with
    | none => drainFor own n queue p
    | some p' => drainFor own n (t :: queue ++ p'.1.wokenSince p.1) p'

/-- Lets everybody go on until all wait. -/
def drain (own : Script σ) (first : List ThreadId) (p : World × σ) : World × σ :=
  drainFor own p.1.budget first p

/-- Lets time go on to `target`, with everything that happens on the way. -/
def passUntil (own : Script σ) (target : Nat) : Nat → World × σ → World × σ
  | 0, p => p
  | n + 1, p =>
    match p.1.nextDeadline? with
    | some d =>
      if d ≤ target then
        passUntil own target n (drain own [] (p.1.tick (d - p.1.clock), p.2))
      else (p.1.tick (target - p.1.clock), p.2)
    | none => (p.1.tick (target - p.1.clock), p.2)

/-- Lets everybody go on, and time whenever all wait, until it is over; at most `n` times. -/
def runUntil (own : Script σ) (isOver : σ → Bool) : Nat → World × σ → World × σ
  | 0, p => p
  | n + 1, p =>
    let p := drain own [] p
    if isOver p.2 then p
    else
      match p.1.nextDeadline? with
      | some d => runUntil own isOver n (p.1.tick (d - p.1.clock), p.2)
      | none => p

end Schedule

end Standstill
