import Standstill.Call

/-!
One step of the world. A thread runs the instruction at the head of its code; a stop signal runs its
handler first; in code of its own a thread makes calls or ends; time goes on, and the operating system
changes its mind.
-/
namespace Standstill

namespace Instr

/-- The instruction need not wait for another thread, a signal or the clock. -/
def isReady (w : World) (t : ThreadId) : Instr → Bool
  | .user => false
  | .sync i => i.isReady w t
  | .park i => i.isReady w t
  | _ => true

def run (t : ThreadId) (w : World) : Instr → Effect
  | .user => (w, [.user])
  | .sync i => i.run t w
  | .guard i => i.run t w
  | .park i => i.run t w
  | .stop i => i.run t w
  | .pool i => i.run t w
  | .member i => i.run t w
  | .read i => i.run t w

end Instr

namespace World

def setCode (w : World) (t : ThreadId) (code : List Instr) : World :=
  w.modThread t fun x => { x with code }

/-- Puts instructions in front of what thread `t` has to do. -/
def push (w : World) (t : ThreadId) (code : List Instr) : World :=
  w.modThread t fun x => { x with code := code ++ x.code }

/-- Thread `t` runs the instruction at the head of its code, if that one need not wait. -/
def advance (w : World) (t : ThreadId) : World :=
  match w.threads[t]? with
  | none => w
  | some x =>
    match x.code with
    | [] => w
    | i :: rest =>
      if i.isReady w t then
        let e := i.run t (w.setCode t rest)
        e.1.push t e.2
      else w

/-- The stop signal can be taken now. -/
def canInterrupt (w : World) (t : ThreadId) : Bool :=
  match w.threads[t]? with
  | none => false
  | some x => x.pending && !x.masked && !x.code.isEmpty

/-- Thread `t` takes the stop signal: its handler runs with the signal blocked. -/
def interrupt (w : World) (t : ThreadId) : World :=
  if w.canInterrupt t then
    (w.modThread t fun x => { x with pending := false, masked := true }).push t
      (w.handlerCode t ++ [.guard (.setMask false)])
  else w

/-- Thread `t` is in code of its own, and goes on with it: no stop signal comes first. -/
def inUser (w : World) (t : ThreadId) : Bool :=
  match w.threads[t]? with
  | none => false
  | some x => x.code.head? == some .user && !(x.pending && !x.masked)

/-- Thread `t` makes a call. -/
def invoke (w : World) (t : ThreadId) (c : Call) : World :=
  if w.inUser t then
    match c.refusal? with
    | some f => w.fail t f
    | none => (w.answer t .unit).push t (c.code w t)
  else w

/-- What a thread does after its own code has ended, by a panic or not. -/
def epilogue (panicked : Bool) : List Instr → List Instr
  | .member (.exitRaise s r) :: rest =>
    (if panicked then [.member (.mourn s r)] else []) ++ .member (.exitRaise s r) :: rest
  | rest => rest

/-- The code of thread `t`'s own ends. -/
def finish (w : World) (t : ThreadId) (panicked : Bool) : World :=
  if w.inUser t then
    w.modThread t fun x => { x with code := epilogue panicked x.code.tail }
  else w

/-- A sleeping thread wakes for no reason. -/
def stir (w : World) (q : WaitList) (t : ThreadId) : World :=
  { w with asleep := w.asleep.erase (q, t) }

def tick (w : World) (micros : Nat) : World := { w with clock := w.clock + micros }

def setSystem (w : World) (x : System) : World := { w with system := x }

end World

/-- What can happen next. -/
inductive Event
  | advance (t : ThreadId)
  | interrupt (t : ThreadId)
  | invoke (t : ThreadId) (c : Call)
  | finish (t : ThreadId) (panicked : Bool)
  | stir (q : WaitList) (t : ThreadId)
  | tick (micros : Nat)
  /-- What the operating system would answer is different from now on. -/
  | system (x : System)
  deriving DecidableEq, Repr

def World.step (w : World) : Event → World
  | .advance t => w.advance t
  | .interrupt t => w.interrupt t
  | .invoke t c => w.invoke t c
  | .finish t panicked => w.finish t panicked
  | .stir q t => w.stir q t
  | .tick n => w.tick n
  | .system x => w.setSystem x

def World.run (w : World) (es : List Event) : World := es.foldl World.step w

/-- The worlds that `n` threads can bring about. -/
def Reachable (n : Nat) (w : World) : Prop := ∃ es, (World.initial n).run es = w

end Standstill
