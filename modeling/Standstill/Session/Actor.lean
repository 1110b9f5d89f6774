import Standstill.Ident
import Standstill.Schedule
import Standstill.Session.Command
import Standstill.Text.Quoted

/-!
Actors. Each is a thread with at most one command under way; a command is a few calls made one after
the other, and a report put together from their outcomes.
-/
namespace Standstill.Session

/-- What a thread in code of its own does next. -/
inductive Act
  | call (c : Call)
  | finish (panicked : Bool)
  deriving DecidableEq, Repr

/-- How the outcomes of a command's calls make up its report. -/
inductive Shape
  | plain
  | counts
  | rows
  | lookup
  | debug
  | both
  | unit
  /-- The world is stopped: the actor keeps the guard. -/
  | guard (s : ServiceId)
  | sideRegister (s : ServiceId) (h : Handle)
  deriving DecidableEq, Repr

structure Task where
  acts : List Act
  shape : Shape
  /-- A call is in progress. -/
  inCall : Bool := false
  outcomes : List Outcome := []
  /-- Time is let go on until the command has come to its end. -/
  timed : Bool := false
  deriving DecidableEq, Repr

structure Actor where
  name : String
  thread : ThreadId
  /-- The thread's stack is too small for anything but to end. -/
  tiny : Bool := false
  polling : Bool := true
  guards : List ServiceId := []
  task : Option Task := none
  answer : Option Reply := none
  deriving DecidableEq, Repr

/-- The actors of a session, and what they share beside the world. -/
structure Cast where
  actors : List Actor
  side : Roster := {}
  dropped : List ServiceId := []
  deriving DecidableEq, Repr

namespace Cast

def find? (c : Cast) (name : String) : Option Actor := c.actors.find? (·.name == name)

def onThread? (c : Cast) (t : ThreadId) : Option Actor := c.actors.find? (·.thread == t)

def modify (c : Cast) (t : ThreadId) (f : Actor → Actor) : Cast :=
  { c with actors := c.actors.map fun a => if a.thread = t then f a else a }

end Cast

/-- The text of a record for a debugging reader. -/
def debugText (c : ThreadRecord) : String :=
  "ControlRecord \x7b handle: " ++ Ident.debug ⟨.thread, c.handle⟩
  ++ ", name: Some(" ++ Quoted.debug c.name ++ "), state: " ++ c.phase.name
  ++ ", blocking: " ++ c.level.name ++ ", suspend_requested: " ++ toString c.requested
  ++ ", .. \x7d"

def insertByHandle (c : ThreadRecord) : List ThreadRecord → List ThreadRecord
  | [] => [c]
  | d :: rest => if c.handle ≤ d.handle then c :: d :: rest else d :: insertByHandle c rest

def sortByHandle (rs : List ThreadRecord) : List ThreadRecord := rs.foldr insertByHandle []

/-- The report of one outcome. -/
def resultOf (f : Value → Report) : Outcome → Result
  | .value v => .done (f v)
  | .fault x => .fault x
  | .panicked => .panicked

/-- The result of a command by thread `t`, and what it changes beside the world. -/
def conclude (t : ThreadId) (c : Cast) (shape : Shape) (os : List Outcome) :
    Result × Cast :=
  match shape, os with
  | .both, [a, b] => (.done (.both a b), c)
  | .unit, _ => (.done (.value .unit), c)
  | .counts, [o] =>
    (resultOf (fun | .census x => .counts x | v => .value v) o, c)
  | .rows, [o] =>
    (resultOf (fun | .records rs => .rows (sortByHandle rs) | v => .value v) o, c)
  | .lookup, [o] =>
    (resultOf (fun
      | .record x => .view (x.map fun p => (p.2, p.2.owner == some t))
      | v => .value v) o, c)
  | .debug, [o] =>
    (resultOf (fun | .record x => .text? (x.map fun p => debugText p.2) | v => .value v) o, c)
  | .guard s, [.value v] =>
    (.done (.value v), c.modify t fun a => { a with guards := s :: a.guards })
  | .sideRegister _ h, [.value (.record (some (r, _)))] =>
    (.done (.handle? ((c.side.lookup h).map fun _ => h)), { c with side := c.side.insert h r })
  | .sideRegister .., _ => (.badInput "h", c)
  | _, [o] =>
    (resultOf (fun | .records rs => .value (.records (sortByHandle rs)) | v => .value v) o, c)
  | _, _ => (.done (.value .unit), c)

/-- An idle thread looks at the safe point of the service that it is bound to. -/
def poll? (w : World) (t : ThreadId) : Option World :=
  match w.threads[t]? with
  | none => none
  | some x =>
    match x.binding with
    | none => none
    | some r =>
      match w.records[r]? with
      | none => none
      | some c => if c.isUnsettled then some (w.invoke t (.safePoint c.service)) else none

/-- What an actor's thread does in code of its own: the next call of its command, the report of a
command that has no more calls, or a look at the safe point. -/
def own : Schedule.Script Cast := fun t (w, c) =>
  match c.onThread? t with
  | none => none
  | some a =>
    match a.task with
    | none => if a.polling then (poll? w t).map (·, c) else none
    | some k =>
      if k.inCall then
        let k := { k with inCall := false, outcomes := k.outcomes ++ [w.outcomeOf t] }
        some (w, c.modify t fun a => { a with task := some k })
      else
        match k.acts with
        | .call x :: rest =>
          some (Schedule.call w t x,
            c.modify t fun a => { a with task := some { k with acts := rest, inCall := true } })
        | .finish panicked :: rest =>
          some (w.finish t panicked,
            c.modify t fun a => { a with task := some { k with acts := rest } })
        | [] =>
          let (r, c) := conclude t c k.shape k.outcomes
          some (w, c.modify t fun a => { a with task := none, answer := some (.result r) })

end Standstill.Session
