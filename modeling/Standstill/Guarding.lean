import Standstill.Locking

/-!
Guards. A thread raises its level to put off being stopped; when it lowers the level again it looks
whether a request has come.
-/
namespace Standstill

namespace World

def setLevel (w : World) (r : RecordId) (l : Level) : World :=
  w.modRecord r fun c => { c with level := l }

def setPhase (w : World) (r : RecordId) (p : Phase) : World :=
  w.modRecord r fun c => { c with phase := p }

def openScope (w : World) (t : ThreadId) (x : Scope) : World :=
  w.modThread t fun c => { c with scopes := x :: c.scopes }

def closeScope (w : World) (t : ThreadId) : World :=
  w.modThread t fun c => { c with scopes := c.scopes.tail }

/-- The scope that thread `t` opened last. -/
def innermost? (w : World) (t : ThreadId) : Option Scope :=
  match w.threads[t]? with
  | some x => x.scopes.head?
  | none => none

def setMask (w : World) (t : ThreadId) (masked : Bool) : World :=
  w.modThread t fun x => { x with masked }

/-- Masks or unmasks the stop signal, if service `s` stops its threads by signal. -/
def setMaskFor (w : World) (t : ThreadId) (s : ServiceId) (masked : Bool) : World :=
  match w.mechanism s with
  | .signal => w.setMask t masked
  | .safepoint => w

end World

/-- What the owner of `r` does right after lowering its level to `noBlock`. -/
def stopIfDue (w : World) (s : ServiceId) (r : RecordId) : Instr :=
  .park (.check [.request, .level] (.call (w.mechanism s)) r)

namespace GuardInstr

def run (t : ThreadId) (w : World) : GuardInstr → Effect
  | .raise s level =>
    match w.selfIn t s with
    | none => (w.openScope t (.guard none level .noBlock), [])
    | some r =>
      let previous := w.levelOf r
      ((w.setLevel r level).openScope t (.guard (some r) level previous),
       if level = .blocking ∧ previous ≠ .blocking then [.guard (.mask s)] else [])
  | .lower s =>
    match w.innermost? t with
    | some (.guard (some r) level previous) =>
      ((w.setLevel r previous).closeScope t,
       stopIfDue w s r ::
         if level = .blocking ∧ previous ≠ .blocking then [.guard (.unmask s)] else [])
    | _ => (w.closeScope t, [])
  | .mask s => (w.setMaskFor t s true, [])
  | .unmask s => (w.setMaskFor t s false, [])
  | .setMask masked => (w.setMask t masked, [])
  | .enter s phase =>
    match w.selfIn t s with
    | none => (w.openScope t (.phase none .running), [])
    | some r => (w.openScope t (.phase (some r) (w.phaseOf r)), [.guard (.setPhase r phase)])
  | .setPhase r phase => (w.setPhase r phase, [])
  | .leave =>
    match w.innermost? t with
    | some (.phase (some r) previous) => ((w.setPhase r previous).closeScope t, [])
    | _ => (w.closeScope t, [])
  | .disable s =>
    match w.selfIn t s with
    | none => (w.fail t .unknownHandle, [])
    | some r =>
      (w.setLevel r .blocking,
       if w.levelOf r = .blocking then [] else [.guard (.mask s)])
  | .enable s =>
    match w.selfIn t s with
    | none => (w.fail t .unknownHandle, [])
    | some r =>
      (w.setLevel r .noBlock,
       stopIfDue w s r :: if w.levelOf r = .blocking then [.guard (.unmask s)] else [])
  | .disableFast s =>
    match w.selfIn t s with
    | none => (w.fail t .unknownHandle, [])
    | some r => (w.setLevel r .critical, [])
  | .enableFast s =>
    match w.selfIn t s with
    | none => (w.fail t .unknownHandle, [])
    | some r => (w.setLevel r .noBlock, [.park (.check [.request] (.call (w.mechanism s)) r)])

end GuardInstr

end Standstill
