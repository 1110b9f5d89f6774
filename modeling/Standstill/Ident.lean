/-!
Handles of threads and indices of pool slots as they are shown.
-/
namespace Standstill

/-- What a number names. -/
inductive IdKind
  | thread
  | mutex
  | cond
  deriving DecidableEq, Repr

/-- A thread's handle, or a slot's index in one of the two pools. -/
structure Ident where
  kind : IdKind
  number : Nat
  deriving DecidableEq, Repr

/-- Handle zero belongs to no thread. -/
def Ident.isInvalid (i : Ident) : Bool := i.kind == .thread && i.number == 0

def Ident.display (i : Ident) : String :=
  match i.kind with
  | .thread => toString i.number
  | .mutex => "m" ++ toString i.number
  | .cond => "c" ++ toString i.number

def Ident.debug (i : Ident) : String :=
  match i.kind with
  | .thread => s!"ThreadHandle({i.number})"
  | .mutex => s!"MutexId({i.number})"
  | .cond => s!"CondId({i.number})"

end Standstill
