import Standstill.Fault
import Standstill.Label

/-!
A pool of numbered slots of fixed capacity. The search for a free slot starts where a slot was
last handed out or freed and goes round once.
-/
namespace Standstill

/-- A slot of the table. A free one keeps neither a name nor a value. -/
structure Slot (α : Type) where
  used : Bool := false
  name : String := ""
  value : Option α := none
  deriving DecidableEq, Repr

/-- What a taken slot holds. -/
structure Cell (α : Type) where
  name : String
  value : α
  deriving DecidableEq, Repr

structure Slots (α : Type) where
  slots : List (Slot α)
  /-- The slot last handed out or given back. -/
  hint : Nat := 0
  inUse : Nat := 0
  deriving DecidableEq, Repr

namespace Slots

variable {α : Type}

def empty (capacity : Nat) : Slots α := { slots := List.replicate capacity {} }

/-- The table neither grows nor shrinks. -/
def capacity (p : Slots α) : Nat := p.slots.length

/-- What slot `i` holds, if it is taken. -/
def cell? (p : Slots α) (i : Nat) : Option (Cell α) :=
  match p.slots[i]? with
  | some ⟨true, name, some value⟩ => some ⟨name, value⟩
  | _ => none

/-- The first free slot at or after the hint; if there is none, the first before it. -/
def free? (p : Slots α) : Option Nat :=
  match (p.slots.drop p.hint).findIdx? (!·.used) with
  | some k => some (p.hint + k)
  | none => (p.slots.take p.hint).findIdx? (!·.used)

/-- Puts a value into the free slot nearest after the hint. -/
def allocate (p : Slots α) (name : String) (value : α) : Except Fault (Nat × Slots α) :=
  match p.free? with
  | none => .error (.exhausted p.capacity)
  | some i => .ok (i, {
      slots := p.slots.set i ⟨true, Label.clamp name, some value⟩
      hint := i
      inUse := p.inUse + 1 })

def get (p : Slots α) (i : Nat) : Except Fault α :=
  match p.slots[i]? with
  | some ⟨true, _, some value⟩ => .ok value
  | _ => .error (.badArgument .slotIndex)

def nameAt (p : Slots α) (i : Nat) : Except Fault String :=
  match p.slots[i]? with
  | some x => if x.used then .ok x.name else .error (.badArgument .slotIndex)
  | none => .error (.badArgument .slotIndex)

/-- The pool after slot `i` has been given back. -/
def free (p : Slots α) (i : Nat) : Slots α :=
  { slots := p.slots.set i {}, hint := i, inUse := p.inUse - 1 }

/-- Gives slot `i` back if `check` accepts the value in it. -/
def freeIf (p : Slots α) (i : Nat) (check : α → Except Fault Unit) :
    Except Fault (Slots α) :=
  match p.slots[i]? with
  | none => .error (.badArgument .slotIndex)
  | some x =>
    if x.used then
      match x.value.elim (.ok ()) check with
      | .error f => .error f
      | .ok () => .ok (p.free i)
    else .error (.badArgument .slotIndex)

end Slots

end Standstill
