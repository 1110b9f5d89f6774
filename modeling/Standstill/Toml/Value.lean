/-!
The values of a TOML document, and how lines and headers fill its tables.
-/
namespace Standstill.Toml

/-- How a table came about, which decides what may still be added to it. -/
inductive Origin
  /-- Written in braces: it is complete. -/
  | braces
  /-- Opened by a header of its own. -/
  | header
  /-- Named in a header on the way to another table. -/
  | passage
  /-- Named in a dotted key on the way to a value. -/
  | dotted
  deriving DecidableEq, Repr

/-- A value. Of a float, a boolean and a date only the kind is kept. -/
inductive Value
  | integer (n : Int)
  | text (s : String)
  | float
  | boolean
  | moment
  | array (items : List Value)
  | table (origin : Origin) (members : List (String × Value))
  /-- One table for each `[[header]]` of the name. -/
  | tables (items : List (List (String × Value)))
  deriving Repr

abbrev Members := List (String × Value)

namespace Members

/-- Adds a member; none may stand there under the name. -/
def put (ms : Members) (key : String) (v : Value) : Option Members :=
  if (ms.lookup key).isSome then none else some (ms ++ [(key, v)])

/-- Puts another value in the place of the one under the name. -/
def replace (ms : Members) (key : String) (v : Value) : Members :=
  ms.map fun m => if m.1 = key then (key, v) else m

/-- Changes the last of a list of tables. -/
def modifyLast (f : Members → Option Members) : List Members → Option (List Members)
  | [] => none
  | [ms] => (f ms).map ([·])
  | ms :: rest => (modifyLast f rest).map (ms :: ·)

/-- Adds a value under a dotted key. A table that was not made by dotted keys can be passed through
but takes no member in this way. -/
def assign (v : Value) : List String → Members → Option Members
  | [], _ => none
  | [key], ms => ms.put key v
  | key :: next :: rest, ms =>
    let deeper := assign v (next :: rest)
    let passing (f : Members → Option Members) : Members → Option Members :=
      if rest.isEmpty then fun _ => none else f
    match ms.lookup key with
    | none => do ms.put key (.table .dotted (← deeper []))
    | some (.table .dotted inner) => do ms.replace key (.table .dotted (← deeper inner))
    | some (.table .passage inner) => do
      ms.replace key (.table .passage (← passing deeper inner))
    | some (.tables items) => do ms.replace key (.tables (← modifyLast (passing deeper) items))
    | some _ => none

/-- Changes the table that the path of a header leads to; tables missing on the way are made. -/
def within (f : Members → Option Members) : List String → Members → Option Members
  | [], ms => f ms
  | key :: rest, ms =>
    match ms.lookup key with
    | none => do ms.put key (.table .passage (← within f rest []))
    | some (.table .braces _) => none
    | some (.table o inner) => do ms.replace key (.table o (← within f rest inner))
    | some (.tables items) => do ms.replace key (.tables (← modifyLast (within f rest) items))
    | some _ => none

/-- Opens the table `key`, which no header may have opened before. -/
def openTable (key : String) (ms : Members) : Option Members :=
  match ms.lookup key with
  | none => ms.put key (.table .header [])
  | some (.table .passage inner) => some (ms.replace key (.table .header inner))
  | some _ => none

/-- Opens one more table of the list `key`. -/
def openNext (key : String) (ms : Members) : Option Members :=
  match ms.lookup key with
  | none => ms.put key (.tables [[]])
  | some (.tables items) => some (ms.replace key (.tables (items ++ [[]])))
  | some _ => none

end Members

end Standstill.Toml
