import Standstill.Toml.Scalar

/-!
The lines of a TOML document: members and headers.
-/
namespace Standstill.Toml

/-- How deep arrays and braces may lie in each other. -/
def maxDepth : Nat := 79

/-- A key of this many parts is refused. -/
def keyLimit : Nat := 80

def isBareKeyChar (c : Char) : Bool := c.isAlphanum || c = '-' || c = '_'

/-- One part of a key. -/
def keyPart : Reader String := fun s =>
  match lineText s with
  | some r => some r
  | none =>
    let (w, rest) := s.span isBareKeyChar
    if w.isEmpty then none else some (String.ofList w, rest)

/-- At most `n` parts of a key with dots between them, and the blanks around each. -/
def keyParts : Nat → Reader (List String)
  | 0, _ => none
  | n + 1, s => do
    let (part, s) ← keyPart (skipBlanks s)
    match skipBlanks s with
    | '.' :: s =>
      let (rest, s) ← keyParts n s
      some (part :: rest, s)
    | s => some ([part], s)

def key : Reader (List String) := keyParts (keyLimit - 1)

/-- The items of an array after its bracket, each read by `item`; at most `n` steps. -/
def items (item : Reader Value) : Nat → Reader (List Value)
  | 0, _ => none
  | n + 1, s =>
    match skipFiller false s with
    | ']' :: s => some ([], s)
    | s => do
      let (v, s) ← item s
      match skipFiller false s with
      | ']' :: s => some ([v], s)
      | ',' :: s =>
        let (vs, s) ← items item n s
        some (v :: vs, s)
      | _ => none

/-- The members between braces, the first of them up next; at most `n` steps. -/
def members (item : Reader Value) : Nat → Members → Reader Members
  | 0, _, _ => none
  | n + 1, ms, s => do
    let (path, s) ← key s
    match s with
    | '=' :: s =>
      let (v, s) ← item (skipBlanks s)
      let ms ← ms.assign v path
      match skipBlanks s with
      | '}' :: s => some (ms, s)
      | ',' :: s => members item n ms s
      | _ => none
    | _ => none

/-- A value in which at most `depth` brackets and braces lie in each other. -/
def value : Nat → Reader Value
  | 0, s =>
    match text s with
    | some (t, s) => some (.text t, s)
    | none => scalar s
  | depth + 1, s =>
    match s with
    | '[' :: s => do
      let (vs, s) ← items (value depth) (s.length + 1) s
      some (.array vs, s)
    | '{' :: s =>
      match skipBlanks s with
      | '}' :: s => some (.table .braces [], s)
      | _ => do
        let (ms, s) ← members (value depth) (s.length + 1) [] s
        some (.table .braces ms, s)
    | s =>
      match text s with
      | some (t, s) => some (.text t, s)
      | none => scalar s

/-- What a line says. -/
inductive Statement
  | assign (key : List String) (v : Value)
  /-- A table begins. -/
  | table (path : List String)
  /-- One more table of a list begins. -/
  | tables (path : List String)
  deriving Repr

/-- A member: a key and its value. -/
def assignment : Reader Statement := fun s => do
  let (path, s) ← key s
  match s with
  | '=' :: s =>
    let (v, s) ← value maxDepth (skipBlanks s)
    some (.assign path v, s)
  | _ => none

/-- A header after its first bracket. -/
def header : Reader Statement
  | '[' :: s => do
    let (path, s) ← key s
    match s with
    | ']' :: ']' :: s => some (.tables path, s)
    | _ => none
  | s => do
    let (path, s) ← key s
    match s with
    | ']' :: s => some (.table path, s)
    | _ => none

/-- One line, or as many as a value takes. It may say nothing. -/
def line : Reader (Option Statement) := fun s => do
  let (st, s) ← match skipBlanks s with
    | [] => some (none, [])
    | '[' :: s => do
      let (st, s) ← header s
      some (some st, s)
    | c :: s =>
      if c = '#' ∨ startsLine (c :: s) then some (none, c :: s)
      else do
        let (st, s) ← assignment (c :: s)
        some (some st, s)
  let s ← restOfLine s
  some (st, s)

/-- What at most `n` lines say, to the end of the text. -/
def lines : Nat → List Char → Option (List Statement)
  | _, [] => some []
  | 0, _ :: _ => none
  | n + 1, c :: s => do
    let (st, s) ← line (c :: s)
    let rest ← lines n s
    some (st.toList ++ rest)

end Standstill.Toml
