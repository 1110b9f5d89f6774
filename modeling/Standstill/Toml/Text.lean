/-!
The strings and comments of a TOML document. A reader gives what it has read with the rest.
-/
namespace Standstill.Toml

abbrev Reader (α : Type) := List Char → Option (α × List Char)

def isBlank (c : Char) : Bool := c = ' ' || c = '\t'

/-- No control character but the tab. -/
def isPlain (c : Char) : Bool := c = '\t' || (0x20 ≤ c.toNat && c.toNat ≠ 0x7f)

/-- The text goes on with the end of a line. -/
def startsLine : List Char → Bool
  | '\n' :: _ | '\r' :: '\n' :: _ => true
  | _ => false

def skipLineEnd : List Char → List Char
  | '\n' :: s | '\r' :: '\n' :: s => s
  | s => s

def skipBlanks (s : List Char) : List Char := s.dropWhile isBlank

def digitValue? (base : Nat) (c : Char) : Option Nat :=
  let n :=
    if '0' ≤ c ∧ c ≤ '9' then c.toNat - '0'.toNat
    else if 'a' ≤ c ∧ c ≤ 'f' then c.toNat - 'a'.toNat + 10
    else if 'A' ≤ c ∧ c ≤ 'F' then c.toNat - 'A'.toNat + 10
    else base
  if n < base then some n else none

/-- The characters that a single letter after the backslash stands for. -/
def escaped? : Char → Option Char
  | 'b' => some '\x08'
  | 't' => some '\t'
  | 'n' => some '\n'
  | 'f' => some '\x0c'
  | 'r' => some '\r'
  | '"' => some '"'
  | '\\' => some '\\'
  | _ => none

/-- Where the reader of a quoted string is. -/
inductive Mark
  | plain
  /-- After a backslash. -/
  | escape
  /-- Within the number of a character, with `left` digits to come. -/
  | number (left value : Nat)
  /-- After a backslash at the end of a line, where all blank space is left out. -/
  | gap
  deriving DecidableEq, Repr

def push (c : Char) (r : Option (List Char × List Char)) : Option (List Char × List Char) :=
  r.map fun (cs, s) => (c :: cs, s)

/-- After three quotes: up to two more belong to the string. -/
def closing (quote : Char) : List Char → List Char × List Char
  | a :: b :: s =>
    if a = quote ∧ b = quote then ([a, b], s)
    else if a = quote then ([a], b :: s)
    else ([], a :: b :: s)
  | [a] => if a = quote then ([a], []) else ([], [a])
  | [] => ([], [])

/-- Two more quotes follow. -/
def closes (quote : Char) : List Char → Bool
  | a :: b :: _ => a = quote && b = quote
  | _ => false

/-- What follows the opening quotes of a string with escapes, on one line or on many. -/
def quoted (multi : Bool) : Mark → Reader (List Char)
  | _, [] => none
  | .escape, c :: s =>
    if multi && startsLine (skipBlanks (c :: s)) then quoted multi .gap s
    else if c = 'u' then quoted multi (.number 4 0) s
    else if c = 'U' then quoted multi (.number 8 0) s
    else
      match escaped? c with
      | some x => push x (quoted multi .plain s)
      | none => none
  | .number left value, c :: s =>
    match digitValue? 16 c with
    | none => none
    | some d =>
      let value := 16 * value + d
      if 1 < left then quoted multi (.number (left - 1) value) s
      else if value.isValidChar then push (Char.ofNat value) (quoted multi .plain s)
      else none
  | mark, c :: s =>
    if mark = .gap && (isBlank c || startsLine (c :: s)) then quoted multi .gap s
    else if c = '\\' then quoted multi .escape s
    else if c = '"' then
      if !multi then some ([], s)
      else if closes '"' s then some (closing '"' (s.drop 2))
      else push c (quoted multi .plain s)
    else if isPlain c || (multi && c = '\n') then push c (quoted multi .plain s)
    else if multi && startsLine (c :: s) then quoted multi .plain s
    else none

/-- What follows the opening quotes of a string without escapes. -/
def literal (multi : Bool) : Reader (List Char)
  | [] => none
  | c :: s =>
    if c = '\'' then
      if !multi then some ([], s)
      else if closes '\'' s then some (closing '\'' (s.drop 2))
      else push c (literal multi s)
    else if isPlain c || (multi && c = '\n') then push c (literal multi s)
    else if multi && startsLine (c :: s) then literal multi s
    else none

def toText (r : Option (List Char × List Char)) : Option (String × List Char) :=
  r.map fun (cs, s) => (String.ofList cs, s)

/-- A string on one line, as a key may be written. -/
def lineText : Reader String
  | '"' :: s => toText (quoted false .plain s)
  | '\'' :: s => toText (literal false s)
  | _ => none

/-- A string of any of the four kinds. -/
def text : Reader String
  | '"' :: '"' :: '"' :: s => toText (quoted true .plain (skipLineEnd s))
  | '\'' :: '\'' :: '\'' :: s => toText (literal true (skipLineEnd s))
  | s => lineText s

/-- Leaves out blanks, ends of lines and comments. -/
def skipFiller (inComment : Bool) : List Char → List Char
  | [] => []
  | c :: s =>
    if inComment && isPlain c then skipFiller true s
    else if isBlank c || startsLine (c :: s) then skipFiller false s
    else if c = '#' then skipFiller true s
    else c :: s

/-- The rest of a line after what it says: blanks, perhaps a comment, and its end. -/
def restOfLine (s : List Char) : Option (List Char) :=
  let s :=
    match skipBlanks s with
    | '#' :: s => s.dropWhile isPlain
    | s => s
  if s.isEmpty then some [] else if startsLine s then some (skipLineEnd s) else none

end Standstill.Toml
