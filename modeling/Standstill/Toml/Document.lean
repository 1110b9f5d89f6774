import Standstill.Toml.Line

/-!
A whole TOML document: the tables that its statements make, one after the other.
-/
namespace Standstill.Toml

/-- What has been made so far, and the table that takes the next member. -/
structure Document where
  root : Members := []
  current : List String := []
  deriving Repr

namespace Document

/-- Opens a table at a path by `f`, which gets the last part of it, and makes it the current one. -/
def enter (d : Document) (f : String → Members → Option Members) (path : List String) :
    Option Document :=
  match path.getLast? with
  | none => none
  | some key => do
    let root ← Members.within (f key) path.dropLast d.root
    some { root, current := path }

def take (d : Document) : Statement → Option Document
  | .assign key v => do
    let root ← Members.within (Members.assign v key) d.current d.root
    some { d with root }
  | .table path => d.enter Members.openTable path
  | .tables path => d.enter Members.openNext path

def ofStatements (sts : List Statement) : Option Document := sts.foldlM take {}

end Document

/-- The text without a byte order mark in front. -/
def withoutMark : List Char → List Char
  | '\ufeff' :: s => s
  | s => s

/-- What a document says, line by line. -/
def statements? (s : List Char) : Option (List Statement) :=
  lines (s.length + 1) s

/-- The members of a document's root table; there is none if the text is not a document. -/
def parse? (s : String) : Option Members := do
  let sts ← statements? (withoutMark s.toList)
  let d ← Document.ofStatements sts
  some d.root

end Standstill.Toml
