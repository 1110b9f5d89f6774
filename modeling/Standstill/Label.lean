/-!
Display names. A name is stored in a field of `Label.capacity` bytes, cut between two characters.
-/
namespace Standstill.Label

/-- A stored name has at most this many bytes. -/
def capacity : Nat := 31

/-- The characters that fit into `room` bytes, as far as the first that does not. -/
def fit : Nat → List Char → List Char
  | _, [] => []
  | room, c :: cs => if c.utf8Size ≤ room then c :: fit (room - c.utf8Size) cs else []

/-- The name as it is stored: all of it if it fits, else its longest prefix of whole characters. -/
def clamp (name : String) : String :=
  if name.utf8ByteSize ≤ capacity then name else String.ofList (fit capacity name.toList)

end Standstill.Label
