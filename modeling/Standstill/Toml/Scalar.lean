import Standstill.Toml.Text
import Standstill.Toml.Value

/-!
Values that are written as one word: numbers, booleans, dates and times.
-/
namespace Standstill.Toml

/-- The characters of a word. -/
def isWordChar (c : Char) : Bool :=
  c.isAlphanum || c = '_' || c = '+' || c = '-' || c = '.' || c = ':'

/-- Digits between which single underscores may stand, without these. -/
def digits? (base : Nat) : List Char → Option (List Nat)
  | [] => none
  | [c] => (digitValue? base c).map ([·])
  | c :: '_' :: s => do
    let d ← digitValue? base c
    let ds ← digits? base s
    some (d :: ds)
  | c :: s => do
    let d ← digitValue? base c
    let ds ← digits? base s
    some (d :: ds)

def ofDigits (base : Nat) (ds : List Nat) : Nat := ds.foldl (base * · + ·) 0

/-- The word without its sign, and whether that is a minus. -/
def unsigned : List Char → Bool × List Char
  | '-' :: s => (true, s)
  | '+' :: s => (false, s)
  | s => (false, s)

/-- Decimal digits that do not begin with a needless zero. -/
def whole? (s : List Char) : Option (List Nat) :=
  match s with
  | '0' :: _ :: _ => none
  | _ => digits? 10 s

/-- A number that fits into a word of 64 bits with a sign. -/
def bounded? (n : Int) : Option Int :=
  if -0x8000000000000000 ≤ n ∧ n < 0x8000000000000000 then some n else none

def integer? : List Char → Option Int
  | '0' :: 'x' :: s => do bounded? (ofDigits 16 (← digits? 16 s))
  | '0' :: 'o' :: s => do bounded? (ofDigits 8 (← digits? 8 s))
  | '0' :: 'b' :: s => do bounded? (ofDigits 2 (← digits? 2 s))
  | s => do
    let (negative, s) := unsigned s
    let n : Int := ofDigits 10 (← whole? s)
    bounded? (if negative then -n else n)

/-- From here on a number rounds to infinity in double precision. -/
def infinityBound : Nat := Nat.pow 2 1024 - Nat.pow 2 970

/-- The number `m * 10 ^ e` rounds to infinity; `width` is the number of digits of `m`. -/
def isInfinite (m width : Nat) (e : Int) : Bool :=
  if m = 0 then false
  else if width + e > 310 then true
  else if width + e < 300 then false
  else if 0 ≤ e then infinityBound ≤ m * Nat.pow 10 e.toNat
  else infinityBound * Nat.pow 10 (-e).toNat ≤ m

/-- The part of a float after its `e`. -/
def exponent? (s : List Char) : Option Int := do
  let (negative, s) := unsigned s
  let n : Int := ofDigits 10 (← digits? 10 s)
  some (if negative then -n else n)

/-- A float in decimal digits; one too large is refused, but a negative one is let be infinite. -/
def isDecimalFloat (s : List Char) : Bool :=
  let (negative, s) := unsigned s
  let (mantissa, e) := s.span fun c => c ≠ 'e' && c ≠ 'E'
  let (front, back) := mantissa.span (· ≠ '.')
  let parts : Option (List Nat × List Nat × Int) := do
    let whole ← whole? front
    let fraction ← match back with
      | [] => some []
      | _ :: s => digits? 10 s
    let exponent ← match e with
      | [] => some 0
      | _ :: s => exponent? s
    if back.isEmpty && e.isEmpty then none else some (whole, fraction, exponent)
  match parts with
  | none => false
  | some (whole, fraction, exponent) =>
    let ds := (whole ++ fraction).dropWhile (· = 0)
    negative || !isInfinite (ofDigits 10 ds) ds.length (exponent - fraction.length)

def isFloat (s : List Char) : Bool :=
  let bare := (unsigned s).2
  bare = "inf".toList || bare = "nan".toList || isDecimalFloat s

/-- Two decimal digits of a number between the bounds, and the rest. -/
def two? (low high : Nat) : Reader Nat
  | a :: b :: s => do
    let n := 10 * (← digitValue? 10 a) + (← digitValue? 10 b)
    if low ≤ n ∧ n ≤ high then some (n, s) else none
  | _ => none

def isLeapYear (y : Nat) : Bool := y % 4 = 0 && (y % 100 ≠ 0 || y % 400 = 0)

def daysIn (year month : Nat) : Nat :=
  if month = 2 then (if isLeapYear year then 29 else 28)
  else if month = 4 ∨ month = 6 ∨ month = 9 ∨ month = 11 then 30
  else 31

/-- A date, and the rest of the word. -/
def date? (s : List Char) : Option (List Char) := do
  let (century, s) ← two? 0 99 s
  let (year, s) ← two? 0 99 s
  match s with
  | '-' :: s =>
    let (month, s) ← two? 1 12 s
    match s with
    | '-' :: s =>
      let (_, s) ← two? 1 (daysIn (100 * century + year) month) s
      some s
    | _ => none
  | _ => none

/-- A time of day, and the rest of the word. -/
def time? (s : List Char) : Option (List Char) := do
  let (_, s) ← two? 0 23 s
  match s with
  | ':' :: s =>
    let (_, s) ← two? 0 59 s
    match s with
    | ':' :: s =>
      let (_, s) ← two? 0 60 s
      match s with
      | '.' :: c :: s => if c.isDigit then some (s.dropWhile Char.isDigit) else none
      | s => some s
    | _ => none
  | _ => none

/-- The word is an offset from universal time. -/
def isOffset : List Char → Bool
  | ['Z'] | ['z'] => true
  | sign :: s =>
    (sign = '+' || sign = '-') &&
      match two? 0 23 s with
      | some (_, ':' :: s) =>
        match two? 0 59 s with
        | some (_, []) => true
        | _ => false
      | _ => false
  | [] => false

/-- The word is a time of day, with an offset or without. -/
def isClock (s : List Char) : Bool :=
  match time? s with
  | some [] => true
  | some s => isOffset s
  | none => false

/-- The word is a date, a time, or both. -/
def isMoment (s : List Char) : Bool :=
  match date? s with
  | some [] => true
  | some ('T' :: s) | some ('t' :: s) => isClock s
  | some _ => false
  | none => time? s = some []

def word? (s : List Char) : Option Value :=
  if s = "true".toList ∨ s = "false".toList then some .boolean
  else if isMoment s then some .moment
  else if isFloat s then some .float
  else (integer? s).map .integer

/-- A word; a date and a time may have a blank between them. -/
def scalar : Reader Value := fun s =>
  let (w, rest) := s.span isWordChar
  let whole := (word? w).map (·, rest)
  match rest with
  | ' ' :: c :: s =>
    if date? w = some [] ∧ c.isDigit then
      let (clock, rest) := (c :: s).span isWordChar
      if isClock clock then some (.moment, rest) else none
    else whole
  | _ => whole

end Standstill.Toml
