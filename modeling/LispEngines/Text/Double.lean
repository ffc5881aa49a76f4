import LispEngines.Text.Decimal
import LispEngines.Text.Shortest

/-!
# Numbers with a fraction

Reading and writing 64-bit floating-point numbers.  A number may be written with a
point, with an exponent, or by one of the names of the values that no digits
denote.  It is printed with the fewest digits that read back as the same number
and never with an exponent.
-/

namespace LispEngines.Text

-- Powers are those of the core library, whatever else is in scope.
attribute [local instance (2000)] instPowNat

/-- The number nearest to `coefficient * 10 ^ exponent`: out of range it is infinite or zero. -/
def nearestDouble (coefficient : Nat) (exponent : Int) : Float :=
  Float.ofScientific coefficient (exponent < 0) exponent.natAbs

/-- An exponent part: nothing, or a letter, an optional sign and digits. -/
def exponent? : List Char → Option Int
  | [] => some 0
  | c :: cs =>
    if c = 'e' ∨ c = 'E' then
      match cs with
      | '-' :: ds => (digits? ds).map fun n => -(n : Int)
      | '+' :: ds => (digits? ds).map Int.ofNat
      | ds => (digits? ds).map Int.ofNat
    else none

/-- A number without a sign: digits with at most one point among or beside them,
and an optional exponent. -/
def unsignedDouble? (cs : List Char) : Option Float := do
  let whole := cs.takeWhile Char.isDigit
  let rest := cs.dropWhile Char.isDigit
  let (places, rest) := match rest with
    | '.' :: ds => (ds.takeWhile Char.isDigit, ds.dropWhile Char.isDigit)
    | rest => ([], rest)
  let exponent ← exponent? rest
  let coefficient ← digits? (whole ++ places)
  return nearestDouble coefficient (exponent - places.length)

/-- Read a number with an optional sign. -/
def double? (s : String) : Option Float :=
  let (negative, cs) := match s.toList with
    | '-' :: cs => (true, cs)
    | '+' :: cs => (false, cs)
    | cs => (false, cs)
  let name := String.ofList (cs.map Char.toLower)
  let size? :=
    if name = "inf" ∨ name = "infinity" then some (1.0 / 0.0)
    else if name = "nan" then some (0.0 / 0.0)
    else unsignedDouble? cs
  size?.map fun x => if negative then -x else x

/-- Whether the sign bit is set. -/
def isNegativeDouble (x : Float) : Bool := 2 ^ (63 : Nat) ≤ x.toBits.toNat

/-- The text of a number. -/
def doubleText (x : Float) : String :=
  if x.isNaN then "NaN"
  else
    let size := if x.isInf then "inf" else (shortest x).positional
    if isNegativeDouble x then "-" ++ size else size

end LispEngines.Text
