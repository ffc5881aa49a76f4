/-!
# Shortest decimals

A binary floating-point number stands for all reals that round to it.  Among the
decimals that do, the shortest one is the text of the number: the one with the
fewest digits, and of those the one nearest to the number, or the greater of two
that are equally near.

The search is exact.  For one digit, two digits, and so on, the two decimals next to
the number on the grid of that many digits are tried; if any decimal of the grid
rounds to the number, one of these two does.  Seventeen digits are always enough.
-/

namespace LispEngines.Text

-- Powers are those of the core library, whatever else is in scope.
attribute [local instance (2000)] instPowNat

/-- The decimal `coefficient * 10 ^ exponent`. -/
structure ScaledDecimal where
  coefficient : Nat
  exponent : Int
  deriving DecidableEq, Repr

namespace ScaledDecimal

/-- Move zeros at the end of the coefficient into the exponent. -/
def trimmed : (fuel : Nat) → ScaledDecimal → ScaledDecimal
  | 0, d => d
  | fuel + 1, d =>
    if d.coefficient ≠ 0 ∧ d.coefficient % 10 = 0 then
      trimmed fuel ⟨d.coefficient / 10, d.exponent + 1⟩
    else d

/-- All digits written out, with a point where one is needed and no exponent. -/
def positional (d : ScaledDecimal) : String :=
  let digits := (toString d.coefficient).toList
  if 0 ≤ d.exponent then
    String.ofList (digits ++ List.replicate d.exponent.toNat '0')
  else
    let places := (-d.exponent).toNat
    let padded := List.replicate (places + 1 - digits.length) '0' ++ digits
    let whole := padded.length - places
    String.ofList (padded.take whole ++ '.' :: padded.drop whole)

end ScaledDecimal

/-- The reals that round to a number, as fractions over one denominator. -/
structure RoundingInterval where
  low : Nat
  middle : Nat
  high : Nat
  denominator : Nat
  /-- Whether the ends round to the number too. -/
  closed : Bool

namespace RoundingInterval

/-- The interval of the positive number `significand * 2 ^ exponent`.  Below a power
of two the numbers lie twice as dense. -/
def ofScaled (significand : Nat) (exponent : Int) (powerOfTwo : Bool) : RoundingInterval :=
  let up := 2 ^ (exponent - 2).toNat
  let low := 4 * significand - (if powerOfTwo then 1 else 2)
  { low := low * up
    middle := 4 * significand * up
    high := (4 * significand + 2) * up
    denominator := 2 ^ (2 - exponent).toNat
    closed := significand % 2 == 0 }

/-- Whether the fraction `n / d` lies in the interval. -/
def contains (r : RoundingInterval) (n d : Nat) : Bool :=
  let x := n * r.denominator
  if r.closed then r.low * d ≤ x && x ≤ r.high * d else r.low * d < x && x < r.high * d

/-- The number of decimal places before which the middle has no digit: the least
`p ≥ start` with `middle / denominator < 10 ^ p`. -/
def magnitude (r : RoundingInterval) : (fuel : Nat) → (start : Int) → Int
  | 0, p => p
  | fuel + 1, p =>
    if r.middle * 10 ^ (-p).toNat < r.denominator * 10 ^ p.toNat then p
    else magnitude r fuel (p + 1)

/-- The decimal nearest to the middle among the two next to it on the grid
`10 ^ exponent`, if it lies in the interval. -/
def onGrid? (r : RoundingInterval) (exponent : Int) : Option ScaledDecimal :=
  let n := r.middle * 10 ^ (-exponent).toNat
  let d := r.denominator * 10 ^ exponent.toNat
  let below := n / d
  let inside (c : Nat) : Bool := r.contains (c * 10 ^ exponent.toNat) (10 ^ (-exponent).toNat)
  let roundsDown := 2 * (n % d) < d
  let nearer := if roundsDown then below else below + 1
  let farther := if roundsDown then below + 1 else below
  if inside nearer then some ⟨nearer, exponent⟩
  else if inside farther then some ⟨farther, exponent⟩
  else none

/-- The first grid with a decimal in the interval, from `digits` digits on. -/
def search (r : RoundingInterval) (magnitude : Int) : (fuel digits : Nat) → ScaledDecimal
  | 0, digits => ⟨r.middle / r.denominator, digits⟩
  | fuel + 1, digits =>
    match r.onGrid? (magnitude - digits) with
    | some d => d
    | none => search r magnitude fuel (digits + 1)

end RoundingInterval

/-- The shortest decimal of the absolute value of a finite number. -/
def shortest (x : Float) : ScaledDecimal :=
  let bits := x.toBits.toNat
  let fraction := bits % 2 ^ (52 : Nat)
  let field := bits / 2 ^ (52 : Nat) % 2 ^ (11 : Nat)
  if fraction = 0 ∧ field = 0 then ⟨0, 0⟩
  else
    let significand := if field = 0 then fraction else 2 ^ (52 : Nat) + fraction
    let exponent : Int := (max field 1 : Nat) - 1075
    let r := RoundingInterval.ofScaled significand exponent (fraction == 0 && field > 1)
    (r.search (r.magnitude 700 (-330)) 17 1).trimmed 20

end LispEngines.Text
