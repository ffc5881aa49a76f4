/-!
# Decimal integers

Reading integers in decimal notation: digits of ASCII, at least one, optionally
after a sign.  The bounded readers refuse a number outside their range instead of
wrapping it.
-/

namespace LispEngines.Text

-- Powers are those of the core library, whatever else is in scope.
attribute [local instance (2000)] instPowNat

/-- The number that a sequence of decimal digits denotes; `none` unless there is
at least one character and all are digits. -/
def digits? (cs : List Char) : Option Nat :=
  if cs.isEmpty || !cs.all Char.isDigit then none
  else some (cs.foldl (fun n c => 10 * n + (c.toNat - '0'.toNat)) 0)

/-- Read an integer with an optional sign. -/
def integer? (s : String) : Option Int :=
  match s.toList with
  | '-' :: cs => (digits? cs).map fun n => -(n : Int)
  | '+' :: cs => (digits? cs).map Int.ofNat
  | cs => (digits? cs).map Int.ofNat

/-- The integer as a signed 64-bit number, if it is one. -/
def signed64? (i : Int) : Option Int64 :=
  if -(2 ^ (63 : Nat)) ≤ i ∧ i < 2 ^ (63 : Nat) then some (Int64.ofInt i) else none

/-- Read a signed 64-bit integer. -/
def int64? (s : String) : Option Int64 := (integer? s).bind signed64?

/-- Read an unsigned integer below `2 ^ bits`; a plus sign is allowed. -/
def unsigned? (bits : Nat) (s : String) : Option Nat :=
  let cs := match s.toList with
    | '+' :: cs => cs
    | cs => cs
  (digits? cs).bind fun n => if n < 2 ^ bits then some n else none

end LispEngines.Text
