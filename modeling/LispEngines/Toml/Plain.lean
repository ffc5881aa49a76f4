import LispEngines.Text.Affix
import LispEngines.Text.Double
import LispEngines.Toml.Quotation

/-!
# Unquoted values in TOML

Numbers, truth values, dates and times.  An unquoted value is a run of letters,
digits, signs, points, colons and underscores, and the whole run has to be spelt like
a value of one of these sorts.
-/

namespace LispEngines.Toml

/-- Whether a character belongs to an unquoted value. -/
def isPlainValueChar (c : Char) : Bool :=
  c.isAlphanum || c = '+' || c = '-' || c = '_' || c = '.' || c = ':'

/-! ## Numbers -/

/-- Digits, in which each underscore stands between two digits; the result is
without underscores. -/
def grouped? (isDigit : Char → Bool) : List Char → Option (List Char)
  | [] => none
  | [c] => if isDigit c then some [c] else none
  | c :: '_' :: cs => if isDigit c then (grouped? isDigit cs).map (c :: ·) else none
  | c :: cs => if isDigit c then (grouped? isDigit cs).map (c :: ·) else none

/-- The number that digits denote in a base up to sixteen. -/
def based? (base : Nat) (cs : List Char) : Option Nat := do
  let ds ← grouped? (fun c => (hexDigit? c).any (· < base)) cs
  ds.foldlM (fun n c => (hexDigit? c).map (base * n + ·)) 0

/-- Decimal digits without a zero in front of others. -/
def wholeDigits? (cs : List Char) : Option (List Char) := do
  let ds ← grouped? Char.isDigit cs
  if 1 < ds.length ∧ ds.head? = some '0' then none else some ds

/-- A sign and what follows it. -/
def unsign : List Char → Bool × List Char
  | '-' :: cs => (true, cs)
  | '+' :: cs => (false, cs)
  | cs => (false, cs)

/-- Read an integer. -/
def integer? (cs : List Char) : Option Int64 :=
  let size? : Option Int := match cs with
    | '0' :: 'x' :: cs => (based? 16 cs).map Int.ofNat
    | '0' :: 'o' :: cs => (based? 8 cs).map Int.ofNat
    | '0' :: 'b' :: cs => (based? 2 cs).map Int.ofNat
    | cs => do
      let (negative, cs) := unsign cs
      let n ← Text.digits? (← wholeDigits? cs)
      return if negative then -(n : Int) else n
  size?.bind Text.signed64?

/-- Read a number with a point or an exponent, or the name of one.  A number above
the largest is refused; one below the least reads as negative infinity. -/
def real? (cs : List Char) : Option Float := do
  let (negative, cs) := unsign cs
  let size ←
    if cs = "inf".toList then some (1.0 / 0.0)
    else if cs = "nan".toList then some (0.0 / 0.0)
    else do
      let notMark (c : Char) : Bool := c ≠ '.' && c ≠ 'e' && c ≠ 'E'
      let whole ← wholeDigits? (cs.takeWhile notMark)
      let rest := cs.dropWhile notMark
      let (places, rest) ← match rest with
        | '.' :: cs => do
          let isMark (c : Char) : Bool := c = 'e' || c = 'E'
          let places ← grouped? Char.isDigit (cs.takeWhile (!isMark ·))
          some ('.' :: places, cs.dropWhile (!isMark ·))
        | rest => some ([], rest)
      let exponent ← match rest with
        | [] => if places.isEmpty then none else some []
        | e :: '-' :: cs => (grouped? Char.isDigit cs).map ([e, '-'] ++ ·)
        | e :: '+' :: cs => (grouped? Char.isDigit cs).map ([e, '+'] ++ ·)
        | e :: cs => (grouped? Char.isDigit cs).map (e :: ·)
      let x ← Text.unsignedDouble? (whole ++ places ++ exponent)
      if x.isInf ∧ ¬ negative then none else some x
  return if negative then -size else size

/-! ## Dates and times -/

/-- Read exactly `count` digits as a number between two bounds. -/
def numeral? (count low high : Nat) (cs : List Char) : Option (List Char × List Char) := do
  let n ← Text.digits? (cs.take count)
  if cs.length < count ∨ n < low ∨ high < n then none
  else some (cs.take count, cs.drop count)

def daysInMonth (year month : Nat) : Nat :=
  if month = 2 then
    if year % 4 = 0 ∧ (year % 100 ≠ 0 ∨ year % 400 = 0) then 29 else 28
  else if month = 4 ∨ month = 6 ∨ month = 9 ∨ month = 11 then 30 else 31

/-- Read a year, a month and a day with hyphens between them. -/
def date? (cs : List Char) : Option (List Char × List Char) := do
  let (year, cs) ← numeral? 4 0 9999 cs
  let cs ← Text.afterLead? ['-'] cs
  let (month, cs) ← numeral? 2 1 12 cs
  let cs ← Text.afterLead? ['-'] cs
  let last := daysInMonth ((Text.digits? year).getD 0) ((Text.digits? month).getD 0)
  let (day, cs) ← numeral? 2 1 last cs
  return (year ++ '-' :: month ++ '-' :: day, cs)

/-- Read a time of day.  A fraction of a second counts up to nine places, and
zeros at its end are left out. -/
def time? (cs : List Char) : Option (List Char × List Char) := do
  let (hour, cs) ← numeral? 2 0 23 cs
  let cs ← Text.afterLead? [':'] cs
  let (minute, cs) ← numeral? 2 0 59 cs
  let cs ← Text.afterLead? [':'] cs
  let (second, cs) ← numeral? 2 0 60 cs
  let time := hour ++ ':' :: minute ++ ':' :: second
  match cs with
  | '.' :: cs =>
    let places := cs.takeWhile Char.isDigit
    if places.isEmpty then none
    else
      let kept := ((places.take 9).reverse.dropWhile (· = '0')).reverse
      let fraction := if kept.isEmpty then [] else '.' :: kept
      return (time ++ fraction, cs.dropWhile Char.isDigit)
  | cs => return (time, cs)

/-- Read an offset from universal time. -/
def offset? (cs : List Char) : Option (List Char) :=
  match cs with
  | [] => some []
  | ['Z'] | ['z'] => some ['Z']
  | sign :: cs => do
    if sign ≠ '+' ∧ sign ≠ '-' then none
    else
      let (hour, cs) ← numeral? 2 0 23 cs
      let cs ← Text.afterLead? [':'] cs
      let (minute, cs) ← numeral? 2 0 59 cs
      let zero := hour ++ minute = "0000".toList
      if cs.isEmpty then return (if zero then '+' else sign) :: hour ++ ':' :: minute else none

/-- Read a date, a time, or a date and a time with an optional offset. -/
def moment? (cs : List Char) : Option String :=
  match date? cs with
  | some (date, []) => some (String.ofList date)
  | some (date, mark :: cs) =>
    if mark = 'T' ∨ mark = 't' ∨ mark = ' ' then do
      let (time, cs) ← time? cs
      return String.ofList (date ++ 'T' :: time ++ (← offset? cs))
    else none
  | none =>
    match time? cs with
    | some (time, []) => some (String.ofList time)
    | _ => none

/-! ## All sorts -/

/-- Whether a run is continued behind one blank: a date and the time that belongs to
it. -/
def spansGap (run rest : List Char) : Bool :=
  match date? run, rest with
  | some (_, []), ' ' :: a :: b :: ':' :: _ => a.isDigit && b.isDigit
  | _, _ => false

/-- The value that a run of characters spells. -/
def plainValue? (run : List Char) : Option Toml :=
  if run = "true".toList then some (.boolean true)
  else if run = "false".toList then some (.boolean false)
  else match moment? run with
  | some s => some (.moment s)
  | none =>
    match integer? run with
    | some n => some (.integer n)
    | none => (real? run).map .real

/-- Read an unquoted value. -/
def plain? (cs : List Char) : Option (Toml × List Char) :=
  let run := cs.takeWhile isPlainValueChar
  let rest := cs.dropWhile isPlainValueChar
  let (run, rest) :=
    if spansGap run rest then
      (run ++ ' ' :: rest.tail.takeWhile isPlainValueChar, rest.tail.dropWhile isPlainValueChar)
    else (run, rest)
  (plainValue? run).map fun v => (v, rest)

end LispEngines.Toml
