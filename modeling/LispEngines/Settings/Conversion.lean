import LispEngines.Engine
import LispEngines.Settings.Tree
import LispEngines.Text.Double
import LispEngines.Text.Quoted

/-!
# Reading settings as values

A setting is given before it is known what it is for, so a value of one sort may be
wanted as another.  Whatever has an obvious reading is accepted: a number may be a
truth value, a truth value a number, the words for on and off either, and any single
value a text.
-/

namespace LispEngines

/-- Why a setting cannot be read as what is wanted. -/
inductive Complaint where
  | wrongSort (found expected : String)
  | noSuchEngine (name : String)
  | noEngineName
  | outOfRange (n : Int)
  deriving DecidableEq, Repr

/-- The wording of a complaint. -/
def Complaint.message : Complaint → String
  | .wrongSort found expected => "invalid type: " ++ found ++ ", expected " ++ expected
  | .noSuchEngine name => "enum Strategy does not have variant constructor " ++ name
  | .noEngineName =>
    "value of enum Strategy should be represented by either string or table with " ++
      "exactly one key"
  | .outOfRange n => "invalid value: integer `" ++ toString n ++ "`, expected i32"

/-- What a complaint says that it found in place of a whole section: the size of an
integer is not told, and a number that could have a fraction shows one. -/
def Scalar.outline : Scalar → String
  | .nothing => "unit value"
  | .boolean b => "boolean `" ++ toString b ++ "`"
  | .integer n => "integer `" ++ toString n.toInt ++ "`"
  | .real x =>
    let digits := Text.doubleText x
    "floating point `" ++ (if digits.toList.all isWhole then digits ++ ".0" else digits) ++ "`"
  | .text s => "string " ++ Text.quoted s
where
  /-- The characters of which a whole number is written. -/
  isWhole (c : Char) : Bool := c = '-' || c.isDigit

namespace Setting

-- Powers are those of the core library, whatever else is in scope.
attribute [local instance (2000)] instPowNat

/-- What a complaint says that it found. -/
def description : Setting → String
  | .scalar _ .nothing => "unit value"
  | .scalar _ (.boolean b) => "boolean `" ++ toString b ++ "`"
  | .scalar _ (.integer n) => "64-bit integer `" ++ toString n.toInt ++ "`"
  | .scalar _ (.real x) => "floating point `" ++ Text.doubleText x ++ "`"
  | .scalar _ (.text s) => "string " ++ Text.quoted s
  | .sequence _ => "sequence"
  | .table _ => "map"

/-- Where a setting comes from. -/
def source? : Setting → Option String
  | .scalar source _ => source
  | _ => none

def wrongSort {α : Type} (v : Setting) (expected : String) : Except Complaint α :=
  .error (.wrongSort v.description expected)

/-- A text in lower case; letters outside ASCII are of no importance for the words
that are asked for. -/
def lowerText (s : String) : String := String.ofList (s.toList.map Char.toLower)

/-- The truth value that a word stands for, if it is one of the words for on and
off. -/
def switch? (s : String) : Option Bool :=
  let word := lowerText s
  if word = "true" ∨ word = "on" ∨ word = "yes" then some true
  else if word = "false" ∨ word = "off" ∨ word = "no" then some false
  else none

/-- A setting as a truth value. -/
def toBool (v : Setting) : Except Complaint Bool :=
  match v with
  | .scalar _ (.boolean b) => .ok b
  | .scalar _ (.integer n) => .ok (n ≠ 0)
  | .scalar _ (.real x) => .ok (x != 0.0)
  | .scalar _ (.text s) =>
    match switch? s with
    | some b => .ok b
    | none =>
      if s = "1" then .ok true
      else if s = "0" then .ok false
      else wrongSort v "a boolean"
  | _ => wrongSort v "a boolean"

/-- A setting as a number of at most 64 bits without a sign. -/
def toUnsigned (v : Setting) : Except Complaint Nat :=
  let expected := "an unsigned 64 bit or less integer"
  match v with
  | .scalar _ (.boolean b) => .ok b.toNat
  | .scalar _ (.integer n) => if n < 0 then wrongSort v expected else .ok n.toInt.toNat
  | .scalar _ (.real x) => .ok x.round.toUInt64.toNat
  | .scalar _ (.text s) =>
    match switch? s with
    | some b => .ok b.toNat
    | none =>
      match Text.unsigned? 64 s with
      | some n => .ok n
      | none => wrongSort v expected
  | _ => wrongSort v expected

/-- A setting as a number of at most 64 bits with a sign. -/
def toSigned (v : Setting) : Except Complaint Int64 :=
  let expected := "a signed 64 bit or less integer"
  match v with
  | .scalar _ (.boolean b) => .ok (if b then 1 else 0)
  | .scalar _ (.integer n) => .ok n
  | .scalar _ (.real x) => .ok x.round.toInt64
  | .scalar _ (.text s) =>
    match switch? s with
    | some b => .ok (if b then 1 else 0)
    | none =>
      match Text.int64? s with
      | some n => .ok n
      | none => wrongSort v expected
  | _ => wrongSort v expected

/-- A setting as a number of at most 32 bits with a sign. -/
def toInt32 (v : Setting) : Except Complaint Int32 := do
  let n := (← v.toSigned).toInt
  if -(2 ^ (31 : Nat)) ≤ n ∧ n < 2 ^ (31 : Nat) then return Int32.ofInt n
  else throw (.outOfRange n)

/-- A setting as a text: a value that was taken for a number or a truth value gives
the text in which that value is printed. -/
def toText (v : Setting) : Except Complaint String :=
  match v with
  | .scalar _ (.boolean b) => .ok (toString b)
  | .scalar _ (.integer n) => .ok (toString n.toInt)
  | .scalar _ (.real x) => .ok (Text.doubleText x)
  | .scalar _ (.text s) => .ok s
  | _ => wrongSort v "a string"

/-- A setting as a text that may be absent. -/
def toText? (v : Setting) : Except Complaint (Option String) :=
  match v with
  | .scalar _ .nothing => .ok none
  | v => v.toText.map some

/-- A setting as the choice of an engine: its name in any case, by itself or as the
only member of a table. -/
def toStrategy (v : Setting) : Except Complaint Strategy :=
  let named (s : String) : Except Complaint Strategy :=
    match Strategy.ofName? (lowerText s) with
    | some e => .ok e
    | none => .error (.noSuchEngine s)
  match v with
  | .scalar _ (.text s) => named s
  | .table [(s, _)] => named s
  | _ => .error .noEngineName

end Setting

end LispEngines
