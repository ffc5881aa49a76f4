import LispEngines.Machine.Opcode
import LispEngines.Show

/-!
# Programs and their listings

A program is what the machine loads: code words, the constants that the code
refers to by position, and the position where execution starts.  Its listing
gives each instruction a line with its position, and shows the constants that
instructions load.
-/

namespace LispEngines

/-- A loadable program. -/
structure Program where
  code : Array Int64
  data : Array Value
  entry : Nat
  deriving Repr, Inhabited

namespace Program

/-- A number in decimal with at least five digits. -/
def fiveDigits (n : Nat) : String :=
  let digits := toString n
  String.ofList (List.replicate (5 - digits.length) '0') ++ digits

/-- The constant that an operand selects. -/
def constant? (p : Program) (operand : Int64) : Option Value := do
  p.data[← Opcode.position? operand]?

/-- What a listing adds to an instruction that loads a constant. -/
def annotation (p : Program) (st : Store) (op : Opcode) (operands : List Int64) : String :=
  match op, operands with
  | .data, n :: _ | .halt, n :: _ =>
    match p.constant? n with
    | some v => "    ; " ++ v.inspected st
    | none => ""
  | _, _ => ""

/-- The listing of the code words from position `pc` on. -/
def listingFrom (p : Program) (st : Store) (pc : Nat) : List Int64 → String
  | [] => ""
  | w :: rest =>
    let margin := (if pc = p.entry then ">" else " ") ++ fiveDigits pc ++ "  "
    match Opcode.ofWord? w with
    | none =>
      margin ++ ".word " ++ toString w.toInt ++ "\n" ++ listingFrom p st (pc + 1) rest
    | some op =>
      let n := op.operandCount
      let operands := rest.take n
      margin ++ op.mnemonic ++
        String.join (operands.map fun w => " " ++ toString w.toInt) ++
        annotation p st op operands ++ "\n" ++
        listingFrom p st (pc + 1 + n) (rest.drop n)
termination_by ws => ws.length
decreasing_by
  all_goals simp only [List.length_drop, List.length_cons]
  all_goals omega

/-- A program with one instruction a line. -/
def listing (p : Program) (st : Store) : String := listingFrom p st 0 p.code.toList

end Program

end LispEngines
