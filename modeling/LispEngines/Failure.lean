import LispEngines.Text.Affix
import LispEngines.Value

/-!
# What can go wrong in an evaluation

Failures are causes; their wording is the job of `Failure.message` alone.  Where a
message quotes a value, the failure carries the text the value had when the
failure arose, since a list may be extended afterwards.
-/

namespace LispEngines

/-- Why an operation does not fit the values it was given. -/
inductive Mismatch where
  /-- A numeric operation met something else. -/
  | numbers (op : String) (left : Kind) (leftText : String) (right : Kind) (rightText : String)
  /-- Text can only be joined with an atom. -/
  | concatenate (right : Kind)
  /-- A list can only be joined with a list. -/
  | appendTo (right : Kind)
  /-- A value that cannot be added to anything. -/
  | unsupported (left : Kind)
  /-- A name was needed. -/
  | notName (found : Kind) (shown : String)
  /-- A list procedure met something else. -/
  | notList (op : String) (found : Kind) (shown : String)
  /-- The native procedure that describes scopes met something else. -/
  | notDescribable (found : Kind)
  /-- A machine instruction needed a scope. -/
  | notScope (op : String) (found : Kind)
  /-- A machine instruction needed a closure. -/
  | notClosure (op : String) (found : Kind)
  /-- A machine instruction needed a list to extend. -/
  | notExtensible (op : String) (found : Kind)
  /-- No kind has this code. -/
  | noSuchKind (op : String) (shown : String)
  /-- The kind with this code has no empty value. -/
  | noEmptyValue (op : String) (code : Int64)
  /-- A value cannot be turned into this kind. -/
  | notConvertible (op : String) (found : Kind) (wanted : Kind)
  deriving DecidableEq, Repr

namespace Mismatch

/-- The operation that did not fit. -/
def operation : Mismatch → String
  | .numbers op .. => op
  | .concatenate _ | .appendTo _ | .unsupported _ => "+"
  | .notName .. => "bind"
  | .notList op .. => op
  | .notDescribable _ => "env-str"
  | .notScope op _ => op
  | .notClosure op _ => op
  | .notExtensible op _ => op
  | .noSuchKind op _ => op
  | .noEmptyValue op _ => op
  | .notConvertible op .. => op

/-- What did not fit. -/
def detail : Mismatch → String
  | .numbers _ left leftText right rightText =>
    "expected numbers, got " ++ left.word ++ " '" ++ leftText ++ "' and " ++
      right.word ++ " '" ++ rightText ++ "'"
  | .concatenate right => "cannot concatenate " ++ right.word
  | .appendTo right => "cannot append " ++ right.word ++ " to list"
  | .unsupported left => "unsupported operand " ++ left.word
  | .notName found shown => "expected symbol, got " ++ found.word ++ " '" ++ shown ++ "'"
  | .notList _ found shown => "expected list, got " ++ found.word ++ " '" ++ shown ++ "'"
  | .notDescribable found => "expected environment, got " ++ found.word
  | .notScope _ found => "expected an environment, got " ++ found.word
  | .notClosure _ found => "expected a closure, got " ++ found.word
  | .notExtensible _ found => "expected a list, got " ++ found.word
  | .noSuchKind _ shown => "no cell type " ++ shown
  | .noEmptyValue _ code => "cannot create an empty cell of type " ++ toString code.toInt
  | .notConvertible _ found wanted => "cannot retag " ++ found.word ++ " as " ++ wanted.name

end Mismatch

/-- An access outside the bounds of the machine. -/
inductive Fault where
  | noStack
  | stackOverflow
  | stackIndex (index : Nat)
  | stackBase (adjustment : Int64)
  | offset (delta : Int64) (base : Nat)
  | negativeFrame (size : Int64)
  | frameLink (shown : String)
  | outsideCode (pc : Nat)
  | jumpTarget (target : Int64)
  | dataIndex (index : Int64)
  | listIndex (index : Int64) (shown : String)
  | output (reason : String)
  deriving DecidableEq, Repr

/-- The wording of a fault. -/
def Fault.message : Fault → String
  | .noStack => "stack size must be positive"
  | .stackOverflow => "stack overflow"
  | .stackIndex i => "stack index " ++ toString i ++ " out of range"
  | .stackBase n => "ADJ " ++ toString n.toInt ++ " moves SP past the stack base"
  | .offset delta base =>
    "offset " ++ toString delta.toInt ++ " from " ++ toString base ++ " out of range"
  | .negativeFrame n => "ENTER with negative size " ++ toString n.toInt
  | .frameLink shown => "corrupt frame link " ++ shown
  | .outsideCode pc => "pc " ++ toString pc ++ " outside code"
  | .jumpTarget n => "jump target " ++ toString n.toInt ++ " outside code"
  | .dataIndex n => "data index " ++ toString n.toInt ++ " out of range"
  | .listIndex n shown => "index " ++ toString n.toInt ++ " out of range for " ++ shown
  | .output reason => "output failed: " ++ reason

/-- Why an evaluation ended without a value. -/
inductive Failure where
  | unbound (name : String)
  | setUndefined (name : String)
  | notCallable (shown : String)
  | mismatch (cause : Mismatch)
  | arity (expected got : Nat)
  | divideByZero
  | malformed (detail : String)
  | tooDeep (limit : Nat)
  | missingOpcode (word : Int64) (pc : Nat)
  | fault (cause : Fault)
  | noHandler (phase : String)
  | halted (message : String)
  | output (reason : String)
  deriving DecidableEq, Repr

namespace Failure

/-- The wording of a failure. -/
def message : Failure → String
  | .unbound name => "unbound symbol '" ++ name ++ "'"
  | .setUndefined name => "set! on undefined symbol '" ++ name ++ "'"
  | .notCallable shown => "cannot call " ++ shown
  | .mismatch cause => "type mismatch in '" ++ cause.operation ++ "': " ++ cause.detail
  | .arity expected got =>
    "arity mismatch: expected " ++ toString expected ++ " argument(s), got " ++ toString got
  | .divideByZero => "division by zero"
  | .malformed detail => "malformed form: " ++ detail
  | .tooDeep limit => "recursion limit of " ++ toString limit ++ " exceeded"
  | .missingOpcode word pc =>
    "missing opcode " ++ toString word.toInt ++ " at pc " ++ toString pc
  | .fault cause => "vm fault: " ++ cause.message
  | .noHandler phase => "unimplemented step " ++ phase
  | .halted message => "halted: " ++ message
  | .output reason => "output failed: " ++ reason

/-- How a machine program announces that it rejects a form. -/
def malformedHalt : String := "malformed form: "

/-- The failure meant by a machine that stopped itself with a message. -/
def ofHalt (message : String) : Failure :=
  match Text.dropLead? malformedHalt message with
  | some detail => .malformed detail
  | none => .halted message

end Failure

end LispEngines
