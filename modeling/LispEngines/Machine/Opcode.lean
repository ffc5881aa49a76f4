/-!
# The instruction set

An instruction is one code word, followed by one operand word for those that have
an operand.  The word of an instruction is its position in `Opcode.all`, and
assembly text names it by its mnemonic.

Comparisons find their left side on the stack and their right side in the
accumulator.  Each comes in two forms: one takes the left side off the stack, the
other, whose mnemonic ends in `K`, keeps it.
-/

namespace LispEngines

/-- An instruction without its operand. -/
inductive Opcode where
  | nop | load | store | adjust | push | pop | peek | dup | swap | data | call | enter | leave
  | jumpZero | jumpNonzero | jump | less | lessKeep | lessEqual | lessEqualKeep | greater
  | greaterKeep | equal | equalKeep | unequalKeep | unequal | sub | mul | new | kind | count
  | index | setScope | getScope | extend | convert | invoke | head | tail | lookup | assign
  | define | newScope | exit | print | halt | dump
  deriving DecidableEq, Repr, Inhabited

namespace Opcode

/-- The instructions in the order of their words. -/
def all : Array Opcode := #[
  .nop, .load, .store, .adjust, .push, .pop, .peek, .dup, .swap, .data, .call, .enter, .leave,
  .jumpZero, .jumpNonzero, .jump, .less, .lessKeep, .lessEqual, .lessEqualKeep, .greater,
  .greaterKeep, .equal, .equalKeep, .unequalKeep, .unequal, .sub, .mul, .new, .kind, .count,
  .index, .setScope, .getScope, .extend, .convert, .invoke, .head, .tail, .lookup, .assign,
  .define, .newScope, .exit, .print, .halt, .dump]

/-- The word of an instruction. -/
def word : Opcode → Int64
  | .nop => 0
  | .load => 1
  | .store => 2
  | .adjust => 3
  | .push => 4
  | .pop => 5
  | .peek => 6
  | .dup => 7
  | .swap => 8
  | .data => 9
  | .call => 10
  | .enter => 11
  | .leave => 12
  | .jumpZero => 13
  | .jumpNonzero => 14
  | .jump => 15
  | .less => 16
  | .lessKeep => 17
  | .lessEqual => 18
  | .lessEqualKeep => 19
  | .greater => 20
  | .greaterKeep => 21
  | .equal => 22
  | .equalKeep => 23
  | .unequalKeep => 24
  | .unequal => 25
  | .sub => 26
  | .mul => 27
  | .new => 28
  | .kind => 29
  | .count => 30
  | .index => 31
  | .setScope => 32
  | .getScope => 33
  | .extend => 34
  | .convert => 35
  | .invoke => 36
  | .head => 37
  | .tail => 38
  | .lookup => 39
  | .assign => 40
  | .define => 41
  | .newScope => 42
  | .exit => 43
  | .print => 44
  | .halt => 45
  | .dump => 46

/-- A word as a position; negative words have none. -/
def position? (w : Int64) : Option Nat :=
  if w < 0 then none else some w.toNatClampNeg

/-- The instruction with a given word. -/
def ofWord? (w : Int64) : Option Opcode := do all[← position? w]?

theorem ofWord?_word (op : Opcode) : ofWord? op.word = some op := by
  cases op <;> decide

/-- How many operand words follow an instruction. -/
def operandCount : Opcode → Nat
  | .load | .store | .adjust | .data | .call | .enter | .jumpZero | .jumpNonzero
  | .jump | .halt => 1
  | _ => 0

/-- The mnemonic of an instruction. -/
def mnemonic : Opcode → String
  | .nop => "NOP"
  | .load => "LEA"
  | .store => "SEA"
  | .adjust => "ADJ"
  | .push => "PUSH"
  | .pop => "POP"
  | .peek => "PEEK"
  | .dup => "DUP"
  | .swap => "SWITCH"
  | .data => "DATA"
  | .call => "JSR"
  | .enter => "ENTER"
  | .leave => "LEAVE"
  | .jumpZero => "BZ"
  | .jumpNonzero => "BNZ"
  | .jump => "JMP"
  | .less => "LT"
  | .lessKeep => "LTK"
  | .lessEqual => "LE"
  | .lessEqualKeep => "LEK"
  | .greater => "GT"
  | .greaterKeep => "GTK"
  | .equal => "EQ"
  | .equalKeep => "EQK"
  | .unequalKeep => "NEQK"
  | .unequal => "NEQ"
  | .sub => "SUB"
  | .mul => "MUL"
  | .new => "CELLNEW"
  | .kind => "CELLTYPE"
  | .count => "CELLCOUNT"
  | .index => "CELLINDEX"
  | .setScope => "CELLSETENV"
  | .getScope => "CELLGETENV"
  | .extend => "CELLPUSH"
  | .convert => "CELLSETTYPE"
  | .invoke => "CELLINVOKE"
  | .head => "CELLHEAD"
  | .tail => "CELLTAIL"
  | .lookup => "ENVLOOKUP"
  | .assign => "ENVSET"
  | .define => "ENVDEFINE"
  | .newScope => "ENVNEW"
  | .exit => "EXIT"
  | .print => "PRINT"
  | .halt => "HALTMSG"
  | .dump => "STATE"

end Opcode

end LispEngines
