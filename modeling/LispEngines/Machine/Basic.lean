import LispEngines.Arithmetic
import LispEngines.Library
import LispEngines.Machine.Program

/-!
# The machine

An accumulator machine over a stack of values of fixed size.  The stack grows
downwards: pushing decrements SP and popping increments it.  The frame that `JSR`
and `ENTER` build for a call looks like this.

    BP+2 and up    arguments; the one pushed last is at BP+2
    BP+1           return address
    BP             the caller's BP
    BP-1 and down  local variables

Every access to stack, code and constants is checked, and a bad one is a fault.
The accessors below are the only way to the stack, so what they refuse no
instruction can do.  Registers are positions and therefore natural numbers; where
a program can see one, it is a 64-bit number.
-/

namespace LispEngines

/-- A machine with a program loaded. -/
structure Machine where
  program : Program
  stack : Array Value
  pc : Nat
  sp : Nat
  bp : Nat
  a : Value := .number 0
  finished : Bool := false
  haltMessage : Option String := none
  steps : Nat := 0
  deriving Repr, Inhabited

namespace Machine

-- Powers are those of the core library, whatever else is in scope.
attribute [local instance (2000)] instPowNat

/-! ## Checked access -/

/-- Fail with a fault. -/
def fault {α : Type} (f : Fault) : Step Machine α := throw (.fault f)

/-- The stack slot with a given index. -/
def slot (i : Nat) : Step Machine Value := do
  match (← get).stack[i]? with
  | some v => pure v
  | none => fault (.stackIndex i)

/-- Change a stack slot. -/
def setSlot (i : Nat) (v : Value) : Step Machine Unit := do
  if i < (← get).stack.size then
    modify fun m => { m with stack := m.stack.setIfInBounds i v }
  else fault (.stackIndex i)

/-- The value on top of the stack. -/
def top : Step Machine Value := do slot (← get).sp

/-- Replace the value on top of the stack. -/
def setTop (v : Value) : Step Machine Unit := do setSlot (← get).sp v

/-- Push a value. -/
def push (v : Value) : Step Machine Unit := do
  match (← get).sp with
  | 0 => fault .stackOverflow
  | sp + 1 =>
    modify fun m => { m with sp }
    setSlot sp v

/-- Pop a value. -/
def pop : Step Machine Value := do
  let v ← top
  modify fun m => { m with sp := m.sp + 1 }
  pure v

/-- The next code word. -/
def fetch : Step Machine Int64 := do
  let pc := (← get).pc
  match (← get).program.code[pc]? with
  | some w =>
    modify fun m => { m with pc := pc + 1 }
    pure w
  | none => fault (.outsideCode pc)

/-- The code position that a jump names. -/
def target (n : Int64) : Step Machine Nat := do
  match Opcode.position? n with
  | some pc =>
    if pc < (← get).program.code.size then pure pc else fault (.jumpTarget n)
  | none => fault (.jumpTarget n)

/-- The constant that an operand selects. -/
def constant (n : Int64) : Step Machine Value := do
  match (← get).program.constant? n with
  | some v => pure v
  | none => fault (.dataIndex n)

/-- A position moved by an operand.  Positions are below `2 ^ 63`. -/
def offset (base : Nat) (delta : Int64) : Step Machine Nat :=
  let i := (base : Int) + delta.toInt
  if base < 2 ^ (63 : Nat) ∧ 0 ≤ i ∧ i < 2 ^ (63 : Nat) then pure i.toNat
  else fault (.offset delta base)

/-- The position that a saved register holds. -/
def savedRegister (v : Value) : Step Machine Nat := do
  match v.number?.bind Opcode.position? with
  | some i => pure i
  | none => fault (.frameLink (v.inspected (← getThe Store)))

/-- A register as a number that programs can see. -/
def registerValue (i : Nat) : Value := .number (Int64.ofNat i)

/-- Change the accumulator. -/
def setA (v : Value) : Step Machine Unit := modify fun m => { m with a := v }

/-- The scope that an instruction needs. -/
def scopeOf (op : String) (v : Value) : Step Machine ScopeRef :=
  match v.scope? with
  | some s => pure s
  | none => throw (.mismatch (.notScope op v.kind))

/-- Write program output, whole or not at all. -/
def emit (text : String) : Step Machine Unit :=
  Step.act (Action.write text fun reason => .fault (.output reason))

/-! ## Loading -/

/-- A machine at the entry of a program, with nothing on the stack. -/
def load (program : Program) (stackSize : Nat) : Machine :=
  { program
    stack := Array.replicate stackSize (.number 0)
    pc := program.entry
    sp := stackSize - 1
    bp := stackSize - 1 }

/-- A machine at the entry of a program, with the arguments pushed in order. -/
def start (program : Program) (args : List Value) (stackSize : Nat) : Action Machine :=
  fun st =>
    if stackSize = 0 then (.error (.fault .noStack), st)
    else
      match (args.forM push) (load program stackSize) st with
      | ((.ok (), m), st) => (.ok m, st)
      | ((.error e, _), st) => (.error e, st)

/-! ## The dump -/

/-- The lines of a dump for the slots from `i` on, at most `n` of them. -/
def dumpSlots (m : Machine) (st : Store) (i : Nat) : (n : Nat) → String
  | 0 => ""
  | n + 1 =>
    match m.stack[i]? with
    | some v => "\n  [" ++ toString i ++ "] " ++ v.inspected st ++ dumpSlots m st (i + 1) n
    | none => ""

/-- The registers and the first slots from the top of the stack. -/
def dump (m : Machine) (st : Store) : String :=
  "PC=" ++ toString m.pc ++ " SP=" ++ toString m.sp ++ " BP=" ++ toString m.bp ++
    " A=" ++ m.a.inspected st ++ " steps=" ++ toString m.steps ++ dumpSlots m st m.sp 8

end Machine

end LispEngines
