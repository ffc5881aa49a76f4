import LispEngines.Machine.Basic
import LispEngines.Text.Decimal

/-!
# Executing instructions

What each instruction does, in the order in which it does it.  The order matters
when an instruction fails, because what it did until then stays done: an operand
that was popped stays popped, and the program counter is past the instruction.
-/

namespace LispEngines.Machine

/-- The empty value of a kind.  Closures and procedures have none. -/
def emptyValue (code : Int64) : Action Value :=
  match Kind.ofCode? code with
  | some .symbol => pure (.symbol "")
  | some .text => pure (.text "")
  | some .number => pure (.number 0)
  | some .list => Action.newNil
  | some .scope => do return .scope (← Action.newScope none)
  | _ => throw (.mismatch (.noEmptyValue "CELLNEW" code))

/-- The same content under another kind.  A list becomes a closure over a scope of
its own, in which nothing is bound. -/
def converted (v : Value) (wanted : Kind) : Action Value := do
  if v.kind = wanted then return v
  let refuse : Action Value := throw (.mismatch (.notConvertible "CELLSETTYPE" v.kind wanted))
  match wanted, v with
  | .lambda, .list r => return .lambda ⟨r, ← Action.newScope none⟩
  | .expander, .list r => return .expander ⟨r, ← Action.newScope none⟩
  | .lambda, .expander c => return .lambda c
  | .expander, .lambda c => return .expander c
  | .list, .lambda c => return .list c.form
  | .list, .expander c => return .list c.form
  | .symbol, v =>
    match v.atomText? with
    | some s => return .symbol s
    | none => refuse
  | .text, v =>
    match v.atomText? with
    | some s => return .text s
    | none => refuse
  | .number, .symbol s =>
    match Text.int64? s with
    | some n => return .number n
    | none => refuse
  | .number, .text s =>
    match Text.int64? s with
    | some n => return .number n
    | none => refuse
  | _, _ => refuse

/-- The left side of a comparison, taken off the stack or kept. -/
def leftSide (keep : Bool) : Step Machine Value := if keep then top else pop

/-- A truth value as the machine represents it. -/
def flag (b : Bool) : Value := .number (if b then 1 else 0)

/-- Compare two numbers. -/
def comparison (op : Comparison) (keep : Bool) : Step Machine Unit := do
  let left ← leftSide keep
  setA (flag (← Step.act (Value.compare op left (← get).a)))

/-- Test whether two values are equal, or whether they differ. -/
def equality (wanted : Bool) (keep : Bool) : Step Machine Unit := do
  let left ← leftSide keep
  let right := (← get).a
  setA (flag (left.same right (← getThe Store) == wanted))

/-- Jump if the integer view of the accumulator satisfies a test. -/
def jumpIf (test : Int64 → Bool) (n : Int64) : Step Machine Unit := do
  if test (← get).a.toInt then
    let pc ← target n
    modify fun m => { m with pc }

/-- Call a native procedure from a program. -/
def invoke (callee : Value) (args : List Value) (scope : Value) : Step Machine Value := do
  match callee with
  | .native p => Step.act (p.call args)
  | .scopeNative p => Step.act (p.call args (← scopeOf "CELLINVOKE" scope))
  | other => throw (.notCallable (other.shown (← getThe Store)))

/-- Execute one instruction with its operand. -/
def execute (op : Opcode) (n : Int64) : Step Machine Unit := do
  match op with
  | .nop => pure ()
  -- addresses relative to the frame
  | .load => setA (← slot (← offset (← get).bp n))
  | .store =>
    let i ← offset (← get).bp n
    setSlot i (← get).a
  | .adjust =>
    let sp ← offset (← get).sp n
    if sp > (← get).stack.size then fault (.stackBase n)
    modify fun m => { m with sp }
  -- the stack
  | .push => push (← get).a
  | .pop => setA (← pop)
  | .peek => setA (← top)
  | .dup => push (← top)
  | .swap =>
    let sp := (← get).sp
    let lower ← slot (sp + 1)
    let upper ← slot sp
    setSlot sp lower
    setSlot (sp + 1) upper
  | .data => setA (← constant n)
  -- control
  | .call =>
    push (registerValue (← get).pc)
    let pc ← target n
    modify fun m => { m with pc }
  | .enter =>
    push (registerValue (← get).bp)
    modify fun m => { m with bp := m.sp }
    match Opcode.position? n with
    | none => fault (.negativeFrame n)
    | some size =>
      if size ≤ (← get).sp then modify fun m => { m with sp := m.sp - size }
      else fault .stackOverflow
  | .leave =>
    modify fun m => { m with sp := m.bp }
    let bp ← savedRegister (← pop)
    modify fun m => { m with bp }
    let pc ← savedRegister (← pop)
    modify fun m => { m with pc }
  | .jumpZero => jumpIf (· == 0) n
  | .jumpNonzero => jumpIf (· != 0) n
  | .jump =>
    let pc ← target n
    modify fun m => { m with pc }
  -- comparisons
  | .less => comparison .less false
  | .lessKeep => comparison .less true
  | .lessEqual => comparison .lessEqual false
  | .lessEqualKeep => comparison .lessEqual true
  | .greater => comparison .greater false
  | .greaterKeep => comparison .greater true
  | .equal => equality true false
  | .equalKeep => equality true true
  | .unequal => equality false false
  | .unequalKeep => equality false true
  -- arithmetic
  | .sub =>
    let left ← pop
    setA (← Step.act (Value.sub left (← get).a))
  | .mul =>
    let left ← pop
    setA (← Step.act (Value.mul left (← get).a))
  -- values
  | .new => setA (← Step.act (emptyValue (← get).a.toInt))
  | .kind => setA (.number (← get).a.kind.code)
  | .count => setA (.number (Int64.ofNat ((← get).a.length (← getThe Store))))
  | .index =>
    let i := (← get).a.toInt
    let v ← top
    let st ← getThe Store
    match (Opcode.position? i).bind (v.get? st) with
    | some item => setA item
    | none => fault (.listIndex i (v.inspected st))
  | .setScope =>
    let s ← scopeOf "CELLSETENV" (← get).a
    match ← top with
    | .lambda c => setTop (.lambda { c with scope := s })
    | .expander c => setTop (.expander { c with scope := s })
    | other => throw (.mismatch (.notClosure "CELLSETENV" other.kind))
  | .getScope =>
    let v ← pop
    setA (.scope (← scopeOf "CELLGETENV" v))
  | .extend =>
    match ← top with
    | .list r =>
      let v := (← get).a
      modifyThe Store (·.extend r v)
    | other => throw (.mismatch (.notExtensible "CELLPUSH" other.kind))
  | .convert =>
    let a := (← get).a
    match Kind.ofCode? a.toInt with
    | none => throw (.mismatch (.noSuchKind "CELLSETTYPE" (a.shown (← getThe Store))))
    | some wanted => setTop (← Step.act (converted (← top) wanted))
  | .invoke =>
    let args ← pop
    let scope ← pop
    setA (← invoke (← get).a (args.items (← getThe Store)) scope)
  | .head => setA (← Step.act (← top).head)
  | .tail => setA (← Step.act (← top).tail)
  -- scopes
  | .lookup =>
    let key ← pop
    let s ← scopeOf "ENVLOOKUP" (← get).a
    setA (← Step.act (do Action.lookup s (← Action.keyText key)))
  | .assign =>
    let key ← Step.act (Action.keyText (← pop))
    let s ← scopeOf "ENVSET" (← top)
    Step.act (Action.assign s key (← get).a)
  | .define =>
    let key ← Step.act (Action.keyText (← pop))
    let s ← scopeOf "ENVDEFINE" (← top)
    Step.act (Action.define s key (← get).a)
  | .newScope =>
    let values ← pop
    let keys ← pop
    let parent ← scopeOf "ENVNEW" (← get).a
    let items := values.items (← getThe Store)
    setA (.scope (← Step.act (Action.bindParameters keys items parent)))
  -- ending and output
  | .exit => modify fun m => { m with finished := true }
  | .print => emit ((← get).a.shown (← getThe Store))
  | .halt =>
    let message := (← constant n).shown (← getThe Store)
    emit (message ++ "\n")
    modify fun m => { m with haltMessage := some message, finished := true }
  | .dump => emit ((← get).dump (← getThe Store) ++ "\n")

/-- Fetch, decode and execute one instruction.  A machine that has finished finds
no instruction. -/
def step : Step Machine Unit := do
  let pc := (← get).pc
  if (← get).finished then
    throw (.missingOpcode ((← get).program.code.getD pc (-1)) pc)
  let word ← fetch
  match Opcode.ofWord? word with
  | none => throw (.missingOpcode word pc)
  | some op =>
    let n ← if op.operandCount = 0 then pure 0 else fetch
    modify fun m => { m with steps := m.steps + 1 }
    execute op n

/-- At most `budget` instructions; whether the program has finished. -/
def runFor : (budget : Nat) → Step Machine Bool
  | 0 => return (← get).finished
  | budget + 1 => do
    if (← get).finished then pure true
    else
      step
      runFor budget

/-- Execute instructions until the program finishes; the answer is the
accumulator. -/
def run : (fuel : Nat) → Run Machine Value
  | 0 => Run.outOfFuel
  | fuel + 1 => do
    if (← get).finished then return (← get).a
    else
      Run.ofStep step
      run fuel

end LispEngines.Machine
