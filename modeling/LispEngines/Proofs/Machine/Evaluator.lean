import LispEngines.Assembly.Assembler
import LispEngines.Machine.Bundled
import LispEngines.Proofs.Machine.Code

/-!
# The evaluator as a program

The evaluator is written as assembly text.  Here is what the assembler makes of it, told
by stretches: each begins at a label or where a call comes back.
-/

namespace LispEngines

/-- An instruction without an operand. -/
@[simp] def Instruction.plain (op : Opcode) : Instruction := { op }

namespace Machine.Evaluator

/-- The stretches of the evaluator in the order of their positions.  The names of those
where a call comes back say which value is there. -/
inductive Block where
  | main | mainValue | eval | evalTop | evalSymbol | evalList | evalForm | formQuote | formIf
  | ifTest | ifValue | ifAlt | ifNil | formDefine | defineOperands | defineValue | formSet
  | setOperands | setValue | formLambda | formMacro | formBegin | beginLoop | beginNext
  | beginValue | beginLast | beginEmpty | malformedQuote | malformedIf | malformedConseq
  | malformedDefine | malformedSet | malformedLambda | malformedMacro | evalApply
  | operatorValue | argsInit | argsForms | argsLoop | argsNext | operandValue | nextOperand
  | argsDone | applyLambda | applyMacro | expand | expandBody | expansionValue
  deriving DecidableEq, Repr

namespace Block

/-- Where a stretch begins. -/
@[simp] def start : Block → Nat
  | .main => 0
  | .mainValue => 10
  | .eval => 13
  | .evalTop => 15
  | .evalSymbol => 32
  | .evalList => 39
  | .evalForm => 47
  | .formQuote => 104
  | .formIf => 122
  | .ifTest => 133
  | .ifValue => 147
  | .ifAlt => 176
  | .ifNil => 197
  | .formDefine => 200
  | .defineOperands => 211
  | .defineValue => 237
  | .formSet => 241
  | .setOperands => 252
  | .setValue => 278
  | .formLambda => 282
  | .formMacro => 304
  | .formBegin => 326
  | .beginLoop => 334
  | .beginNext => 343
  | .beginValue => 355
  | .beginLast => 367
  | .beginEmpty => 382
  | .malformedQuote => 385
  | .malformedIf => 387
  | .malformedConseq => 389
  | .malformedDefine => 391
  | .malformedSet => 393
  | .malformedLambda => 395
  | .malformedMacro => 397
  | .evalApply => 399
  | .operatorValue => 407
  | .argsInit => 418
  | .argsForms => 423
  | .argsLoop => 431
  | .argsNext => 436
  | .operandValue => 448
  | .nextOperand => 460
  | .argsDone => 470
  | .applyLambda => 489
  | .applyMacro => 518
  | .expand => 534
  | .expandBody => 537
  | .expansionValue => 553

/-- A stretch as an operand. -/
def word (b : Block) : Int64 := Int64.ofNat b.start

/-- The instructions that reject a form with too few elements; the constant is how many there
have to be. -/
@[simp] def checkCode (least : Int64) (reject : Block) : List Instruction :=
  [⟨.adjust, 1⟩, ⟨.load, 3⟩, .plain .count, .plain .push, ⟨.data, least⟩, .plain .less,
   ⟨.jumpNonzero, reject.word⟩]

/-- The instructions that call for the value of a definition or an assignment; `first` is the
first of their constants. -/
@[simp] def bindingCode (first : Int64) : List Instruction :=
  [⟨.load, 2⟩, .plain .push, ⟨.load, 3⟩, .plain .push, ⟨.data, first⟩, .plain .index,
   ⟨.adjust, 1⟩, .plain .push, ⟨.load, 3⟩, .plain .push, ⟨.data, first + 1⟩, .plain .index,
   ⟨.adjust, 1⟩, .plain .push, ⟨.load, 2⟩, .plain .push, ⟨.call, word .eval⟩]

/-- The instructions for a form that denotes a closure. -/
@[simp] def closingCode (first : Int64) (reject : Block) : List Instruction :=
  checkCode first reject ++
  [⟨.load, 3⟩, .plain .push, ⟨.data, first + 1⟩, .plain .convert, ⟨.load, 2⟩, .plain .setScope,
   .plain .pop, .plain .leave]

/-- The instructions of a stretch. -/
@[simp] def code : Block → List Instruction
  | .main =>
    [⟨.enter, 0⟩, ⟨.load, 2⟩, .plain .push, ⟨.load, 1⟩, .plain .push, ⟨.call, word .eval⟩]
  | .mainValue => [⟨.adjust, 2⟩, .plain .exit]
  | .eval => [⟨.enter, 4⟩]
  | .evalTop =>
    [⟨.load, 3⟩, .plain .kind, .plain .push, ⟨.data, 0⟩, .plain .equalKeep,
     ⟨.jumpNonzero, word .evalSymbol⟩, ⟨.data, 1⟩, .plain .equal, ⟨.jumpNonzero, word .evalList⟩,
     ⟨.load, 3⟩, .plain .leave]
  | .evalSymbol => [⟨.load, 3⟩, .plain .push, ⟨.load, 2⟩, .plain .lookup, .plain .leave]
  | .evalList =>
    [⟨.load, 3⟩, .plain .count, ⟨.jumpNonzero, word .evalForm⟩, ⟨.data, 44⟩, .plain .leave]
  | .evalForm =>
    [⟨.load, 3⟩, .plain .push, ⟨.data, 2⟩, .plain .index, ⟨.adjust, 1⟩, ⟨.store, -4⟩,
     .plain .kind, .plain .push, ⟨.data, 3⟩, .plain .equal, ⟨.jumpZero, word .evalApply⟩,
     ⟨.load, -4⟩, .plain .push, ⟨.data, 4⟩, .plain .equalKeep, ⟨.jumpNonzero, word .formQuote⟩,
     ⟨.data, 5⟩, .plain .equalKeep, ⟨.jumpNonzero, word .formIf⟩, ⟨.data, 6⟩, .plain .equalKeep,
     ⟨.jumpNonzero, word .formDefine⟩, ⟨.data, 7⟩, .plain .equalKeep,
     ⟨.jumpNonzero, word .formSet⟩, ⟨.data, 8⟩, .plain .equalKeep,
     ⟨.jumpNonzero, word .formLambda⟩, ⟨.data, 9⟩, .plain .equalKeep,
     ⟨.jumpNonzero, word .formMacro⟩, ⟨.data, 10⟩, .plain .equal,
     ⟨.jumpNonzero, word .formBegin⟩, ⟨.jump, word .evalApply⟩]
  | .formQuote =>
    checkCode 11 .malformedQuote ++
    [⟨.load, 3⟩, .plain .push, ⟨.data, 12⟩, .plain .index, .plain .leave]
  | .formIf => checkCode 13 .malformedIf
  | .ifTest =>
    [⟨.load, 3⟩, .plain .push, ⟨.data, 14⟩, .plain .index, ⟨.adjust, 1⟩, .plain .push,
     ⟨.load, 2⟩, .plain .push, ⟨.call, word .eval⟩]
  | .ifValue =>
    [⟨.adjust, 2⟩, .plain .push, ⟨.data, 45⟩, .plain .equal, ⟨.jumpNonzero, word .ifAlt⟩,
     ⟨.load, 3⟩, .plain .count, .plain .push, ⟨.data, 15⟩, .plain .less,
     ⟨.jumpNonzero, word .malformedConseq⟩, ⟨.load, 3⟩, .plain .push, ⟨.data, 16⟩, .plain .index,
     ⟨.adjust, 1⟩, ⟨.store, 3⟩, ⟨.jump, word .evalTop⟩]
  | .ifAlt =>
    [⟨.load, 3⟩, .plain .count, .plain .push, ⟨.data, 17⟩, .plain .less,
     ⟨.jumpNonzero, word .ifNil⟩, ⟨.load, 3⟩, .plain .push, ⟨.data, 18⟩, .plain .index,
     ⟨.adjust, 1⟩, ⟨.store, 3⟩, ⟨.jump, word .evalTop⟩]
  | .ifNil => [⟨.data, 46⟩, .plain .leave]
  | .formDefine => checkCode 19 .malformedDefine
  | .defineOperands => bindingCode 20
  | .defineValue => [⟨.adjust, 2⟩, .plain .define, .plain .leave]
  | .formSet => checkCode 22 .malformedSet
  | .setOperands => bindingCode 23
  | .setValue => [⟨.adjust, 2⟩, .plain .assign, .plain .leave]
  | .formLambda => closingCode 25 .malformedLambda
  | .formMacro => closingCode 27 .malformedMacro
  | .formBegin => [⟨.load, 3⟩, .plain .push, .plain .tail, ⟨.adjust, 1⟩, ⟨.store, -3⟩]
  | .beginLoop =>
    [⟨.load, -3⟩, .plain .count, .plain .push, ⟨.data, 29⟩, .plain .lessEqual,
     ⟨.jumpNonzero, word .beginLast⟩]
  | .beginNext =>
    [⟨.load, -3⟩, .plain .push, .plain .head, ⟨.adjust, 1⟩, .plain .push, ⟨.load, 2⟩,
     .plain .push, ⟨.call, word .eval⟩]
  | .beginValue =>
    [⟨.adjust, 2⟩, ⟨.load, -3⟩, .plain .push, .plain .tail, ⟨.adjust, 1⟩, ⟨.store, -3⟩,
     ⟨.jump, word .beginLoop⟩]
  | .beginLast =>
    [⟨.load, -3⟩, .plain .count, ⟨.jumpZero, word .beginEmpty⟩, ⟨.load, -3⟩, .plain .push,
     .plain .head, ⟨.adjust, 1⟩, ⟨.store, 3⟩, ⟨.jump, word .evalTop⟩]
  | .beginEmpty => [⟨.data, 47⟩, .plain .leave]
  | .malformedQuote => [⟨.halt, 30⟩]
  | .malformedIf => [⟨.halt, 31⟩]
  | .malformedConseq => [⟨.halt, 32⟩]
  | .malformedDefine => [⟨.halt, 33⟩]
  | .malformedSet => [⟨.halt, 34⟩]
  | .malformedLambda => [⟨.halt, 35⟩]
  | .malformedMacro => [⟨.halt, 36⟩]
  | .evalApply => [⟨.load, -4⟩, .plain .push, ⟨.load, 2⟩, .plain .push, ⟨.call, word .eval⟩]
  | .operatorValue =>
    [⟨.adjust, 2⟩, ⟨.store, -1⟩, .plain .kind, .plain .push, ⟨.data, 37⟩, .plain .equal,
     ⟨.jumpNonzero, word .applyMacro⟩]
  | .argsInit => [⟨.data, 38⟩, .plain .new, ⟨.store, -2⟩]
  | .argsForms => [⟨.load, 3⟩, .plain .push, .plain .tail, ⟨.adjust, 1⟩, ⟨.store, -3⟩]
  | .argsLoop => [⟨.load, -3⟩, .plain .count, ⟨.jumpZero, word .argsDone⟩]
  | .argsNext =>
    [⟨.load, -3⟩, .plain .push, .plain .head, ⟨.adjust, 1⟩, .plain .push, ⟨.load, 2⟩,
     .plain .push, ⟨.call, word .eval⟩]
  | .operandValue =>
    [⟨.adjust, 2⟩, ⟨.store, -4⟩, ⟨.load, -2⟩, .plain .push, ⟨.load, -4⟩, .plain .extend,
     ⟨.adjust, 1⟩]
  | .nextOperand =>
    [⟨.load, -3⟩, .plain .push, .plain .tail, ⟨.adjust, 1⟩, ⟨.store, -3⟩, ⟨.jump, word .argsLoop⟩]
  | .argsDone =>
    [⟨.load, -1⟩, .plain .kind, .plain .push, ⟨.data, 39⟩, .plain .equal,
     ⟨.jumpNonzero, word .applyLambda⟩, ⟨.load, 2⟩, .plain .push, ⟨.load, -2⟩, .plain .push,
     ⟨.load, -1⟩, .plain .invoke, .plain .leave]
  | .applyLambda =>
    [⟨.load, -1⟩, .plain .push, ⟨.data, 40⟩, .plain .index, ⟨.adjust, 1⟩, .plain .push,
     ⟨.load, -2⟩, .plain .push, ⟨.load, -1⟩, .plain .newScope, ⟨.store, 2⟩, ⟨.load, -1⟩,
     .plain .push, ⟨.data, 41⟩, .plain .index, ⟨.adjust, 1⟩, ⟨.store, 3⟩, ⟨.jump, word .evalTop⟩]
  | .applyMacro =>
    [⟨.load, -1⟩, .plain .push, ⟨.data, 42⟩, .plain .index, ⟨.adjust, 1⟩, .plain .push,
     ⟨.load, 3⟩, .plain .push, .plain .tail, ⟨.adjust, 1⟩, .plain .push]
  | .expand => [⟨.load, -1⟩, .plain .newScope]
  | .expandBody =>
    [⟨.store, -4⟩, ⟨.load, -1⟩, .plain .push, ⟨.data, 43⟩, .plain .index, ⟨.adjust, 1⟩,
     .plain .push, ⟨.load, -4⟩, .plain .push, ⟨.call, word .eval⟩]
  | .expansionValue => [⟨.adjust, 2⟩, ⟨.store, 3⟩, ⟨.jump, word .evalTop⟩]

/-- How many values are on top of the frame of `eval` where a stretch begins. -/
def temps : Block → Nat
  | .evalSymbol | .formQuote | .formIf | .formDefine | .formSet | .formLambda | .formMacro => 1
  | .mainValue | .ifValue | .beginValue | .operatorValue | .operandValue | .expand
  | .expansionValue => 2
  | .defineValue | .setValue => 4
  | _ => 0

/-- How much room a stretch needs, the frame of `eval` included: one that calls has to leave
room for the frame of the call, which one with more than two values on top had. -/
def room (b : Block) : Nat := if 2 < b.temps || b.code.any (·.op == .call) then 20 else 10

/-- Every stretch, in order. -/
def all : List Block :=
  [.main, .mainValue, .eval, .evalTop, .evalSymbol, .evalList, .evalForm, .formQuote, .formIf,
   .ifTest, .ifValue, .ifAlt, .ifNil, .formDefine, .defineOperands, .defineValue, .formSet,
   .setOperands, .setValue, .formLambda, .formMacro, .formBegin, .beginLoop, .beginNext,
   .beginValue, .beginLast, .beginEmpty, .malformedQuote, .malformedIf, .malformedConseq,
   .malformedDefine, .malformedSet, .malformedLambda, .malformedMacro, .evalApply,
   .operatorValue, .argsInit, .argsForms, .argsLoop, .argsNext, .operandValue, .nextOperand,
   .argsDone, .applyLambda, .applyMacro, .expand, .expandBody, .expansionValue]

end Block

/-- The constants of the evaluator; its empty list is where the program was assembled. -/
@[simp] def constants (empty : ListRef) : List Value :=
  [.number Kind.symbol.code, .number Kind.list.code, .number 0, .number Kind.symbol.code,
   .text "quote", .text "if", .text "define", .text "set!", .text "lambda", .text "macro",
   .text "begin", .number 2, .number 1, .number 2, .number 1, .number 3, .number 2, .number 4,
   .number 3, .number 3, .number 1, .number 2, .number 3, .number 1, .number 2, .number 3,
   .number Kind.lambda.code, .number 3, .number Kind.expander.code, .number 1,
   .text "malformed form: 'quote' is missing operand 1",
   .text "malformed form: 'if' is missing operand 1",
   .text "malformed form: 'if' is missing operand 2",
   .text "malformed form: 'define' needs a name and a value",
   .text "malformed form: 'set!' needs a name and a value",
   .text "malformed form: 'lambda' needs parameters and a body",
   .text "malformed form: 'macro' needs parameters and a body", .number Kind.expander.code,
   .number Kind.list.code, .number Kind.lambda.code, .number 1, .number 2, .number 1,
   .number 2, .list empty, .ofBool false, .list empty, .list empty]

/-- The evaluator as the machine loads it. -/
def program (empty : ListRef) : Program where
  code := ((Block.all.flatMap Block.code).flatMap Instruction.words).toArray
  data := (constants empty).toArray
  entry := Block.main.start

/-! ## Where everything is -/

variable (empty : ListRef)

theorem size_code : (program empty).code.size = 559 := by
  show ((Block.all.flatMap Block.code).flatMap Instruction.words).length = 559
  decide +kernel

/-- Every stretch is where it is said to begin. -/
theorem codeAt (b : Block) : (program empty).CodeAt b.start b.code := by
  have h : (Block.all.all fun b => (b.code.flatMap Instruction.words).isPrefixOf
      (((Block.all.flatMap Block.code).flatMap Instruction.words).drop b.start)) = true := by
    decide +kernel
  have hb : b ∈ Block.all := by cases b <;> decide
  exact List.isPrefixOf_iff_prefix.mp (List.all_eq_true.mp h b hb)

theorem position?_word (b : Block) : Opcode.position? b.word = some b.start := by
  cases b <;> rfl

/-- A jump goes to the stretch that it names. -/
@[simp] theorem goto_word (b : Block) (v : View) :
    v.goto (program empty) b.word = some { v with pc := b.start } := by
  have hb : b.start < 559 := by cases b <;> decide
  rw [View.goto, position?_word, size_code, Option.bind_some, if_pos hb]

@[simp] theorem constant?_program (n : Int64) :
    (program empty).constant? n = (Opcode.position? n).bind ((constants empty)[·]?) := by
  rw [Program.constant?, program]
  show (Opcode.position? n).bind (fun i => (constants empty).toArray[i]?) = _
  simp only [List.getElem?_toArray]

/-- No stretch writes more than once. -/
theorem countP_writes_le (b : Block) : b.code.countP (·.op.writes) ≤ 1 := by
  cases b <;> decide

/-- The room of a stretch is enough for what it puts on the stack. -/
theorem peak_le_room (b : Block) :
    (b.temps : Int) + 8 + Instruction.peak b.code ≤ b.room := by
  cases b <;> decide +kernel

end Machine.Evaluator

end LispEngines
