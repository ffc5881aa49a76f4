import LispEngines.Frame.Basic

/-!
# Handlers

A handler advances one frame from one phase.  It never touches another frame: to
have an expression evaluated it answers `spawn`, and it finds the outcome in
`incoming` when its turn comes again.  Not every pair of a stage and a wait state
has a handler; a frame that comes to one without is stuck.
-/

namespace LispEngines.Frame

/-- What is to happen after a handler has run. -/
inductive Flow where
  /-- Run the next handler of the same frame at once. -/
  | again
  /-- The frame goes on in the next step. -/
  | stay
  /-- Start a frame for an expression and wait for it. -/
  | spawn (expr : Value) (scope : ScopeRef)
  /-- The frame has ended. -/
  | done
  deriving DecidableEq, Repr

/-- What a handler may do: change its frame, act on the store, and fail. -/
abbrev Handler := Step Frame

namespace Handler

open Step

/-- The elements of the frame's expression. -/
def items : Handler (List Value) :=
  fun f st => ((.ok (f.expr.items st), f), st)

/-- A value, or a new empty list in place of one that is not there. -/
def orNil : Option Value → Handler Value
  | some v => pure v
  | none => act Action.newNil

/-- Take the result of the frame above, and stop waiting. -/
def takeIncoming : Handler Value := do
  let incoming := (← get).incoming
  modify fun f => { f with wait := .ready, incoming := none }
  orNil incoming

/-- End the frame. -/
def finish (v : Value) : Handler Flow := do
  modify (·.finish v)
  return .done

/-- Go on with an expression in a tail position. -/
def restart (x : Value) (scope : Option ScopeRef) : Handler Flow := do
  modify (·.restart x scope)
  return .again

/-- Go on to another stage at once. -/
def goOn (stage : Stage) : Handler Flow := do
  modify fun f => { f with stage }
  return .again

/-- Have an expression evaluated in the frame's scope. -/
def spawn (x : Value) : Handler Flow := do return .spawn x (← get).scope

/-! ## One handler for each phase -/

/-- Atoms end at once; lists are looked into. -/
def enter : Handler Flow := do
  let f ← get
  match f.expr with
  | .symbol name => finish (← act (Action.lookup f.scope name))
  | .list _ =>
    if (← items).isEmpty then finish (← act Action.newNil) else goOn .builtin
  | v => finish v

/-- Special forms are told from calls. -/
def builtin : Handler Flow := do
  let f ← get
  let xs ← items
  match SpecialForm.ofItems? xs with
  | none => goOn .operator
  | some .quote => finish (← act (SpecialForm.operand .quote xs 1))
  | some .lambda => finish (← act (SpecialForm.close .lambda f.expr f.scope))
  | some .expander => finish (← act (SpecialForm.close .expander f.expr f.scope))
  | some .branch =>
    let test ← act (SpecialForm.operand .branch xs 1)
    modify fun f => { f with stage := .branchTest }
    spawn test
  | some .define =>
    discard (act (SpecialForm.boundName .define xs))
    let v ← act (SpecialForm.operand .define xs 2)
    modify fun f => { f with stage := .define }
    spawn v
  | some .assign =>
    discard (act (SpecialForm.boundName .assign xs))
    let v ← act (SpecialForm.operand .assign xs 2)
    modify fun f => { f with stage := .define }
    spawn v
  | some .sequence =>
    modify fun f => { f with body := xs.drop 1 }
    goOn .sequence

/-- The last form of a sequence runs in the frame itself. -/
def sequence : Handler Flow := do
  match (← get).body with
  | [] =>
    let result := (← get).result
    modify fun f => { f with result := none }
    finish (← orNil result)
  | [last] =>
    modify fun f => { f with body := [] }
    restart last none
  | next :: rest =>
    modify fun f => { f with body := rest }
    spawn next

/-- A form of a sequence has ended. -/
def sequenceEnded : Handler Flow := do
  let v ← takeIncoming
  modify fun f => { f with result := some v }
  return .stay

/-- The test of a conditional has ended. -/
def branchEnded : Handler Flow := do
  let test ← takeIncoming
  restart (← act (SpecialForm.selected (← items) test)) none

/-- The value of a definition or an assignment has been found. -/
def defineEnded : Handler Flow := do
  let v ← takeIncoming
  let xs ← items
  let form := (SpecialForm.ofItems? xs).getD .define
  let name ← act (SpecialForm.boundName form xs)
  finish (← act (SpecialForm.bind form name v (← get).scope))

/-- The operator of a call comes first. -/
def operator : Handler Flow := do
  match (← items) with
  | head :: _ => spawn head
  | [] => spawn (← act Action.newNil)

/-- An expander takes its operands as they are. -/
def operatorEnded : Handler Flow := do
  let callee ← takeIncoming
  let rest := (← items).drop 1
  match callee with
  | .expander _ =>
    modify fun f => { f with callee := some callee, args := rest, stage := .apply }
  | _ =>
    modify fun f =>
      { f with callee := some callee, args := [], pending := rest, stage := .operands }
  return .again

/-- Operands are evaluated from left to right. -/
def operands : Handler Flow := do
  match (← get).pending with
  | x :: rest =>
    modify fun f => { f with pending := rest }
    spawn x
  | [] => goOn .apply

/-- An operand has ended. -/
def operandEnded : Handler Flow := do
  let v ← takeIncoming
  modify fun f => { f with args := f.args ++ [v] }
  return .again

/-- The call itself.  The arguments are used up even if it fails. -/
def apply : Handler Flow := do
  let args := (← get).args
  modify fun f => { f with args := [] }
  match (← get).callee with
  | some (.native p) => finish (← act (p.call args))
  | some (.scopeNative p) => finish (← act (p.call args (← get).scope))
  | some (.lambda c) =>
    let t ← act (do Action.bindParameters (← c.params) args c.scope)
    restart (← act c.body) (some t)
  | some (.expander c) =>
    let t ← act (do Action.bindParameters (← c.params) args c.scope)
    modify fun f => { f with stage := .expand }
    return .spawn (← act c.body) t
  | other =>
    let v ← orNil other
    act (do throw (.notCallable (v.shown (← get))))

/-- The expansion is evaluated in place of the call. -/
def expansionEnded : Handler Flow := do
  restart (← takeIncoming) none

/-- The handler for the frame's phase. -/
def dispatch : Handler Flow := do
  let f ← get
  match f.stage, f.wait with
  | .enter, .ready => enter
  | .builtin, .ready => builtin
  | .sequence, .ready => sequence
  | .sequence, .ended => sequenceEnded
  | .branchTest, .ended => branchEnded
  | .define, .ended => defineEnded
  | .operator, .ready => operator
  | .operator, .ended => operatorEnded
  | .operands, .ready => operands
  | .operands, .ended => operandEnded
  | .apply, .ready => apply
  | .expand, .ended => expansionEnded
  | _, _ => throw (.noHandler f.phase)

end Handler

end LispEngines.Frame
