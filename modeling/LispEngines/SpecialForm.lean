import LispEngines.Library

/-!
# Special forms

Seven symbols at the head of a list have a meaning of their own.  What is said
here is what the engines share: which list is a special form, what its operands
are, and what to do once the operands that need evaluating have been evaluated.

A list is a special form by the spelling of its head alone; binding such a name
to something else does not change that.
-/

namespace LispEngines

/-- The special forms. -/
inductive SpecialForm where
  | quote | branch | define | assign | lambda | expander | sequence
  deriving DecidableEq, Repr, Inhabited

namespace SpecialForm

/-- The symbol that introduces a special form. -/
def keyword : SpecialForm → String
  | .quote => "quote"
  | .branch => "if"
  | .define => "define"
  | .assign => "set!"
  | .lambda => "lambda"
  | .expander => "macro"
  | .sequence => "begin"

def all : List SpecialForm :=
  [.quote, .branch, .define, .assign, .lambda, .expander, .sequence]

/-- The special form that a symbol introduces. -/
def ofKeyword? (s : String) : Option SpecialForm := all.find? (·.keyword == s)

/-- The special form that a list with these elements is. -/
def ofItems? : List Value → Option SpecialForm
  | .symbol s :: _ => ofKeyword? s
  | _ => none

/-- An operand; the keyword itself has number zero. -/
def operand (form : SpecialForm) (items : List Value) (i : Nat) : Action Value :=
  match items[i]? with
  | some v => pure v
  | none =>
    throw (.malformed ("'" ++ form.keyword ++ "' is missing operand " ++ toString i))

/-- The name that a definition or an assignment is about. -/
def boundName (form : SpecialForm) (items : List Value) : Action String := do
  Action.keyText (← form.operand items 1)

/-- The branch of a conditional that an evaluated test selects; without an
alternative, falsehood selects the empty list. -/
def selected (items : List Value) (test : Value) : Action Value :=
  if test.isTruthy then operand .branch items 2
  else match items[3]? with
    | some v => pure v
    | none => Action.newNil

/-- Carry out an assignment, or for any other form a definition.  The result is
the value. -/
def bind (form : SpecialForm) (name : String) (v : Value) (s : ScopeRef) : Action Value := do
  match form with
  | .assign => Action.assign s name v
  | _ => Action.define s name v
  pure v

/-- The closure that a defining form denotes in a scope. -/
def close (form : SpecialForm) (x : Value) (s : ScopeRef) : Action Value := do
  let st ← get
  match x with
  | .list r =>
    if (st.items r).length < 3 then
      throw (.malformed ("'" ++ form.keyword ++ "' needs parameters and a body"))
    match form with
    | .expander => pure (.expander ⟨r, s⟩)
    | _ => pure (.lambda ⟨r, s⟩)
  | x => throw (.malformed (x.shown st ++ " is not a list"))

end SpecialForm

namespace Closure

/-- A part of the defining form, a new empty list if the form is too short. -/
def part (c : Closure) (i : Nat) : Action Value := do
  match c.part? (← get) i with
  | some v => pure v
  | none => Action.newNil

/-- The parameter list. -/
def params (c : Closure) : Action Value := c.part 1

/-- The body. -/
def body (c : Closure) : Action Value := c.part 2

end Closure

end LispEngines
