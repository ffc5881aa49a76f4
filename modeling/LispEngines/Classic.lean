import LispEngines.SpecialForm

/-!
# The recursive engine

The reference for the meaning of programs: a walk over the expression that calls
itself for every operand.  In a tail position, that is, for the selected branch of
a conditional, the last form of a sequence, the body of a procedure and the
expansion of an expander, the walk goes on with the new expression at the same
depth, so that a loop written as a tail call never gets deeper.

Two numbers bound a walk, and they have nothing to do with each other.  The *depth
limit* belongs to the language: a program that nests deeper fails, and it can tell.
*Fuel* belongs to the definition: a program may run for ever, so a total function
needs something that decreases.  Running out of fuel is no failure of the program;
it is no answer at all.
-/

namespace LispEngines

/-- A walk counts its steps. -/
abbrev Walk := Run Nat

/-- Count a step. -/
def Walk.countStep : Walk Unit := modify (· + 1)

namespace Classic

open Run Walk

/-- Evaluate `x` in a scope, with at most `left` further levels of nesting below
this one. -/
def walk (limit : Nat) : (fuel left : Nat) → Value → ScopeRef → Walk Value
  | 0, _, _, _ => outOfFuel
  | fuel + 1, left, x, s => do
    countStep
    let nested (e : Value) (t : ScopeRef) : Walk Value :=
      match left with
      | 0 => throw (.tooDeep limit)
      | left + 1 => walk limit fuel left e t
    match x with
    | .symbol name => act (Action.lookup s name)
    | .list r =>
      let items ← act (do return (← get).items r)
      match items with
      | [] => act Action.newNil
      | head :: operands =>
        match SpecialForm.ofItems? items with
        | some .quote => act (SpecialForm.operand .quote items 1)
        | some .branch =>
          let test ← nested (← act (SpecialForm.operand .branch items 1)) s
          walk limit fuel left (← act (SpecialForm.selected items test)) s
        | some .define => do
          let name ← act (SpecialForm.boundName .define items)
          let v ← nested (← act (SpecialForm.operand .define items 2)) s
          act (SpecialForm.bind .define name v s)
        | some .assign => do
          let name ← act (SpecialForm.boundName .assign items)
          let v ← nested (← act (SpecialForm.operand .assign items 2)) s
          act (SpecialForm.bind .assign name v s)
        | some .lambda => act (SpecialForm.close .lambda x s)
        | some .expander => act (SpecialForm.close .expander x s)
        | some .sequence =>
          match operands.getLast? with
          | none => act Action.newNil
          | some last => do
            operands.dropLast.forM fun e => discard (nested e s)
            walk limit fuel left last s
        | none =>
          match ← nested head s with
          | .expander c => do
            let t ← act (do Action.bindParameters (← c.params) operands c.scope)
            let expansion ← nested (← act c.body) t
            walk limit fuel left expansion s
          | callee => do
            let args ← operands.mapM fun e => nested e s
            match callee with
            | .lambda c =>
              let t ← act (do Action.bindParameters (← c.params) args c.scope)
              walk limit fuel left (← act c.body) t
            | .native p => act (p.call args)
            | .scopeNative p => act (p.call args s)
            | other => act (do throw (.notCallable (other.shown (← get))))
    | v => pure v

/-- Evaluate an expression under a depth limit. -/
def evaluate (limit fuel : Nat) (x : Value) (s : ScopeRef) : Walk Value :=
  match limit with
  | 0 => throw (.tooDeep limit)
  | left + 1 => walk limit fuel left x s

end Classic

end LispEngines
