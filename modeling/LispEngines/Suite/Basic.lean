import LispEngines.Engine
import LispEngines.Library
import LispEngines.Show

/-!
# Regression suites

A suite is a list of cases, each a source with the text that its value has to
have.  The cases share one scope and run in order, so a case can define what a
later one uses.  A case that fails does not stop the suite: what it gave instead
is part of the report.
-/

namespace LispEngines.Suite

/-- A source and the text that its value should have. -/
structure Case where
  source : String
  expected : String
  deriving DecidableEq, Repr

/-- A case with the text it gave instead of the expected one. -/
structure Miss where
  source : String
  expected : String
  actual : String
  deriving DecidableEq, Repr

/-- What a suite found out about an engine. -/
structure Report where
  strategy : Strategy
  passed : Nat
  /-- The steps that the engine took for all cases together. -/
  steps : Nat
  /-- The cases that did not pass, in order. -/
  misses : List Miss
  deriving Repr

/-- The number of cases that did not pass. -/
def Report.failed (r : Report) : Nat := r.misses.length

/-- Whether every case passed. -/
def Report.succeeded (r : Report) : Bool := r.misses.isEmpty

/-- Run the first form of a source.  The rest of the source has to be readable but
is not evaluated. -/
def evaluateFirst (fuel : Nat) (source : String) (s : ScopeRef) :
    StateT Engine (StateT Store Option) (Except Engine.SourceError Value) :=
  fun engine st =>
    match Form.firstOfSource source with
    | .error e => some ((.error (.read e), engine), st)
    | .ok f => do
      let (x, st) := f.build st
      let ((r, engine), st) ← Engine.evaluate fuel x s engine st
      return ((r.mapError .failed, engine), st)

/-- The text that stands for an outcome. -/
def outcomeText (r : Except Engine.SourceError Value) (st : Store) : String :=
  match r with
  | .ok v => v.shown st
  | .error e => "error: " ++ e.message

/-- Whether a case passed.  A failure never passes, not even if its text is the
expected one. -/
def Case.passes (c : Case) (r : Except Engine.SourceError Value) (st : Store) : Bool :=
  match r with
  | .ok v => v.shown st == c.expected
  | .error _ => false

/-- The report of a case: nothing if it passed. -/
def Case.misses (c : Case) (r : Except Engine.SourceError Value) (st : Store) : List Miss :=
  if c.passes r st then [] else [⟨c.source, c.expected, outcomeText r st⟩]

/-- Run cases in a scope; the result is the cases that did not pass. -/
def runIn (fuel : Nat) (s : ScopeRef) :
    List Case → StateT Engine (StateT Store Option) (List Miss)
  | [] => pure []
  | c :: cs => do
    let r ← evaluateFirst fuel c.source s
    let miss := c.misses r (← getThe Store)
    return miss ++ (← runIn fuel s cs)

/-- Run cases in a new standard scope. -/
def run (fuel : Nat) (cases : List Case) : StateT Engine (StateT Store Option) Report := do
  let s ← modifyGetThe Store Store.standardScope
  let before := (← get).steps
  let misses ← runIn fuel s cases
  let engine ← get
  return { strategy := engine.strategy, passed := cases.length - misses.length,
           steps := engine.steps - before, misses }

end LispEngines.Suite
