import LispEngines.Assembly.Assembler
import LispEngines.Classic
import LispEngines.Frame.Run
import LispEngines.Machine.Bundled
import LispEngines.Machine.Execute
import LispEngines.Reader.Form

/-!
# Engines

Three engines evaluate the same language: the recursive one, the resumable one
with its frames, and the machine running an evaluator program.  An `Engine` is one
of them with its settings and with the number of steps it has taken, each engine
counting in its own unit.

`evaluateSource` is how a source is run: all of it is read before any of it is
evaluated, and the forms are evaluated in order until one fails.
-/

namespace LispEngines

/-- Which engine to use. -/
inductive Strategy where
  | classic | frame | machine
  deriving DecidableEq, Repr, Inhabited

namespace Strategy

def all : List Strategy := [.classic, .frame, .machine]

/-- The name by which users select an engine. -/
def name : Strategy → String
  | .classic => "classic"
  | .frame => "frame"
  | .machine => "cell"

/-- The engine with a given name. -/
def ofName? (s : String) : Option Strategy := all.find? (·.name == s)

end Strategy

/-- An engine with its settings and its step count. -/
inductive Engine where
  | classic (limit steps : Nat)
  /-- `maxDepth` is the depth that the latest evaluation reached. -/
  | frame (steps maxDepth : Nat)
  | machine (program : Program) (stackSize steps : Nat)
  deriving Repr

namespace Engine

def strategy : Engine → Strategy
  | .classic .. => .classic
  | .frame .. => .frame
  | .machine .. => .machine

/-- The steps taken so far. -/
def steps : Engine → Nat
  | .classic _ n => n
  | .frame n _ => n
  | .machine _ _ n => n

/-- A machine engine for an evaluator program given as assembly text. -/
def ofAssembly (source entry : String) (stackSize : Nat) :
    StateM Store (Except AssembleError Engine) := do
  match ← Assembler.assemble source entry with
  | .ok program => return .ok (.machine program stackSize 0)
  | .error e => return .error e

/-- A machine about to evaluate an expression: the expression and the scope are
pushed. -/
def loaded (program : Program) (stackSize : Nat) (x : Value) (s : ScopeRef) : Action Machine :=
  Machine.start program [x, .scope s] stackSize

/-- The value of a machine that has finished; a machine that stopped itself with a
message has failed. -/
def outcome (m : Machine) (v : Value) : Except Failure Value :=
  match m.haltMessage with
  | some message => .error (.ofHalt message)
  | none => .ok v

/-- Evaluate an expression in a scope. -/
def evaluate (fuel : Nat) (x : Value) (s : ScopeRef) : Run Engine Value :=
  fun engine st => do
    match engine with
    | .classic limit n =>
      let ((r, n), st) ← Classic.evaluate limit fuel x s n st
      return ((r, .classic limit n), st)
    | .frame n _ =>
      let ((r, m), st) ← FrameStack.run fuel (.start x s) st
      return ((r, .frame (n + m.steps) m.maxDepth), st)
    | .machine program stackSize n =>
      match loaded program stackSize x s st with
      | (.error e, st) => return ((.error e, .machine program stackSize n), st)
      | (.ok m, st) =>
        let ((r, m), st) ← Machine.run fuel m st
        return ((r.bind (outcome m), .machine program stackSize (n + m.steps)), st)

/-- Why a source has no value. -/
inductive SourceError where
  | read (e : ReadError)
  | failed (e : Failure)
  deriving DecidableEq, Repr

/-- The wording of a source error. -/
def SourceError.message : SourceError → String
  | .read e => e.message
  | .failed e => e.message

/-- Evaluate forms in order; the result is that of the last one. -/
def evaluateForms (fuel : Nat) (s : ScopeRef) : (last : Value) → List Form → Run Engine Value
  | last, [] => pure last
  | _, f :: fs => do
    let x ← Run.ofStep (fun e st => let (v, st) := f.build st; ((.ok v, e), st))
    evaluateForms fuel s (← evaluate fuel x s) fs

/-- Run a source in a scope. -/
def evaluateSource (fuel : Nat) (source : String) (s : ScopeRef) :
    StateT Engine (StateT Store Option) (Except SourceError Value) := fun engine st =>
  match Form.ofSource source with
  | .error e => some ((.error (.read e), engine), st)
  | .ok forms => do
    let (nil, st) := st.newList []
    let ((r, engine), st) ← evaluateForms fuel s (.list nil) forms engine st
    return ((r.mapError .failed, engine), st)

end Engine

end LispEngines
