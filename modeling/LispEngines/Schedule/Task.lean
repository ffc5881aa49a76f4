import LispEngines.Engine

/-!
# Tasks

A task is an evaluation in flight that can be worked on a little at a time.  The
resumable engine and the machine stop after a given number of steps.  The
recursive engine cannot stop half-way, so its task does everything the first time
it is worked on.

The idle task stands for having nothing to do.  It never ends.
-/

namespace LispEngines

/-- A source as one form: all its forms in a `begin`. -/
def Form.program (source : String) : Except ReadError Form := do
  return .list (.symbol "begin" :: (← Form.ofSource source))

/-- An evaluation in flight. -/
inductive Task where
  /-- An expression for the recursive engine, and its value once there is one. -/
  | classic (expr : Value) (scope : ScopeRef) (limit steps : Nat) (value : Option Value)
  | frame (stack : FrameStack)
  | machine (m : Machine)
  | idle

namespace Task

-- Powers are those of the core library, whatever else is in scope.
attribute [local instance (2000)] instPowNat

/-- The sort of a task, as it is named in titles and reports. -/
def kind : Task → String
  | .classic .. => "ClassicTask"
  | .frame _ => "FrameTask"
  | .machine _ => "MachineTask"
  | .idle => "Idle"

def isIdle : Task → Bool
  | .idle => true
  | _ => false

/-- The steps taken so far, as the engine counts them. -/
def steps : Task → Nat
  | .classic _ _ _ n _ => n
  | .frame m => m.steps
  | .machine m => m.steps
  | .idle => 0

/-- The final value, once the task has ended. -/
def value? : Task → Option Value
  | .classic _ _ _ _ v => v
  | .frame m => if m.isDone then m.root.result else none
  | .machine m => if m.finished then some m.a else none
  | .idle => none

/-- A new task that evaluates an expression with a given engine's settings. -/
def ofEngine (engine : Engine) (x : Value) (s : ScopeRef) : Action Task :=
  match engine with
  | .classic limit _ => pure (.classic x s limit 0 none)
  | .frame .. => pure (.frame (.start x s))
  | .machine program stackSize _ => do
    return .machine (← Engine.loaded program stackSize x s)

/-- A new task that evaluates a form in a standard scope of its own. -/
def ofForm (engine : Engine) (f : Form) : Action Task := fun st =>
  let (x, st) := f.build st
  let (s, st) := st.standardScope
  ofEngine engine x s st

/-- The most steps that a resumable evaluation makes in one go. -/
def maxFrameSteps : Nat := 2 ^ (32 : Nat) - 1

/-- What stopping means for a machine: a message is a failure. -/
def verdict (m : Machine) (finished : Bool) : Except Failure Unit :=
  match finished, m.haltMessage with
  | true, some message => .error (.ofHalt message)
  | _, _ => .ok ()

/-- Work on a task for at most `budget` steps.  A recursive evaluation takes as
many as it needs, and the fuel bounds it. -/
def work (fuel budget : Nat) : Run Task Unit := fun task st =>
  match task with
  | .classic x s limit n none => do
    let ((r, n), st) ← Classic.evaluate limit fuel x s n st
    return ((r.map fun _ => (), .classic x s limit n r.toOption), st)
  | .classic x s limit n (some v) => some ((.ok (), .classic x s limit n (some v)), st)
  | .frame m =>
    let ((r, m), st) := FrameStack.runFor (min budget maxFrameSteps) m st
    some ((r.map fun _ => (), .frame m), st)
  | .machine m =>
    let ((r, m), st) := Machine.runFor budget m st
    some ((r.bind (verdict m), .machine m), st)
  | .idle => some ((.ok (), .idle), st)

end Task

end LispEngines
