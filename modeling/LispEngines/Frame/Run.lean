import LispEngines.Frame.Handler

/-!
# Stepping a stack of frames

One step of the stack runs handlers of the top frame until one of them does not
ask to go on at once.  If that ends the frame, the frame below takes the result
within the same step, and so on down the stack; so a step ends with a new frame
on top, with the top frame pausing, or with the whole evaluation done.

The number of handlers that one frame can run within a step is bounded.  A frame
goes on at once through at most three handlers for each list it looks into, and
from one list it only goes on to an element of that list or to the body of the
procedure being called.  `handlerBound` is a number larger than any such chain in
a store where no list contains itself.
-/

namespace LispEngines

namespace FrameStack

open LispEngines.Frame

/-- Run one handler of the top frame. -/
def dispatchTop : Step FrameStack Flow :=
  fun ⟨top, below, depth, steps, maxDepth, depth_eq⟩ st =>
    let ((r, top), st) := Handler.dispatch { top with steps := top.steps + 1 } st
    ((r, ⟨top, below, depth, steps + 1, maxDepth, depth_eq⟩), st)

/-- Run handlers of the top frame until one does not ask to go on at once, at
most `bound` of them. -/
def runTop : (bound : Nat) → Step FrameStack Flow
  | 0 => pure .again
  | bound + 1 => do
    match ← dispatchTop with
    | .again => runTop bound
    | flow => pure flow

/-- More handlers than a frame can run within a step. -/
def handlerBound (st : Store) : Nat := 4 * st.lists.size + 16

/-- Let the top frame work. -/
def advanceTop : Step FrameStack Flow := fun m st => runTop (handlerBound st) m st

/-- Put a new frame on top; the one below waits for it. -/
def push (m : FrameStack) (expr : Value) (scope : ScopeRef) : FrameStack :=
  { top := { expr, scope }
    below := { m.top with wait := .running } :: m.below
    depth := m.depth + 1
    steps := m.steps
    maxDepth := max m.maxDepth (m.depth + 1)
    depth_eq := by rw [m.depth_eq, List.length_cons] }

/-- Take the ended top frame away and hand its result to the one below. -/
def pop (m : FrameStack) : FrameStack :=
  match h : m.below with
  | parent :: below =>
    { top := { parent with wait := .ended, incoming := m.top.result }
      below
      depth := m.depth - 1
      steps := m.steps
      maxDepth := m.maxDepth
      depth_eq := by rw [m.depth_eq, h, List.length_cons, Nat.add_sub_cancel] }
  | [] => m

/-- Do what the top frame's flow asks for.  `below` is the number of frames that
can still be ended. -/
def settle : (below : Nat) → Flow → Step FrameStack Unit
  | _, .again => pure ()
  | _, .stay => pure ()
  | _, .spawn x s => modify (·.push x s)
  | 0, .done => pure ()
  | below + 1, .done => do
    modify pop
    settle below (← advanceTop)

/-- One step.  A stack that is done stays as it is. -/
def step : Step FrameStack Unit := do
  if (← get).isDone then pure ()
  else
    let below := (← get).depth - 1
    settle below (← advanceTop)

/-- At most `budget` steps; whether the stack is done afterwards. -/
def runFor : (budget : Nat) → Step FrameStack Bool
  | 0 => return (← get).isDone
  | budget + 1 => do
    if (← get).isDone then pure true
    else
      step
      runFor budget

/-- Step until the evaluation is done. -/
def run : (fuel : Nat) → Run FrameStack Value
  | 0 => Run.outOfFuel
  | fuel + 1 => do
    if (← get).isDone then
      match (← get).top.result with
      | some v => pure v
      | none => Run.act Action.newNil
    else
      Run.ofStep step
      run fuel

end FrameStack

end LispEngines
