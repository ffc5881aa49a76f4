import LispEngines.SpecialForm

/-!
# Frames

The resumable engine keeps every evaluation that has begun and not ended as a
frame on a stack of its own, so that it can stop after any step and go on later.
A frame says what it does next (`Stage`) and how it stands to the evaluation it
has started (`Wait`).

A frame that comes to a tail position starts over with the new expression instead
of starting another frame.  `restart` is that operation.  It leaves the result
field as it is, and `incoming` as well, which by then has been consumed.
-/

namespace LispEngines

namespace Frame

/-- What a frame does next. -/
inductive Stage where
  | enter | builtin | sequence | branchTest | define | operator | operands
  | apply | expand | done
  deriving DecidableEq, Repr, Inhabited

/-- The name of a stage. -/
def Stage.name : Stage → String
  | .enter => "ENTER"
  | .builtin => "BUILTIN"
  | .sequence => "BEGIN"
  | .branchTest => "IF_TEST"
  | .define => "DEFINE"
  | .operator => "PROC"
  | .operands => "EXPS"
  | .apply => "EXEC_PROC"
  | .expand => "EXEC_MACRO"
  | .done => "DONE"

/-- How a frame stands to the frame above it. -/
inductive Wait where
  /-- There is none. -/
  | ready
  /-- It is still running. -/
  | running
  /-- It has just ended and left its result. -/
  | ended
  deriving DecidableEq, Repr, Inhabited

/-- The mark that a wait state puts on the name of a stage. -/
def Wait.mark : Wait → String
  | .ready => ""
  | .running => "|SUBFRAME"
  | .ended => "|SUBFRAME_FIN"

end Frame

/-- An evaluation in progress.  A result, an operator or an incoming result that
is not there stands for an empty list that nobody has seen yet. -/
structure Frame where
  stage : Frame.Stage := .enter
  wait : Frame.Wait := .ready
  /-- The expression being evaluated; replaced in tail positions. -/
  expr : Value
  scope : ScopeRef
  result : Option Value := none
  /-- The result of the frame above, until this one takes it. -/
  incoming : Option Value := none
  /-- The forms of a sequence that are still to come. -/
  body : List Value := []
  /-- The evaluated operator of a call. -/
  callee : Option Value := none
  /-- The operands of a call that are still to be evaluated. -/
  pending : List Value := []
  /-- The arguments of a call so far. -/
  args : List Value := []
  steps : Nat := 0
  deriving Repr

namespace Frame

/-- Stage and wait state as text. -/
def phase (f : Frame) : String := f.stage.name ++ f.wait.mark

def isDone (f : Frame) : Bool := f.stage == .done

/-- Start over with another expression, and in another scope if one is given. -/
def restart (f : Frame) (expr : Value) (scope : Option ScopeRef) : Frame :=
  { f with
    expr
    scope := scope.getD f.scope
    stage := .enter
    wait := .ready
    callee := none
    args := []
    pending := []
    body := [] }

/-- End with a result. -/
def finish (f : Frame) (result : Value) : Frame :=
  { f with result := some result, stage := .done, wait := .ready }

end Frame

/-- A stack of frames, the running one on top, and what the stack has cost so
far. -/
structure FrameStack where
  top : Frame
  below : List Frame := []
  /-- The number of frames.  It is kept, because counting them takes longer the more
  there are. -/
  depth : Nat := below.length + 1
  steps : Nat := 0
  /-- The greatest number of frames there ever were. -/
  maxDepth : Nat := 1
  depth_eq : depth = below.length + 1 := by rfl
  deriving Repr

namespace FrameStack

/-- A stack that is about to evaluate an expression. -/
def start (expr : Value) (scope : ScopeRef) : FrameStack := { top := { expr, scope } }

/-- The frame of the whole evaluation. -/
def root (m : FrameStack) : Frame := m.below.getLastD m.top

/-- Whether the whole evaluation has ended. -/
def isDone (m : FrameStack) : Bool := m.below.isEmpty && m.top.isDone

end FrameStack

end LispEngines
