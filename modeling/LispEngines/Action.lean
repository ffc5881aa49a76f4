import LispEngines.Failure
import LispEngines.Store

/-!
# Actions, steps and runs

An action reads and changes the store and then succeeds or fails.  What it did to
the store before failing stays done: a program that prints and then fails has
printed.  That is why the failure sits above the state.

Engines have a state of their own beside the store.  A `Step` is a bounded piece
of their work, and it too keeps what it did before it failed.  A `Run` is work
without a bound.  It is computed with fuel, and `none` means that the fuel ran
out: that is no outcome of the program, so it leaves neither a value nor a
failure nor a store behind.
-/

namespace LispEngines

/-- A computation over the store that may fail. -/
abbrev Action := ExceptT Failure (StateM Store)

namespace Action

/-- Allocate a list. -/
def newList (items : List Value) : Action Value :=
  fun st =>
    let (r, st) := st.newList items
    (.ok (.list r), st)

/-- Allocate an empty list. -/
def newNil : Action Value := newList []

/-- Allocate a scope. -/
def newScope (parent : Option ScopeRef) : Action ScopeRef :=
  fun st =>
    let (s, st) := st.newScope parent
    (.ok s, st)

/-- The text of a closed sink's refusal. -/
def sinkClosed : String := "sink closed"

/-- Write to the output, or fail with the cause that `refused` makes of the
reason. -/
def write (t : String) (refused : String → Failure) : Action Unit :=
  fun ⟨lists, scopes, sink⟩ =>
    match sink.write? t with
    | some sink => (.ok (), ⟨lists, scopes, sink⟩)
    | none => (.error (refused sinkClosed), ⟨lists, scopes, sink⟩)

end Action

/-- A bounded piece of work on an engine state `σ`. -/
abbrev Step (σ : Type) := ExceptT Failure (StateT σ (StateM Store))

/-- An action as a step. -/
def Step.act {σ α : Type} (a : Action α) : Step σ α :=
  fun s st =>
    let (r, st) := a st
    ((r, s), st)

/-- Work on an engine state `σ` that may never end. -/
abbrev Run (σ : Type) := ExceptT Failure (StateT σ (StateT Store Option))

namespace Run

/-- A step as part of a run. -/
def ofStep {σ α : Type} (x : Step σ α) : Run σ α := fun s st => some (x s st)

/-- An action as part of a run. -/
def act {σ α : Type} (a : Action α) : Run σ α := ofStep (Step.act a)

/-- No answer. -/
def outOfFuel {σ α : Type} : Run σ α := fun _ _ => none

end Run

end LispEngines
