import LispEngines.Schedule.Rota
import LispEngines.Text.Decimal

/-!
# The scheduler

The scheduler holds tasks in a rota and works on one of them per tick, for one
quantum of steps.  A task that ends or fails is reported and leaves the rota.

Tasks arrive in two ways.  `spawn` puts a task into the rota at once.  `post` puts
it into the mailbox, from where it joins the rota at the start of the next tick;
hooks, which run in the middle of a tick, add tasks in this way only.  Both draw
from one sequence of task numbers.

Hooks are functions of the scheduler's user.  They have a state of their own, of
type `σ`, and see the mailbox and the store, but not the rota.
-/

namespace LispEngines

/-! ## Arrivals -/

/-- A task on its way into the rota. -/
structure Arrival where
  id : UInt32
  priority : Int32
  task : Task

/-- The next task number, and the tasks that wait for the next tick in the order
in which they were posted. -/
structure Mailbox where
  nextId : UInt32 := 0
  arrivals : List Arrival := []

namespace Mailbox

/-- Draw a task number. -/
def drawId (b : Mailbox) : UInt32 × Mailbox := (b.nextId, { b with nextId := b.nextId + 1 })

/-- Leave a task for the next tick. -/
def post (b : Mailbox) (task : Task) (priority : Int32) : UInt32 × Mailbox :=
  let (id, b) := b.drawId
  (id, { b with arrivals := b.arrivals ++ [{ id, priority, task }] })

end Mailbox

/-! ## Reports -/

/-- How a task left the scheduler. -/
inductive Outcome where
  | completed (v : Value)
  | failed (e : Failure)
  | cancelled
  deriving Repr

/-- What is told about a task that has left. -/
structure Report where
  id : UInt32
  kind : String
  priority : Int32
  quanta : Nat
  steps : Nat
  outcome : Outcome
  deriving Repr

/-- The name under which a task is shown: its number and its sort. -/
def taskTitle (id : UInt32) (kind : String) : String := toString id.toNat ++ "." ++ kind

def Report.title (r : Report) : String := taskTitle r.id r.kind

def Seat.title (s : Seat) : String := taskTitle s.id s.task.kind

/-- The report of a seat that leaves. -/
def Seat.report (s : Seat) (outcome : Outcome) : Report :=
  { id := s.id, kind := s.task.kind, priority := s.priority, quanta := s.quanta
    steps := s.task.steps, outcome }

/-- What a tick did. -/
inductive Tick where
  /-- No task was ready. -/
  | idle
  /-- A task was worked on and has not ended. -/
  | ran (id : UInt32)
  /-- A task was worked on for the last time. -/
  | finished (report : Report)
  deriving Repr

/-! ## The scheduler -/

/-- How a scheduler is set up. -/
structure ScheduleSettings where
  /-- Steps per tick.  A scheduler that is asked for none takes one. -/
  quantum : Nat := 100
  defaultPriority : Int32 := 20
  /-- How long to sleep when no task is ready, in milliseconds. -/
  idleSleep : Nat := 1
  deriving DecidableEq, Repr

structure Scheduler where
  settings : ScheduleSettings
  rota : Rota
  mailbox : Mailbox

/-- Work of a hook. -/
abbrev HookWork (σ : Type) := StateT Mailbox (StateT σ (StateT Store Option))

/-- What the scheduler's user wants to be called for. -/
structure Hooks (σ : Type) where
  /-- A task has ended or failed and is about to leave. -/
  onComplete : Report → HookWork σ Unit := fun _ => pure ()
  /-- A task has left, for whatever reason. -/
  onRemove : Report → HookWork σ Unit := fun _ => pure ()
  /-- The scheduler wants to sleep for some milliseconds; the answer says for how
  many it will. -/
  onSleep : Nat → HookWork σ Nat := pure
  onAwaken : HookWork σ Unit := pure ()

/-- Work of a scheduler with hooks. -/
abbrev Scheduling (σ : Type) := StateT Scheduler (StateT σ (StateT Store Option))

namespace Scheduler

variable {σ : Type}

/-- Put a task into the rota. -/
def enrol (sch : Scheduler) (a : Arrival) : Scheduler :=
  let seat : Seat := { id := a.id, priority := a.priority, level := a.priority, task := a.task }
  { sch with rota := sch.rota.insert seat }

/-- Put a task with a given priority into the rota. -/
def spawn (sch : Scheduler) (task : Task) (priority : Int32) : UInt32 × Scheduler :=
  let (id, mailbox) := sch.mailbox.drawId
  (id, ({ sch with mailbox } : Scheduler).enrol { id, priority, task })

/-- A scheduler whose only task is the idle one. -/
def new (settings : ScheduleSettings) : Scheduler :=
  ({ settings, rota := {}, mailbox := {} } : Scheduler).spawn .idle Rota.idlePriority |>.2

/-- Leave a task for the next tick. -/
def post (sch : Scheduler) (task : Task) (priority : Int32) : UInt32 × Scheduler :=
  let (id, mailbox) := sch.mailbox.post task priority
  (id, { sch with mailbox })

/-- Move the posted tasks into the rota. -/
def enrolAll (sch : Scheduler) : Scheduler :=
  let arrivals := sch.mailbox.arrivals
  arrivals.foldl enrol { sch with mailbox := { sch.mailbox with arrivals := [] } }

/-- The number of tasks in the rota and in the mailbox, the idle one apart. -/
def size (sch : Scheduler) : Nat :=
  sch.rota.seats.countP (!·.task.isIdle) + sch.mailbox.arrivals.length

/-- Suspend a task or make it ready again; whether there is such a task. -/
def setSuspended (sch : Scheduler) (id : UInt32) (suspended : Bool) : Bool × Scheduler :=
  match sch.rota.seats.findIdx? (fun s => s.id == id && !s.task.isIdle) with
  | some i =>
    (true, { sch with rota := { sch.rota with
      seats := sch.rota.seats.modify i fun s => { s with suspended } } })
  | none => (false, sch)

def suspend (sch : Scheduler) (id : UInt32) : Bool × Scheduler := sch.setSuspended id true

def resume (sch : Scheduler) (id : UInt32) : Bool × Scheduler := sch.setSuspended id false

/-- Work of a hook as part of the scheduler's. -/
def callHook {α : Type} (h : HookWork σ α) : Scheduling σ α := fun sch s st => do
  let (((a, mailbox), s), st) ← h sch.mailbox s st
  return (((a, { sch with mailbox }), s), st)

/-- Take a seat out of the rota and report it. -/
def remove (hooks : Hooks σ) (i : Nat) (seat : Seat) (outcome : Outcome) :
    Scheduling σ Report := do
  modify fun sch => { sch with rota := sch.rota.remove i }
  let report := seat.report outcome
  callHook (hooks.onRemove report)
  return report

/-- Remove a task before it has ended. -/
def cancel (hooks : Hooks σ) (id : UInt32) : Scheduling σ (Option Report) := do
  let rota := (← get).rota
  match rota.position? id with
  | some i =>
    match rota.seats[i]? with
    | some seat => return some (← remove hooks i seat .cancelled)
    | none => return none
  | none => return none

/-! ## Ticking -/

/-- Whether a task is over after it was worked on with a given result. -/
def outcome? (task : Task) : Except Failure Unit → Option Outcome
  | .ok () => task.value?.map .completed
  | .error e => some (.failed e)

/-- Work on the seat at a position for one quantum. -/
def workAt (fuel : Nat) (hooks : Hooks σ) (i : Nat) (seat : Seat) : Scheduling σ Tick := do
  let budget := max 1 (← get).settings.quantum
  let (r, task) ← Task.work fuel budget seat.task
  let seat := { seat with task, quanta := seat.quanta + 1 }
  modify fun sch => { sch with rota := sch.rota.set i seat }
  match outcome? task r with
  | none => return .ran seat.id
  | some outcome =>
    callHook (hooks.onComplete (seat.report outcome))
    return .finished (← remove hooks i seat outcome)

/-- Enrol what was posted, choose a seat and work on it. -/
def tick (fuel : Nat) (hooks : Hooks σ) : Scheduling σ Tick := do
  modify enrolAll
  match (← get).rota.choose with
  | none => return .idle
  | some (i, rota) =>
    modify fun sch => { sch with rota }
    match rota.seats[i]? with
    | some seat => workAt fuel hooks i seat
    | none => return .idle

/-- Tick until no task is ready; the reports of the tasks that left. -/
def runUntilIdle (work : Nat) (hooks : Hooks σ) : (fuel : Nat) → Scheduling σ (List Report)
  | 0 => fun _ _ _ => none
  | fuel + 1 => do
    match ← tick work hooks with
    | .idle => return []
    | .ran _ => runUntilIdle work hooks fuel
    | .finished r => return r :: (← runUntilIdle work hooks fuel)

/-- Sleep as long as the hooks allow; the answer is for how many milliseconds. -/
def sleep (hooks : Hooks σ) : Scheduling σ Nat := do
  let ms ← callHook (hooks.onSleep (← get).settings.idleSleep)
  callHook hooks.onAwaken
  return ms

/-- Tick a number of times and sleep whenever no task is ready; the reports of the
tasks that left. -/
def serve (fuel : Nat) (hooks : Hooks σ) : (rounds : Nat) → Scheduling σ (List Report)
  | 0 => return []
  | rounds + 1 => do
    match ← tick fuel hooks with
    | .idle =>
      discard (sleep hooks)
      serve fuel hooks rounds
    | .ran _ => serve fuel hooks rounds
    | .finished r => return r :: (← serve fuel hooks rounds)

end Scheduler

end LispEngines
