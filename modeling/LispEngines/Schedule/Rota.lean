import LispEngines.Schedule.Task

/-!
# The rota

Tasks stand in a row, each in a seat with a level, and a cursor goes round the row.
A visit to a seat that is ready lowers its level by one.  A seat whose level has come
down to `runLevel` is chosen, and its level starts again from its priority.  Seats
of equal priority therefore take turns, and a seat with a lower priority number
comes up more often.

The cursor would have to go round very often before a seat with a high level comes
up.  `choose` does not do that.  After a lap in which nothing was chosen it lowers
all levels at once, by as many laps as would pass without a choice, and goes on.
Levels are 32-bit numbers that stop at their bounds instead of wrapping.  That is
the reason why one such leap may fall short, when every level is close to the
upper bound; a second one never does, so three laps are enough.

Choosing a seat and working on its task are kept apart: nothing here runs a task.
-/

namespace LispEngines

/-- A task with its place in the rota. -/
structure Seat where
  id : UInt32
  /-- The level from which the seat starts.  Lower numbers are more urgent. -/
  priority : Int32
  level : Int32
  suspended : Bool := false
  /-- How often the task was worked on. -/
  quanta : Nat := 0
  task : Task

/-- Whether a seat can be chosen. -/
def Seat.isReady (s : Seat) : Bool := !s.task.isIdle && !s.suspended

/-- The seats in order, and the position that is visited next. -/
structure Rota where
  seats : List Seat := []
  cursor : Nat := 0

namespace Rota

/-- The level at which a seat is chosen. -/
def runLevel : Int32 := -20

/-- The priority of the idle task. -/
def idlePriority : Int32 := Int32.maxValue

/-- The difference of two levels, or the bound nearest to it. -/
def lower (level amount : Int32) : Int32 := Int32.ofIntClamp (level.toInt - amount.toInt)

/-! ## Choosing -/

/-- Visit the seat under the cursor; the answer is its position if it is chosen. -/
def visit (r : Rota) : Option Nat × Rota :=
  let i := r.cursor % r.seats.length
  let cursor := (i + 1) % r.seats.length
  match r.seats[i]? with
  | none => (none, { r with cursor })
  | some s =>
    if !s.isReady then (none, { r with cursor })
    else
      let level := lower s.level 1
      if level ≤ runLevel then
        (some i, { seats := r.seats.set i { s with level := s.priority }, cursor })
      else (none, { seats := r.seats.set i { s with level }, cursor })

/-- At most `n` visits, up to the first that chooses. -/
def visits : (n : Nat) → Rota → Option Nat × Rota
  | 0, r => (none, r)
  | n + 1, r =>
    match r.visit with
    | (some i, r) => (some i, r)
    | (none, r) => visits n r

/-- The levels of the seats that are ready. -/
def readyLevels (r : Rota) : List Int32 := (r.seats.filter Seat.isReady).map Seat.level

/-- The number of laps that would pass without a choice. -/
def quietLaps (r : Rota) : Int32 :=
  match (r.readyLevels.map (lower · runLevel)).min? with
  | some gap => lower gap 1
  | none => 0

/-- Lower the levels as that many laps would. -/
def skip (r : Rota) (laps : Int32) : Rota :=
  if 0 < laps then
    { r with seats := r.seats.map fun s =>
        if s.isReady then { s with level := lower s.level laps } else s }
  else r

/-- Go round until a seat is chosen, leaping over quiet laps. -/
def chooseWithin : (laps : Nat) → Rota → Option (Nat × Rota)
  | 0, _ => none
  | laps + 1, r =>
    match r.visits r.seats.length with
    | (some i, r) => some (i, r)
    | (none, r) => chooseWithin laps (r.skip r.quietLaps)

/-- The position of the seat that is due next, if any seat is ready. -/
def choose (r : Rota) : Option (Nat × Rota) :=
  if r.seats.any Seat.isReady then chooseWithin 3 r else none

/-! ## Changing the row -/

/-- Put a seat at the end of the row. -/
def insert (r : Rota) (s : Seat) : Rota := { r with seats := r.seats ++ [s] }

/-- Replace the seat at a position. -/
def set (r : Rota) (i : Nat) (s : Seat) : Rota := { r with seats := r.seats.set i s }

/-- Take the seat at a position away.  The cursor stays at the seat it was at; if
that one went, it is at the next. -/
def remove (r : Rota) (i : Nat) : Rota :=
  let seats := r.seats.eraseIdx i
  let cursor := if i < r.cursor then r.cursor - 1 else r.cursor
  { seats, cursor := cursor % seats.length }

/-- The position of the task with a given number, unless it is the idle task. -/
def position? (r : Rota) (id : UInt32) : Option Nat :=
  match r.seats.findIdx? (·.id == id) with
  | some i => if (r.seats[i]?.any fun s => s.task.isIdle) then none else some i
  | none => none

/-- The seats in the order in which they are visited next. -/
def upcoming (r : Rota) : List Seat := r.seats.drop r.cursor ++ r.seats.take r.cursor

end Rota

end LispEngines
