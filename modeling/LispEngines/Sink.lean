/-!
# Program output

What a program prints is collected rather than sent anywhere, so that running a
program stays a function.  A sink may be told to close after a number of lines:
that is how the behaviour of programs whose output breaks off is described.
-/

namespace LispEngines

/-- Collected output.  `lines` counts every newline ever written; once it has
reached `limit`, the sink is closed. -/
structure Sink where
  written : String := ""
  lines : Nat := 0
  limit : Option Nat := none
  deriving Repr, Inhabited

namespace Sink

/-- Whether nothing more can be written. -/
def isClosed (s : Sink) : Bool :=
  match s.limit with
  | some n => n ≤ s.lines
  | none => false

/-- Append `t`, whole or not at all: `none` if the sink is closed.  Writing
nothing always succeeds. -/
def write? (s : Sink) (t : String) : Option Sink :=
  if t.isEmpty then some s
  else if s.isClosed then none
  else some { s with
    written := s.written ++ t
    lines := s.lines + t.toList.count '\n' }

/-- What was written since the last call, and the sink with that handed over. -/
def take (s : Sink) : String × Sink := (s.written, { s with written := "" })

end Sink

end LispEngines
