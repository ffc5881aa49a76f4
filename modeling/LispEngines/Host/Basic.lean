/-!
# Hosts

What the program needs from the machine it runs on: files, variables, a clock, and
lines of input and output.  The program is written for any host.  One is the machine
itself; another is a folder that exists only as a value, for which the whole program
is a function.
-/

namespace LispEngines

/-- A monad in which the program can run. -/
class Host (m : Type → Type) where
  /-- The content of a file, or the reason why it cannot be read. -/
  readFile : (path : String) → m (Except String String)
  /-- Whether a path names a file. -/
  isFile : (path : String) → m Bool
  /-- The variables that are set. -/
  environment : m (List (String × String))
  /-- The next line of input with its end, if there is one. -/
  readLine : m (Option String)
  /-- Write to the output. -/
  write : String → m Unit
  /-- Write to where errors and measurements are told. -/
  tell : String → m Unit
  /-- The time since some fixed moment, in nanoseconds. -/
  clock : m Nat

instance {m n : Type → Type} [MonadLift m n] [Host m] : Host n where
  readFile path := liftM (Host.readFile path : m _)
  isFile path := liftM (Host.isFile path : m _)
  environment := liftM (Host.environment : m _)
  readLine := liftM (Host.readLine : m _)
  write s := liftM (Host.write s : m _)
  tell s := liftM (Host.tell s : m _)
  clock := liftM (Host.clock : m _)

end LispEngines
