import LispEngines.Scope

/-!
# Arithmetic

The operations that native procedures and machine instructions share, so that all
engines overload and fail alike.  Integers have 64 bits and wrap around.
Division truncates towards zero.
-/

namespace LispEngines

/-- The order relations on numbers. -/
inductive Comparison where
  | less | lessEqual | greater | greaterEqual | equal
  deriving DecidableEq, Repr, Inhabited

namespace Comparison

/-- The name of the operation, as messages spell it. -/
def name : Comparison → String
  | .less => "<"
  | .lessEqual => "<="
  | .greater => ">"
  | .greaterEqual => ">="
  | .equal => "="

/-- Whether the relation holds between two numbers. -/
def holds : Comparison → Int64 → Int64 → Bool
  | .less, x, y => x < y
  | .lessEqual, x, y => x ≤ y
  | .greater, x, y => x > y
  | .greaterEqual, x, y => x ≥ y
  | .equal, x, y => x == y

end Comparison

namespace Value

/-- The two numbers that a numeric operation needs. -/
def numbers (op : String) (a b : Value) : Action (Int64 × Int64) :=
  fun st =>
    match a, b with
    | .number x, .number y => (.ok (x, y), st)
    | a, b => (.error (.mismatch (.numbers op a.kind (a.shown st) b.kind (b.shown st))), st)

/-- Numbers add, text concatenates with any atom, lists append to a new list. -/
def add (a b : Value) : Action Value := do
  match a with
  | .number _ =>
    let (x, y) ← numbers "+" a b
    pure (.number (x + y))
  | .text s =>
    match b.atomText? with
    | some t => pure (.text (s ++ t))
    | none => throw (.mismatch (.concatenate b.kind))
  | .symbol s =>
    match b.atomText? with
    | some t => pure (.symbol (s ++ t))
    | none => throw (.mismatch (.concatenate b.kind))
  | .list r =>
    match b with
    | .list s =>
      let st ← get
      Action.newList (st.items r ++ st.items s)
    | b => throw (.mismatch (.appendTo b.kind))
  | a => throw (.mismatch (.unsupported a.kind))

def sub (a b : Value) : Action Value := do
  let (x, y) ← numbers "-" a b
  pure (.number (x - y))

def mul (a b : Value) : Action Value := do
  let (x, y) ← numbers "*" a b
  pure (.number (x * y))

/-- The quotient, truncated towards zero. -/
def div (a b : Value) : Action Value := do
  let (x, y) ← numbers "/" a b
  if y == 0 then throw .divideByZero
  pure (.number (x / y))

/-- Whether two numbers stand in an order relation. -/
def compare (op : Comparison) (a b : Value) : Action Bool := do
  let (x, y) ← numbers op.name a b
  pure (op.holds x y)

end Value

end LispEngines
