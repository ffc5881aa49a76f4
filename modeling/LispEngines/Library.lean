import LispEngines.Arithmetic

/-!
# The native library

What the built-in procedures do, and the scope in which programs find them.  No
list procedure changes its arguments; every list that comes out is a new one.
-/

namespace LispEngines

namespace Value

/-- The first element of a list or of a defining form; a new empty list if there
is none. -/
def head (v : Value) : Action Value := do
  match v.get? (← get) 0 with
  | some first => pure first
  | none => Action.newNil

/-- A new list of all elements but the first. -/
def tail (v : Value) : Action Value := do
  Action.newList ((v.items (← get)).drop 1)

end Value

namespace Native

/-- The elements of an argument that has to be a list. -/
def expectList (op : String) (v : Value) : Action (List Value) :=
  fun st =>
    match v with
    | .list r => (.ok (st.items r), st)
    | v => (.error (.mismatch (.notList op v.kind (v.shown st))), st)

/-- One argument. -/
def unary (args : List Value) (f : Value → Action Value) : Action Value :=
  match args with
  | [a] => f a
  | args => throw (.arity 1 args.length)

/-- Two arguments. -/
def binary (args : List Value) (f : Value → Value → Action Value) : Action Value :=
  match args with
  | [a, b] => f a b
  | args => throw (.arity 2 args.length)

/-- A binary operation folded from the left over at least one argument. -/
def folded (args : List Value) (f : Value → Value → Action Value) : Action Value :=
  match args with
  | first :: rest => rest.foldlM f first
  | [] => throw (.arity 1 0)

/-- A comparison of two arguments. -/
def compared (args : List Value) (op : Comparison) : Action Value :=
  binary args fun a b => do return .ofBool (← Value.compare op a b)

/-- The arguments as they are printed, with blanks between them. -/
def joined (args : List Value) (st : Store) : String :=
  Value.spaced (args.map (·.shown st))

/-- Call a native procedure. -/
def call (p : Native) (args : List Value) : Action Value :=
  match p with
  | .plus => folded args Value.add
  | .minus => folded args Value.sub
  | .times => folded args Value.mul
  | .divide => folded args Value.div
  | .less => compared args .less
  | .lessEqual => compared args .lessEqual
  | .greater => compared args .greater
  | .greaterEqual => compared args .greaterEqual
  | .equalNumber => compared args .equal
  | .same => binary args fun a b => do return .ofBool (a.same b (← get))
  | .head => unary args fun a => do
      discard (expectList "head" a)
      a.head
  | .tail => unary args fun a => do
      discard (expectList "tail" a)
      a.tail
  | .isNull => unary args fun a => do return .ofBool (a.isNil (← get))
  | .list => Action.newList args
  | .cons => binary args fun a b => do
      Action.newList (a :: (← expectList "cons" b))
  | .append => binary args fun a b => do
      let front ← expectList "append" a
      let back ← expectList "append" b
      Action.newList (front ++ back)
  | .length => unary args fun a => do
      return .number (Int64.ofNat (← expectList "length" a).length)
  | .print => do
      Action.write (joined args (← get)) .output
      Action.write "\n" .output
      Action.newNil
  | .str => do return .text (joined args (← get))
  | .describeScope => unary args fun a => do
      match a.scope? with
      | some s => return .text ((← get).describe s)
      | none => throw (.mismatch (.notDescribable a.kind))

end Native

/-- Call a scope-aware native procedure. -/
def ScopeNative.call (p : ScopeNative) (_args : List Value) (s : ScopeRef) : Action Value :=
  match p with
  | .currentScope => pure (.scope s)

/-! ## The standard scope -/

namespace Store

/-- Bind the constants, the codes of the kinds and the native procedures in a
scope. -/
def installLibrary (st : Store) (s : ScopeRef) : Store :=
  let (empty, st) := st.newList []
  let entries : List (String × Value) :=
    [(Value.trueName, .ofBool true), (Value.falseName, .ofBool false),
     (Value.nilName, .list empty)] ++
    Kind.all.map (fun k => (k.label, .number k.code)) ++
    Native.all.map (fun p => (p.name, .native p)) ++
    ScopeNative.all.map (fun p => (p.name, .scopeNative p))
  entries.foldl (fun st (key, v) => st.define s key v) st

/-- A new root scope with the library in it. -/
def standardScope (st : Store) : ScopeRef × Store :=
  let (s, st) := st.newScope none
  (s, st.installLibrary s)

end Store

end LispEngines
