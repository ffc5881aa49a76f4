import LispEngines.Action
import LispEngines.Show

/-!
# Lexical scopes

A name means what the nearest scope that binds it says, going outwards from the
scope where the name is used.  `chain` lists those scopes, nearest first, and
everything else is said in terms of it: `find?` is the first scope of the chain
that binds the name, `lookup?` is what that scope binds, and assignment changes
the binding there.

Parents are older than their children, so a chain is no longer than the store
has scopes; that is the bound under which it is computed.
-/

namespace LispEngines

namespace Store

/-- A scope and the scopes around it, nearest first, at most `fuel` of them. -/
def chainWithin (st : Store) : (fuel : Nat) → ScopeRef → List ScopeRef
  | 0, _ => []
  | fuel + 1, s =>
    s :: match (st.scopeAt s).parent with
      | some p => chainWithin st fuel p
      | none => []

/-- A scope and the scopes around it, nearest first. -/
def chain (st : Store) (s : ScopeRef) : List ScopeRef := st.chainWithin st.scopes.size s

/-- What a scope itself binds to a name. -/
def local? (st : Store) (s : ScopeRef) (key : String) : Option Value :=
  (st.scopeAt s).bindings.get? key

/-- Whether a scope itself binds a name. -/
def binds (st : Store) (s : ScopeRef) (key : String) : Bool := (st.local? s key).isSome

/-- The nearest scope that binds a name. -/
def find? (st : Store) (s : ScopeRef) (key : String) : Option ScopeRef :=
  (st.chain s).find? fun t => st.binds t key

/-- What a name means in a scope. -/
def lookup? (st : Store) (s : ScopeRef) (key : String) : Option Value :=
  (st.chain s).findSome? fun t => st.local? t key

/-- The bindings of one scope as text, with a mark if there is a scope around
it. -/
def describe (st : Store) (s : ScopeRef) : String :=
  let sc := st.scopeAt s
  let entry (key : String) : Option String :=
    (sc.bindings.get? key).map fun v => key ++ ": " ++ v.shown st
  "\x7b" ++ ", ".intercalate (sc.bindings.sortedKeys.filterMap entry) ++ "\x7d" ++
    (if sc.parent.isSome then " ^" else "")

/-- One scope for inspection: its names, and whether there is a scope around it. -/
def inspectScope (st : Store) (s : ScopeRef) : String :=
  let sc := st.scopeAt s
  "Env \x7b keys: [" ++ ", ".intercalate (sc.bindings.sortedKeys.map Text.quoted) ++
    "], has_parent: " ++ (if sc.parent.isSome then "true" else "false") ++ " \x7d"

end Store

namespace Action

/-- Bind a name in a scope. -/
def define (s : ScopeRef) (key : String) (v : Value) : Action Unit :=
  fun st => (.ok (), st.define s key v)

/-- Change the nearest binding of a name. -/
def assign (s : ScopeRef) (key : String) (v : Value) : Action Unit :=
  fun st =>
    match st.find? s key with
    | some t => (.ok (), st.define t key v)
    | none => (.error (.setUndefined key), st)

/-- What a name means in a scope. -/
def lookup (s : ScopeRef) (key : String) : Action Value :=
  fun st =>
    match st.lookup? s key with
    | some v => (.ok v, st)
    | none => (.error (.unbound key), st)

/-- The name that a value stands for. -/
def keyText (v : Value) : Action String :=
  fun st =>
    match v.keyText? with
    | some s => (.ok s, st)
    | none => (.error (.mismatch (.notName v.kind (v.shown st))), st)

/-- Bind names to values one by one, until a name is none. -/
def bindAll (s : ScopeRef) : List Value → List Value → Action Unit
  | name :: names, v :: values => do
    define s (← keyText name) v
    bindAll s names values
  | _, _ => pure ()

/-- The scope of a call: a fresh scope inside `parent` in which the parameters
stand for the arguments.  A symbol in place of a parameter list collects all
arguments in one list. -/
def bindParameters (params : Value) (args : List Value) (parent : ScopeRef) :
    Action ScopeRef := do
  let s ← newScope (some parent)
  match params with
  | .symbol name =>
    define s name (← newList args)
    pure s
  | .list r =>
    let names := (← get).items r
    if names.length ≠ args.length then
      throw (.arity names.length args.length)
    bindAll s names args
    pure s
  | other =>
    throw (.malformed
      ("parameter list must be a symbol or list, got " ++ other.shown (← get)))

end Action

end LispEngines
