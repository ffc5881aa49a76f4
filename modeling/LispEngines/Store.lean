import LispEngines.Sink
import LispEngines.Value

/-!
# The store

The store says what addresses mean: a list address names a sequence of values, a
scope address names a table of bindings with an optional parent.  It also holds
the output sink, because printing is the one other effect a program has.

Addresses are handed out in order and never withdrawn.  A list that nobody
refers to any more stays where it is; it cannot be observed, so nothing depends
on it, and no argument about reachability is needed to give an address its
meaning.

An address beyond the store reads as the empty list or as an empty scope.  No
operation creates such an address.
-/

namespace LispEngines

/-! ## Bindings -/

/-- The bindings of one scope, each name at most once. -/
abbrev Bindings := List (String × Value)

namespace Bindings

/-- The value bound to a name. -/
def get? : Bindings → String → Option Value
  | [], _ => none
  | (k, v) :: rest, key => if k = key then some v else get? rest key

/-- Bind a name, replacing an earlier binding of it. -/
def insert : Bindings → String → Value → Bindings
  | [], key, value => [(key, value)]
  | (k, v) :: rest, key, value =>
    if k = key then (k, value) :: rest else (k, v) :: insert rest key value

theorem get?_insert_self (b : Bindings) (key : String) (value : Value) :
    (b.insert key value).get? key = some value := by
  induction b with
  | nil => simp [insert, get?]
  | cons p rest ih =>
    obtain ⟨k, v⟩ := p
    by_cases h : k = key <;> simp [insert, get?, h, ih]

theorem get?_insert_of_ne (b : Bindings) {key other : String} (value : Value)
    (h : key ≠ other) : (b.insert key value).get? other = b.get? other := by
  induction b with
  | nil => simp [insert, get?, h]
  | cons p rest ih =>
    obtain ⟨k, v⟩ := p
    by_cases hk : k = key
    · subst hk; simp [insert, get?, h]
    · by_cases ho : k = other
      · subst ho; simp [insert, get?, hk]
      · simp [insert, get?, hk, ho, ih]

/-- The bound names in the order of their UTF-8 bytes, which is the order of
their code points. -/
def sortedKeys (b : Bindings) : List String :=
  (b.map Prod.fst).mergeSort (fun x y => decide (x ≤ y))

end Bindings

/-- One scope. -/
structure Scope where
  bindings : Bindings := []
  parent : Option ScopeRef := none
  deriving Repr, Inhabited

/-! ## Reading and allocating -/

/-- Everything that addresses refer to, and the output so far. -/
structure Store where
  lists : Array (List Value) := #[]
  scopes : Array Scope := #[]
  sink : Sink := {}
  deriving Repr, Inhabited

namespace Store

/-- The elements of a list. -/
def items (st : Store) (r : ListRef) : List Value := st.lists.getD r.index []

/-- The scope at an address. -/
def scopeAt (st : Store) (s : ScopeRef) : Scope := st.scopes.getD s.index {}

/-- Store a new list and give its address. -/
def newList (st : Store) (items : List Value) : ListRef × Store :=
  (⟨st.lists.size⟩, { st with lists := st.lists.push items })

/-- Store a new scope without bindings and give its address. -/
def newScope (st : Store) (parent : Option ScopeRef) : ScopeRef × Store :=
  (⟨st.scopes.size⟩, { st with scopes := st.scopes.push { parent } })

/-- Put a value at the end of a list, in place. -/
def extend (st : Store) (r : ListRef) (v : Value) : Store :=
  { st with lists := st.lists.modify r.index (· ++ [v]) }

/-- Bind a name in a scope, in place. -/
def define (st : Store) (s : ScopeRef) (key : String) (v : Value) : Store :=
  { st with scopes := st.scopes.modify s.index fun sc =>
      { sc with bindings := sc.bindings.insert key v } }

/-- Hand over the output collected so far. -/
def takeOutput (st : Store) : String × Store :=
  let (text, sink) := st.sink.take
  (text, { st with sink })

end Store

/-! ## Looking into values -/

namespace Value

/-- The elements of a list, or of the form that defines a closure; nothing for
any other value. -/
def items (v : Value) (st : Store) : List Value :=
  match v.list? with
  | some r => st.items r
  | none => []

/-- The number of `items`. -/
def length (v : Value) (st : Store) : Nat := (v.items st).length

/-- One of the `items`. -/
def get? (v : Value) (st : Store) (i : Nat) : Option Value := (v.items st)[i]?

/-- Whether a value is the empty list. -/
def isNil (v : Value) (st : Store) : Bool :=
  match v with
  | .list r => (st.items r).isEmpty
  | _ => false

/-- The equality of the language.  Lists are equal when they are the same list
or both empty, closures when they share form and scope, and atoms when their
texts agree, whatever sort of atom they are. -/
def same (a b : Value) (st : Store) : Bool :=
  match a, b with
  | .list r, .list s => r = s || ((st.items r).isEmpty && (st.items s).isEmpty)
  | .lambda c, .lambda d => c = d
  | .expander c, .expander d => c = d
  | .native p, .native q => p = q
  | .scopeNative p, .scopeNative q => p = q
  | .scope s, .scope t => s = t
  | a, b =>
    match a.atomText?, b.atomText? with
    | some x, some y => x = y
    | _, _ => false

end Value

end LispEngines
