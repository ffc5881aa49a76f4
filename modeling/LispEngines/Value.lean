/-!
# The values of the language

Every engine computes with one type of value.  Numbers, symbols and strings are
plain data; a list is only an *address*, because lists are shared and a machine
program may extend one in place, and a scope is an address too, because closures
and running frames share it.  What the addresses mean is the business of
`LispEngines.Store`.

Keeping the type first order has a price and a gain.  The price is that the text
of a value needs the store.  The gain is that equality of values is decidable
and that a value can be copied without asking who else holds it.
-/

namespace LispEngines

/-- The address of a list. -/
structure ListRef where
  index : Nat
  deriving DecidableEq, Repr, Inhabited

/-- The address of a scope. -/
structure ScopeRef where
  index : Nat
  deriving DecidableEq, Repr, Inhabited

/-- The built-in procedures that see only their arguments. -/
inductive Native where
  | plus | minus | times | divide
  | less | lessEqual | greater | greaterEqual | equalNumber | same
  | head | tail | isNull | list | cons | append | length
  | print | str | describeScope
  deriving DecidableEq, Repr, Inhabited

/-- The built-in procedures that also see the scope they are called from. -/
inductive ScopeNative where
  | currentScope
  deriving DecidableEq, Repr, Inhabited

/-- A procedure of the language: the list that defines it, `(lambda params body)`
or `(macro params body)`, and the scope it was made in. -/
structure Closure where
  form : ListRef
  scope : ScopeRef
  deriving DecidableEq, Repr, Inhabited

/-- A value.  An `expander` is a closure that receives its operands unevaluated
and whose result is evaluated again. -/
inductive Value where
  | number (n : Int64)
  | symbol (name : String)
  | text (content : String)
  | list (address : ListRef)
  | lambda (closure : Closure)
  | expander (closure : Closure)
  | native (procedure : Native)
  | scopeNative (procedure : ScopeNative)
  | scope (address : ScopeRef)
  deriving DecidableEq, Repr

instance : Inhabited Value := ⟨.number 0⟩

/-! ## Kinds -/

/-- What sort of value a value is. -/
inductive Kind where
  | symbol | text | number | list | lambda | expander | native | scopeNative | scope
  deriving DecidableEq, Repr, Inhabited

namespace Kind

/-- The kinds in the order of their codes. -/
def all : List Kind :=
  [.symbol, .text, .number, .list, .lambda, .expander, .native, .scopeNative, .scope]

/-- The tag by which programs name a kind. -/
def name : Kind → String
  | .symbol => "SYMBOL"
  | .text => "STRING"
  | .number => "NUMBER"
  | .list => "LIST"
  | .lambda => "LAMBDA"
  | .expander => "MACRO"
  | .native => "PROC"
  | .scopeNative => "PROCENV"
  | .scope => "ENVPTR"

/-- The word used for a kind in messages. -/
def word : Kind → String
  | .symbol => "symbol"
  | .text => "string"
  | .number => "number"
  | .list => "list"
  | .lambda => "lambda"
  | .expander => "macro"
  | .native => "proc"
  | .scopeNative => "procenv"
  | .scope => "environment"

/-- The number that stands for a kind in machine programs. -/
def code : Kind → Int64
  | .symbol => 0
  | .text => 1
  | .number => 2
  | .list => 3
  | .lambda => 4
  | .expander => 5
  | .native => 6
  | .scopeNative => 7
  | .scope => 8

/-- The name under which the code of a kind is bound. -/
def label (k : Kind) : String := "CellType." ++ k.name

/-- The kind with a given code. -/
def ofCode? (n : Int64) : Option Kind := all.find? (·.code == n)

theorem ofCode?_code (k : Kind) : ofCode? k.code = some k := by
  cases k <;> decide

end Kind

/-! ## Native procedures by name -/

namespace Native

/-- Every native procedure, in the order in which a standard scope binds them. -/
def all : List Native :=
  [.plus, .minus, .times, .divide, .less, .lessEqual, .greater, .greaterEqual,
   .equalNumber, .same, .head, .tail, .isNull, .list, .cons, .append, .length,
   .print, .str, .describeScope]

/-- The name a native procedure is bound to. -/
def name : Native → String
  | .plus => "+"
  | .minus => "-"
  | .times => "*"
  | .divide => "/"
  | .less => "<"
  | .lessEqual => "<="
  | .greater => ">"
  | .greaterEqual => ">="
  | .equalNumber => "="
  | .same => "=="
  | .head => "head"
  | .tail => "tail"
  | .isNull => "null?"
  | .list => "list"
  | .cons => "cons"
  | .append => "append"
  | .length => "length"
  | .print => "print"
  | .str => "str"
  | .describeScope => "env-str"

end Native

namespace ScopeNative

/-- Every scope-aware native procedure. -/
def all : List ScopeNative := [.currentScope]

/-- The name a scope-aware native procedure is bound to. -/
def name : ScopeNative → String
  | .currentScope => "env"

end ScopeNative

/-! ## Views of a value -/

namespace Value

/-- The name of the symbol that stands for truth. -/
def trueName : String := "#true"

/-- The name of the symbol that stands for falsehood. -/
def falseName : String := "#false"

/-- The name bound to the empty list. -/
def nilName : String := "#nil"

/-- The symbol that stands for a truth value. -/
def ofBool (b : Bool) : Value := .symbol (if b then trueName else falseName)

def kind : Value → Kind
  | .number _ => .number
  | .symbol _ => .symbol
  | .text _ => .text
  | .list _ => .list
  | .lambda _ => .lambda
  | .expander _ => .expander
  | .native _ => .native
  | .scopeNative _ => .scopeNative
  | .scope _ => .scope

/-- Only `#false` is false, spelt as a symbol or as a string. -/
def isTruthy : Value → Bool
  | .symbol s => s != falseName
  | .text s => s != falseName
  | _ => true

def number? : Value → Option Int64
  | .number n => some n
  | _ => none

def symbol? : Value → Option String
  | .symbol s => some s
  | _ => none

/-- The list behind a value: its own, or the defining form of a closure. -/
def list? : Value → Option ListRef
  | .list r => some r
  | .lambda c => some c.form
  | .expander c => some c.form
  | _ => none

/-- The scope carried by a value: a scope handle's own, or a closure's. -/
def scope? : Value → Option ScopeRef
  | .scope s => some s
  | .lambda c => some c.scope
  | .expander c => some c.scope
  | _ => none

/-- The integer that machine branches look at: a number itself, `#true` as one,
anything else as zero. -/
def toInt : Value → Int64
  | .number n => n
  | .symbol s => if s == trueName then 1 else 0
  | _ => 0

/-- The text of an atom. -/
def atomText? : Value → Option String
  | .number n => some (toString n.toInt)
  | .symbol s => some s
  | .text s => some s
  | _ => none

/-- The text by which a value serves as a name in a scope. -/
def keyText? : Value → Option String
  | .symbol s => some s
  | .text s => some s
  | _ => none

end Value

end LispEngines
