import LispEngines.Action
import LispEngines.Reader.Lexeme
import LispEngines.Text.Decimal

/-!
# Reading forms

A form is what a source says before anything is allocated: a number, a symbol, a
string or a list of forms.  `Form.ofSource` reads all forms of a source, and
`Form.build` gives a form its place in the store.

A source is refused for one of four reasons, tried in this order: its parentheses
do not match, it ends inside a string, one of its numerals does not fit into 64
bits, or, where one form is asked for, it has none.
-/

namespace LispEngines

/-- A form as it is written. -/
inductive Form where
  | number (n : Int64)
  | symbol (name : String)
  | text (content : String)
  | list (items : List Form)
  deriving Repr, Inhabited

namespace Form

/-- Whether a word is spelt like an integer: an optional minus and digits. -/
def isNumeral (word : List Char) : Bool :=
  match word with
  | '-' :: cs => !cs.isEmpty && cs.all Char.isDigit
  | cs => !cs.isEmpty && cs.all Char.isDigit

/-- A word is a number if it is spelt like one, and a symbol otherwise. -/
def ofWord (word : String) : Except ReadError Form :=
  if isNumeral word.toList then
    match Text.int64? word with
    | some n => .ok (.number n)
    | none => .error (.outOfRange word)
  else .ok (.symbol word)

/-! ## Nesting -/

/-- Forms under construction: those of the innermost open list, and those of the
lists around it, each last first. -/
structure Nest where
  inner : List Form := []
  outer : List (List Form) := []

namespace Nest

/-- Add a finished form to the innermost open list. -/
def add (n : Nest) (f : Form) : Nest := { n with inner := f :: n.inner }

/-- Take one more lexeme.  A source that passed the count of parentheses has no
closing one too many. -/
def next (n : Nest) : Reader.Lexeme → Except ReadError Nest
  | .opening => .ok ⟨[], n.inner :: n.outer⟩
  | .closing =>
    match n.outer with
    | parent :: outer => .ok ⟨.list n.inner.reverse :: parent, outer⟩
    | [] => .error (.unexpectedClose 1)
  | .quoted s => .ok (n.add (.text s))
  | .word w => do return n.add (← ofWord w)

/-- The forms, if no list is open. -/
def finish (n : Nest) : Except ReadError (List Form) :=
  if n.outer.isEmpty then .ok n.inner.reverse else .error (.unclosed n.outer.length)

end Nest

/-- The forms that a sequence of lexemes spells. -/
def ofLexemes (ls : List Reader.Lexeme) : Except ReadError (List Form) := do
  (← ls.foldlM Nest.next {}).finish

/-- All forms of a source, in order. -/
def ofSource (source : String) : Except ReadError (List Form) := do
  let cs := source.toList
  Reader.checkBalance cs
  match Reader.lexemes? cs with
  | some ls => ofLexemes ls
  | none => throw .unterminated

/-- The first form of a source.  The rest of the source has to be readable
too. -/
def firstOfSource (source : String) : Except ReadError Form := do
  match ← ofSource source with
  | f :: _ => pure f
  | [] => throw .empty

/-! ## Allocation -/

mutual

/-- The value that a form denotes, its lists freshly allocated. -/
def build : Form → StateM Store Value
  | .number n => pure (.number n)
  | .symbol s => pure (.symbol s)
  | .text s => pure (.text s)
  | .list items => do
    let values ← buildAll items
    modifyGet fun st =>
      let (r, st) := st.newList values
      (.list r, st)

/-- The values that forms denote, from left to right. -/
def buildAll : List Form → StateM Store (List Value)
  | [] => pure []
  | f :: fs => do
    let v ← build f
    return v :: (← buildAll fs)

end

end Form

end LispEngines
