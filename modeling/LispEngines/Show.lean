import LispEngines.Store
import LispEngines.Text.Quoted

/-!
# The text of a value

A value has three texts.  `show` is what `print` writes: strings appear bare, so
the text does not tell a string from a symbol.  `inspect` is the same except that
a string at the top stands in quotes and natives give their name.  `outline`
tells every sort of value apart and is meant for tests.

A list is an address, so its text depends on the store.  Reading through the
store is bounded by its number of lists: along a path that meets no list twice in
the same role, that is enough.  A program of the machine can put a list into
itself.  The text of such a list has no end, and the empty text stands for it.
-/

namespace LispEngines

namespace Closure

/-- A part of the defining form; `none` if the form is too short. -/
def part? (c : Closure) (st : Store) (i : Nat) : Option Value := (st.items c.form)[i]?

end Closure

namespace Value

/-- A sequence of texts with blanks between them. -/
def spaced (texts : List String) : String := " ".intercalate texts

/-! ## The printed text -/

/-- The printed text, following at most `fuel` nested lists. -/
def showWithin (st : Store) : (fuel : Nat) → Value → String
  | _, .number n => toString n.toInt
  | _, .symbol s => s
  | _, .text s => s
  | _, .native _ => "#Proc"
  | _, .scopeNative _ => "#ProcEnv"
  | _, .scope _ => "#Env"
  | 0, _ => ""
  | fuel + 1, .list r => "(" ++ spaced ((st.items r).map (showWithin st fuel)) ++ ")"
  | fuel + 1, .lambda c =>
    "#Lambda(" ++ part fuel (c.part? st 1) ++ " " ++ part fuel (c.part? st 2) ++ ")"
  | fuel + 1, .expander c =>
    "#Macro(" ++ part fuel (c.part? st 1) ++ " " ++ part fuel (c.part? st 2) ++ ")"
where
  part (fuel : Nat) : Option Value → String
    | some v => showWithin st fuel v
    | none => "()"

/-- The values whose texts are parts of the text of a value. -/
def nested (v : Value) (st : Store) : List Value :=
  match v with
  | .list r => st.items r
  | .lambda c | .expander c => ((st.items c.form).drop 1).take 2
  | _ => []

/-- Whether a text goes through at most `fuel` nested lists. -/
def endsWithin (st : Store) : (fuel : Nat) → Value → Bool
  | 0, v => v.list?.isNone
  | fuel + 1, v => (v.nested st).all (endsWithin st fuel)

/-- How many nested lists a text may go through: each as a list and as the form of a
closure. -/
def depthBound (st : Store) : Nat := 2 * st.lists.size + 1

/-- The printed text of a value. -/
def shown (v : Value) (st : Store) : String :=
  if endsWithin st (depthBound st) v then showWithin st (depthBound st) v else ""

/-- The text of a value for inspection. -/
def inspected (v : Value) (st : Store) : String :=
  match v with
  | .text s => Text.quoted s
  | .native p => "#Proc<" ++ p.name ++ ">"
  | .scopeNative p => "#ProcEnv<" ++ p.name ++ ">"
  | v => v.shown st

/-! ## The outline -/

/-- The outline, following at most `fuel` nested lists. -/
def outlineWithin (st : Store) : (fuel : Nat) → Value → String
  | _, .number n => toString n.toInt
  | _, .symbol s => "y" ++ Text.fenced s
  | _, .text s => "s" ++ Text.fenced s
  | _, .native p => "#proc<" ++ p.name ++ ">"
  | _, .scopeNative p => "#procenv<" ++ p.name ++ ">"
  | _, .scope _ => "#env"
  | 0, _ => ""
  | fuel + 1, .list r => "[" ++ spaced ((st.items r).map (outlineWithin st fuel)) ++ "]"
  | fuel + 1, .lambda c =>
    "#lambda\x7b" ++ part fuel (c.part? st 1) ++ " " ++ part fuel (c.part? st 2) ++ "\x7d"
  | fuel + 1, .expander c =>
    "#macro\x7b" ++ part fuel (c.part? st 1) ++ " " ++ part fuel (c.part? st 2) ++ "\x7d"
where
  part (fuel : Nat) : Option Value → String
    | some v => outlineWithin st fuel v
    | none => "[]"

/-- The outline of a value. -/
def outline (v : Value) (st : Store) : String := outlineWithin st (depthBound st) v

end Value

end LispEngines
