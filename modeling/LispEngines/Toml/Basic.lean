/-!
# TOML values

What a TOML document says.  Tables remember how they came about, because the format
forbids to add to a table in another way than it was begun: a table written in
braces is closed, a table with a header may not get a second one, and keys with dots
may extend only tables that such keys began.
-/

namespace LispEngines

/-- How a table came about. -/
inductive TableKind where
  /-- Written in braces. -/
  | inline
  /-- By a header of its own. -/
  | headed
  /-- On the way to the table of a longer header. -/
  | implied
  /-- On the way of a key with dots. -/
  | dotted
  deriving DecidableEq, Repr

/-- A TOML value. -/
inductive Toml where
  | text (s : String)
  | integer (n : Int64)
  | real (x : Float)
  | boolean (b : Bool)
  /-- A date, a time or both, in the format's own notation. -/
  | moment (s : String)
  | array (items : List Toml)
  | table (kind : TableKind) (entries : List (String × Toml))
  /-- An array of tables with headers of their own, latest first. -/
  | tables (latestFirst : List (List (String × Toml)))
  deriving Repr, Inhabited

namespace Toml

/-- The members of a table. -/
abbrev Entries := List (String × Toml)

/-- Whether a character may stand in a text or a comment as it is. -/
def isPlain (c : Char) : Bool := c = '\t' || (0x20 ≤ c.toNat && c.toNat ≠ 0x7f)

/-- A blank within a line. -/
def isGap (c : Char) : Bool := c = ' ' || c = '\t'

def skipGap (cs : List Char) : List Char := cs.dropWhile isGap

/-- What follows the end of line at the front. -/
def afterNewline? : List Char → Option (List Char)
  | '\n' :: cs => some cs
  | '\r' :: '\n' :: cs => some cs
  | _ => none

/-- What follows a comment, if one begins here. -/
def skipComment : List Char → List Char
  | '#' :: cs => cs.dropWhile isPlain
  | cs => cs

end Toml

end LispEngines
