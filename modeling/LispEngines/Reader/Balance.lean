/-!
# Balanced parentheses

Before a source is read, its parentheses are counted, so that the commonest
mistake gets a message of its own with a line number.  Parentheses inside strings
and comments do not count.  The count is a fold over the characters with four
regions of text; a backslash inside a string hides the character after it from
the count entirely, newlines included.
-/

namespace LispEngines

/-- Why a source cannot be read. -/
inductive ReadError where
  /-- A closing parenthesis without an open one before it. -/
  | unexpectedClose (line : Nat)
  /-- Parentheses still open at the end. -/
  | unclosed (count : Nat)
  /-- A string without its closing quote. -/
  | unterminated
  /-- Nothing to read. -/
  | empty
  /-- A numeral that does not fit into 64 bits. -/
  | outOfRange (numeral : String)
  deriving DecidableEq, Repr

namespace ReadError

/-- The wording of a reading error. -/
def message : ReadError → String
  | .unexpectedClose line =>
    "unbalanced parenthesis: unexpected ')' on line " ++ toString line
  | .unclosed count => "unbalanced parenthesis: " ++ toString count ++ " unclosed '('"
  | .unterminated => "syntax error: unterminated string"
  | .empty => "no expression to read"
  | .outOfRange numeral => "number out of range: " ++ numeral

end ReadError

namespace Reader

/-- The region of a source that a character is in. -/
inductive Region where
  | code
  | comment
  | quoted
  /-- Just after a backslash in a string. -/
  | escaped
  deriving DecidableEq, Repr

/-- What the count knows after some characters. -/
structure Balance where
  region : Region := .code
  depth : Nat := 0
  line : Nat := 1
  deriving DecidableEq, Repr

namespace Balance

/-- Count one more character. -/
def next (b : Balance) (c : Char) : Except ReadError Balance :=
  match b.region with
  | .code =>
    match c with
    | '\n' => .ok { b with line := b.line + 1 }
    | ';' => .ok { b with region := .comment }
    | '"' => .ok { b with region := .quoted }
    | '(' => .ok { b with depth := b.depth + 1 }
    | ')' =>
      match b.depth with
      | 0 => .error (.unexpectedClose b.line)
      | depth + 1 => .ok { b with depth }
    | _ => .ok b
  | .comment =>
    if c = '\n' then .ok { b with region := .code, line := b.line + 1 } else .ok b
  | .quoted =>
    match c with
    | '\\' => .ok { b with region := .escaped }
    | '"' => .ok { b with region := .code }
    | '\n' => .ok { b with line := b.line + 1 }
    | _ => .ok b
  | .escaped => .ok { b with region := .quoted }

end Balance

/-- Check that every parenthesis of a source has its partner. -/
def checkBalance (source : List Char) : Except ReadError Unit := do
  let b ← source.foldlM Balance.next {}
  if b.depth = 0 then pure () else throw (.unclosed b.depth)

end Reader

end LispEngines
