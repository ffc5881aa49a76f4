import LispEngines.Reader.Balance

/-!
# Lexemes

A source is a sequence of parentheses, quoted strings and words.  A word is a
longest run of characters other than blanks, parentheses, double quotes and
semicolons; nothing has to stand between a word and a string, or between two
strings.  A semicolon starts a comment that runs to the end of the line.

The lexer is a fold over the characters, so cutting a source in two and lexing
the halves one after the other is the same as lexing the whole.
-/

namespace LispEngines.Reader

/-- A lexeme, strings with their escapes resolved. -/
inductive Lexeme where
  | opening
  | closing
  | quoted (content : String)
  | word (spelling : String)
  deriving DecidableEq, Repr

/-- The characters that separate lexemes and are otherwise ignored. -/
def isGap (c : Char) : Bool := c = ' ' || c = '\t' || c = '\r' || c = '\n'

/-- The characters of which words consist. -/
def isWordChar (c : Char) : Bool :=
  !(isGap c || c = '(' || c = ')' || c = '"' || c = ';')

/-- The character that a backslash and `c` denote inside a string. -/
def unescaped (c : Char) : Char :=
  match c with
  | 'n' => '\n'
  | 't' => '\t'
  | c => c

/-- Where in a lexeme the lexer is.  Characters of an unfinished lexeme are kept
last first. -/
inductive Mode where
  | between
  | comment
  | word (soFar : List Char)
  | quoted (soFar : List Char)
  | escaped (soFar : List Char)
  deriving DecidableEq, Repr

/-- The state of the lexer: its mode, and the lexemes found, last first. -/
structure Lexer where
  mode : Mode := .between
  found : List Lexeme := []
  deriving DecidableEq, Repr

/-- Characters kept last first, as a text. -/
def spelling (soFar : List Char) : String := String.ofList soFar.reverse

namespace Lexer

/-- Take a character that does not continue a lexeme. -/
def start (found : List Lexeme) (c : Char) : Lexer :=
  if isGap c then ⟨.between, found⟩
  else match c with
    | '(' => ⟨.between, .opening :: found⟩
    | ')' => ⟨.between, .closing :: found⟩
    | '"' => ⟨.quoted [], found⟩
    | ';' => ⟨.comment, found⟩
    | c => ⟨.word [c], found⟩

/-- Take one more character. -/
def next (l : Lexer) (c : Char) : Lexer :=
  match l.mode with
  | .between => start l.found c
  | .comment => if c = '\n' then ⟨.between, l.found⟩ else l
  | .word soFar =>
    if isWordChar c then ⟨.word (c :: soFar), l.found⟩
    else start (.word (spelling soFar) :: l.found) c
  | .quoted soFar =>
    match c with
    | '"' => ⟨.between, .quoted (spelling soFar) :: l.found⟩
    | '\\' => ⟨.escaped soFar, l.found⟩
    | c => ⟨.quoted (c :: soFar), l.found⟩
  | .escaped soFar => ⟨.quoted (unescaped c :: soFar), l.found⟩

/-- The lexemes, if the source may end here. -/
def finish (l : Lexer) : Option (List Lexeme) :=
  match l.mode with
  | .between | .comment => some l.found.reverse
  | .word soFar => some (.word (spelling soFar) :: l.found).reverse
  | .quoted _ | .escaped _ => none

end Lexer

/-- The lexemes of a source; `none` if it ends inside a string. -/
def lexemes? (source : List Char) : Option (List Lexeme) :=
  (source.foldl Lexer.next {}).finish

end LispEngines.Reader
