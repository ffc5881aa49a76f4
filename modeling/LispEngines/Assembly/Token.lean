import LispEngines.Text.Blank

/-!
# Assembly tokens

Assembly text is a sequence of words and strings.  Blanks end a word and so does a
semicolon, which starts a comment that runs to the end of the line.  A backslash
takes the next character into the word, whatever it is.  A double quote starts a
string only where no word has begun; inside a string a backslash takes the next
character as it is.

Words remember a line for messages, a string the line on which it starts.  The
line of a word is the one on which the character that ends it stands.  A newline
that a backslash takes into a string is not counted.
-/

namespace LispEngines

/-- Why assembly text is refused. -/
inductive AssembleError where
  | duplicateLabel (name : String)
  | labelNotFound (name : String)
  | malformedOperand (word : String)
  | unterminatedString (line : Nat)
  | incompleteDefine (line : Nat)
  deriving DecidableEq, Repr

namespace AssembleError

/-- The wording of an assembly error. -/
def message : AssembleError → String
  | .duplicateLabel name => "duplicate label '" ++ name ++ "'"
  | .labelNotFound name => "label not found: '" ++ name ++ "'"
  | .malformedOperand word => "malformed operand '" ++ word ++ "'"
  | .unterminatedString line => "unterminated string starting on line " ++ toString line
  | .incompleteDefine line =>
    "'!define' on line " ++ toString line ++ " needs a name and a value"

end AssembleError

namespace Assembly

/-- A token, its escapes resolved. -/
inductive Token where
  | word (content : String) (line : Nat)
  | text (content : String)
  deriving DecidableEq, Repr

/-- What a token says, whether it is a word or a string. -/
def Token.content : Token → String
  | .word s _ => s
  | .text s => s

/-- Where in a token the tokenizer is. -/
inductive Mode where
  /-- In a word, or between tokens if the word is empty so far. -/
  | word
  /-- After a backslash outside strings. -/
  | wordEscape
  | comment
  /-- In a string that started on a line. -/
  | text (start : Nat)
  /-- After a backslash in a string. -/
  | textEscape (start : Nat)
  deriving DecidableEq, Repr

/-- The state of the tokenizer.  The characters of the unfinished token and the
tokens found are kept last first. -/
structure Tokenizer where
  mode : Mode := .word
  soFar : List Char := []
  line : Nat := 1
  found : List Token := []
  deriving DecidableEq, Repr

namespace Tokenizer

/-- End the current word, if there is one. -/
def flush (t : Tokenizer) : Tokenizer :=
  if t.soFar.isEmpty then t
  else { t with soFar := [], found := .word (String.ofList t.soFar.reverse) t.line :: t.found }

/-- Count a character if it is a newline. -/
def count (t : Tokenizer) (c : Char) : Tokenizer :=
  if c = '\n' then { t with line := t.line + 1 } else t

/-- Take a character into the current token. -/
def keep (t : Tokenizer) (c : Char) : Tokenizer := { t with soFar := c :: t.soFar }

/-- Take one more character. -/
def next (t : Tokenizer) (c : Char) : Tokenizer :=
  match t.mode with
  | .word =>
    if c = '\\' then { t with mode := .wordEscape }
    else if c = ';' then { t.flush with mode := .comment }
    else if c = '"' ∧ t.soFar = [] then { t with mode := .text t.line }
    else if Text.isBlank c then t.flush.count c
    else t.keep c
  | .wordEscape => { (t.count c).keep c with mode := .word }
  | .comment => if c = '\n' then { t.count c with mode := .word } else t
  | .text start =>
    if c = '"' then
      { t with
        mode := .word
        soFar := []
        found := .text (String.ofList t.soFar.reverse) :: t.found }
    else if c = '\\' then { t with mode := .textEscape start }
    else (t.count c).keep c
  | .textEscape start => { t.keep c with mode := .text start }

/-- The tokens, if the text may end here. -/
def finish (t : Tokenizer) : Except AssembleError (List Token) :=
  match t.mode with
  | .text start | .textEscape start => .error (.unterminatedString start)
  | .word | .wordEscape | .comment => .ok t.flush.found.reverse

end Tokenizer

/-- The tokens of assembly text. -/
def tokens (source : List Char) : Except AssembleError (List Token) :=
  (source.foldl Tokenizer.next {}).finish

end Assembly

end LispEngines
