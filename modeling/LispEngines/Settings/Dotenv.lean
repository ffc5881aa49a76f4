import LispEngines.Text.Affix
import LispEngines.Text.Blank

/-!
# Files of variables

A file of variables has lines `NAME=value`.  A line may begin with `export`, and
blank lines and lines that begin with `#` say nothing.  A value may hold quotes,
escapes with a backslash and references `$NAME` to other variables; unquoted blanks
end it, and only a comment may follow.  A quoted part may go on over several lines.

Reading stops at the first line that is wrong; what stands before it counts.
-/

namespace LispEngines.Dotenv

/-- Variables with their values. -/
abbrev Variables := List (String × String)

/-- The value of a variable, or nothing. -/
def valueOf (vs : Variables) (name : String) : List Char := ((vs.lookup name).getD "").toList

/-- Set a variable unless it is set. -/
def setIfUnset (vs : Variables) (name text : String) : Variables :=
  if (vs.lookup name).isSome then vs else vs ++ [(name, text)]

/-! ## Lines -/

/-- Where in a line a quotation or a comment can begin or end. -/
inductive LineState where
  | bare | blank | escape
  | single | singleEscape
  | double | doubleEscape
  deriving DecidableEq, Repr

/-- The state after one more character; `none` where a comment begins. -/
def LineState.next (c : Char) : LineState → Option LineState
  | .bare =>
    some <| if Text.isBlank c && c ≠ '\n' && c ≠ '\r' then .blank
      else if c = '\\' then .escape
      else if c = '"' then .double
      else if c = '\'' then .single
      else .bare
  | .blank =>
    if c = '#' then none
    else some <| if c = '\\' then .escape
      else if c = '"' then .double
      else if c = '\'' then .single
      else .bare
  | .escape => some .bare
  | .double =>
    some <| if c = '\\' then .doubleEscape else if c = '"' then .bare else .double
  | .doubleEscape => some .double
  | .single =>
    some <| if c = '\\' then .singleEscape else if c = '\'' then .bare else .single
  | .singleEscape => some .single

/-- The part of a line in front of a comment, and the state at its end; `none` if a
comment began. -/
def scan (state : LineState) : List Char → List Char × Option LineState
  | [] => ([], some state)
  | c :: cs =>
    match state.next c with
    | none => ([], none)
    | some state =>
      let (kept, final) := scan state cs
      (c :: kept, final)

/-- The physical line at the front, with its end. -/
def physicalLine (cs : List Char) : List Char × List Char :=
  match cs.dropWhile (· ≠ '\n') with
  | [] => (cs, [])
  | _ :: rest => (cs.takeWhile (· ≠ '\n') ++ ['\n'], rest)

/-- A line without its end. -/
def withoutEnd (line : List Char) : List Char :=
  match line.reverse with
  | '\n' :: '\r' :: cs => cs.reverse
  | '\n' :: cs => cs.reverse
  | _ => line

/-- Read a logical line, which goes on while a quotation or an escape is open.  The
result is `none` if the text ends inside it. -/
def logicalLine? : (fuel : Nat) → LineState → (sofar : List Char) → List Char →
    Option (List Char × List Char)
  | 0, _, _, _ => none
  | fuel + 1, state, sofar, cs =>
    if cs.isEmpty then none
    else
      let (line, rest) := physicalLine cs
      let whole := sofar ++ line
      if (whole.dropWhile Text.isBlank).head? = some '#' then some ([], rest)
      else
        match scan state line with
        | (kept, none) => some (sofar ++ kept, rest)
        | (_, some .bare) => some (withoutEnd whole, rest)
        | (_, some state) => logicalLine? fuel state whole rest

/-! ## Values -/

/-- Where in a value the reader is. -/
inductive ValueState where
  | plain
  | single
  | double
  /-- Behind an unquoted blank: only blanks and a comment may follow. -/
  | done
  | escape (quoted : Bool)
  /-- In a reference `$NAME`, the name last character first. -/
  | reference (quoted : Bool) (name : List Char)
  /-- In a reference with braces. -/
  | braced (quoted : Bool) (name : List Char)
  deriving DecidableEq, Repr

/-- The state inside or outside of double quotes. -/
def resting (quoted : Bool) : ValueState := if quoted then .double else .plain

/-- A character that an escape stands for. -/
def escaped? (c : Char) : Option Char :=
  if c = 'n' then some '\n'
  else if c = '\\' ∨ c = '\'' ∨ c = '"' ∨ c = '$' ∨ c = ' ' then some c
  else none

/-- Whether a character belongs to the name of a reference. -/
def isReferenceChar (c : Char) : Bool := c.isAlphanum

/-- Read a value.  `sofar` is what it is so far, last character first. -/
def value? (known : Variables) : ValueState → (sofar : List Char) → List Char →
    Option (List Char)
  | .plain, sofar, [] => some sofar.reverse
  | .done, sofar, [] => some sofar.reverse
  | .escape false, sofar, [] => some sofar.reverse
  | .reference false name, sofar, [] =>
    some (sofar.reverse ++ valueOf known (String.ofList name.reverse))
  | _, _, [] => none
  | .done, sofar, c :: cs =>
    if c = ' ' ∨ c = '\t' then value? known .done sofar cs
    else if c = '#' then some sofar.reverse
    else none
  | .escape quoted, sofar, c :: cs => do
    value? known (resting quoted) ((← escaped? c) :: sofar) cs
  | .single, sofar, c :: cs =>
    if c = '\'' then value? known .plain sofar cs else value? known .single (c :: sofar) cs
  | .reference quoted name, sofar, c :: cs =>
    if isReferenceChar c then value? known (.reference quoted (c :: name)) sofar cs
    else if c = '\x7b' ∧ name.isEmpty then value? known (.braced quoted []) sofar cs
    else
      let sofar := (valueOf known (String.ofList name.reverse)).reverse ++ sofar
      if c = '$' then value? known (.reference quoted []) sofar cs
      else value? known (resting quoted) (c :: sofar) cs
  | .braced quoted name, sofar, c :: cs =>
    if c = '\x7d' then
      value? known (resting quoted)
        ((valueOf known (String.ofList name.reverse)).reverse ++ sofar) cs
    else value? known (.braced quoted (c :: name)) sofar cs
  | .double, sofar, c :: cs =>
    if c = '$' then value? known (.reference true []) sofar cs
    else if c = '"' then value? known .plain sofar cs
    else if c = '\\' then value? known (.escape true) sofar cs
    else value? known .double (c :: sofar) cs
  | .plain, sofar, c :: cs =>
    if c = '$' then value? known (.reference false []) sofar cs
    else if c = '\'' then value? known .single sofar cs
    else if c = '"' then value? known .double sofar cs
    else if c = '\\' then value? known (.escape false) sofar cs
    else if c = ' ' ∨ c = '\t' then value? known .done sofar cs
    else value? known .plain (c :: sofar) cs

/-! ## Assignments -/

/-- Read a name. -/
def name? (cs : List Char) : Option (String × List Char) :=
  match cs with
  | c :: _ =>
    if c.isAlpha ∨ c = '_' then
      let isNameChar (c : Char) : Bool := c.isAlphanum || c = '_' || c = '.'
      some (String.ofList (cs.takeWhile isNameChar), cs.dropWhile isNameChar)
    else none
  | [] => none

def skipBlank (cs : List Char) : List Char := cs.dropWhile Text.isBlank

/-- Read the name of an assignment and its equality sign. -/
def target? (cs : List Char) : Option (String × List Char) := do
  let (name, cs) ← name? (skipBlank cs)
  match skipBlank cs with
  | '=' :: cs => return (name, cs)
  | cs =>
    if name = "export" then
      let (name, cs) ← name? cs
      return (name, ← Text.afterLead? ['='] (skipBlank cs))
    else none

/-- What a line does: `none` if it is wrong, and `some none` if it says nothing. -/
def line? (known : Variables) (cs : List Char) : Option (Option (String × String)) :=
  let isOver (cs : List Char) : Bool := cs.isEmpty || cs.head? = some '#'
  if isOver (skipBlank cs) then some none
  else do
    let (name, cs) ← target? cs
    let cs := skipBlank cs
    if isOver cs then return some (name, "")
    else return some (name, String.ofList (← value? known .plain [] cs))

/-- Read lines, each seeing the variables set before. -/
def lines : (fuel : Nat) → Variables → List Char → Variables
  | 0, vs, _ => vs
  | fuel + 1, vs, cs =>
    match logicalLine? (cs.length + 1) .bare [] cs with
    | none => vs
    | some (line, rest) =>
      match line? vs line with
      | none => vs
      | some none => lines fuel vs rest
      | some (some (name, text)) => lines fuel (setIfUnset vs name text) rest

/-- The variables with those of a file added.  A file does not change a variable
that is set, be it from outside or by an earlier line. -/
def load (vs : Variables) (file : String) : Variables :=
  let cs := match file.toList with
    | '\ufeff' :: cs => cs
    | cs => cs
  lines (cs.length + 1) vs cs

end LispEngines.Dotenv
