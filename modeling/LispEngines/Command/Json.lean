/-!
# Reports as JSON

Reports can be printed as JSON, laid out with two blanks for each level.  The members
of an object keep the order in which they are given.
-/

namespace LispEngines.Command

/-- A JSON value. -/
inductive Json where
  | text (s : String)
  /-- A number, given by its digits. -/
  | number (digits : String)
  | array (items : List Json)
  | object (members : List (String × Json))
  deriving Repr

namespace Json

/-- A whole number. -/
def int (i : Int) : Json := .number (toString i)

def nat (n : Nat) : Json := .number (toString n)

/-- The digits of a number in base sixteen, at least four. -/
def fourDigits (n : Nat) : String :=
  let ds := Nat.toDigits 16 n
  String.ofList (List.replicate (4 - ds.length) '0' ++ ds)

/-- One character of a text. -/
def escapedChar (c : Char) : String :=
  if c = '"' then "\\\""
  else if c = '\\' then "\\\\"
  else if c = '\n' then "\\n"
  else if c = '\r' then "\\r"
  else if c = '\t' then "\\t"
  else if c = '\x08' then "\\b"
  else if c = '\x0c' then "\\f"
  else if c.toNat < 0x20 then "\\u" ++ fourDigits c.toNat
  else String.singleton c

def quoted (s : String) : String := "\"" ++ String.join (s.toList.map escapedChar) ++ "\""

/-- The blanks in front of a line at a level. -/
def indent (level : Nat) : String := String.ofList (List.replicate (2 * level) ' ')

/-- Parts between brackets, each on a line of its own at the level inside. -/
def enclosed (level : Nat) (left right : String) (parts : List String) : String :=
  if parts.isEmpty then left ++ right
  else left ++ "\n" ++ ",\n".intercalate (parts.map (indent (level + 1) ++ ·)) ++ "\n" ++
    indent level ++ right

mutual

/-- The text of a value that begins on a line of a level. -/
def render (level : Nat) : Json → String
  | .text s => quoted s
  | .number ds => ds
  | .array xs => enclosed level "[" "]" (renderItems (level + 1) xs)
  | .object ms => enclosed level "\x7b" "\x7d" (renderMembers (level + 1) ms)

def renderItems (level : Nat) : List Json → List String
  | [] => []
  | x :: xs => render level x :: renderItems level xs

def renderMembers (level : Nat) : List (String × Json) → List String
  | [] => []
  | (name, x) :: ms => (quoted name ++ ": " ++ render level x) :: renderMembers level ms

end

end Json

end LispEngines.Command
