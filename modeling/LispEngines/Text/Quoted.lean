import LispEngines.Text.Unprintable

/-!
# Quoted text

A string shown for inspection stands between double quotes, with a backslash
before a double quote and before a backslash, short escapes for the common
controls, and every other unprintable character written by its number.
-/

namespace LispEngines.Text

/-- The digits of a number in base sixteen, in lower case. -/
def hexadecimal (n : Nat) : String := String.ofList (Nat.toDigits 16 n)

/-- One character inside quotes. -/
def quotedChar (c : Char) : String :=
  match c with
  | '\x00' => "\\0"
  | '\t' => "\\t"
  | '\r' => "\\r"
  | '\n' => "\\n"
  | '"' => "\\\""
  | '\\' => "\\\\"
  | c =>
    if isUnprintable c then "\\u\x7b" ++ hexadecimal c.toNat ++ "\x7d"
    else String.singleton c

/-- A text as it is shown for inspection. -/
def quoted (s : String) : String :=
  "\"" ++ String.join (s.toList.map quotedChar) ++ "\""

/-- A text between double quotes with a backslash before each double quote and
backslash, and nothing else changed. -/
def fenced (s : String) : String :=
  "\"" ++ String.join (s.toList.map fun c =>
    if c = '"' ∨ c = '\\' then String.ofList ['\\', c] else String.singleton c) ++ "\""

end LispEngines.Text
