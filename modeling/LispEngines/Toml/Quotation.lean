import LispEngines.Toml.Basic

/-!
# Quoted text in TOML

The format has four ways to quote a text.  Double quotes allow escapes and single
quotes do not; three quotes instead of one allow the text to go on over several
lines.  The readers start behind the opening quotes and return what follows the
closing ones.
-/

namespace LispEngines.Toml

/-- The value of a digit in base sixteen. -/
def hexDigit? (c : Char) : Option Nat :=
  if '0' ≤ c ∧ c ≤ '9' then some (c.toNat - '0'.toNat)
  else if 'a' ≤ c ∧ c ≤ 'f' then some (c.toNat - 'a'.toNat + 10)
  else if 'A' ≤ c ∧ c ≤ 'F' then some (c.toNat - 'A'.toNat + 10)
  else none

/-- The character with a number given by digits in base sixteen. -/
def charOfHex? (digits : List Char) : Option Char := do
  let n ← digits.foldlM (fun n c => (hexDigit? c).map (16 * n + ·)) 0
  if h : n.isValidChar then some ⟨UInt32.ofNat n, by
    have hn : n < UInt32.size := by
      rcases h with h | h
      · exact Nat.lt_trans h (by decide)
      · exact Nat.lt_trans h.2 (by decide)
    simpa [UInt32.isValidChar, UInt32.toNat_ofNat_of_lt' hn] using h⟩
  else none

/-- The character that a letter after a backslash stands for. -/
def shortEscape? : Char → Option Char
  | 'b' => some '\x08'
  | 't' => some '\t'
  | 'n' => some '\n'
  | 'f' => some '\x0c'
  | 'r' => some '\r'
  | '"' => some '"'
  | '\\' => some '\\'
  | _ => none

/-- Read an escape, from behind its backslash. -/
def escape? : List Char → Option (Char × List Char)
  | 'u' :: cs => if cs.length < 4 then none else
    (charOfHex? (cs.take 4)).map fun c => (c, cs.drop 4)
  | 'U' :: cs => if cs.length < 8 then none else
    (charOfHex? (cs.take 8)).map fun c => (c, cs.drop 8)
  | c :: cs => (shortEscape? c).map fun e => (e, cs)
  | [] => none

/-- The rest behind a double-quoted text of one line.  `sofar` is the text read so
far, last character first. -/
def basic? : (fuel : Nat) → (sofar : List Char) → List Char → Option (String × List Char)
  | 0, _, _ => none
  | fuel + 1, sofar, cs =>
    match cs with
    | '"' :: cs => some (String.ofList sofar.reverse, cs)
    | '\\' :: cs => do
      let (c, cs) ← escape? cs
      basic? fuel (c :: sofar) cs
    | c :: cs => if isPlain c then basic? fuel (c :: sofar) cs else none
    | [] => none

/-- Read a single-quoted text of one line. -/
def literal? (cs : List Char) : Option (String × List Char) :=
  let plain (c : Char) : Bool := isPlain c && c ≠ '\''
  match cs.dropWhile plain with
  | '\'' :: rest => some (String.ofList (cs.takeWhile plain), rest)
  | _ => none

/-- Close a text of several lines at a run of quotes of which three close it; up to
two more belong to the text. -/
def closing? (quote : Char) (sofar cs : List Char) : Option (String × List Char) :=
  let run := (cs.takeWhile (· = quote)).length
  if run < 3 then none
  else
    let kept := min (run - 3) 2
    some (String.ofList (List.replicate kept quote ++ sofar).reverse, cs.drop (kept + 3))

/-- Whether a backslash at the end of a line stands here, so that the text goes on
at the next character that is no blank. -/
def lineJoint? (cs : List Char) : Option (List Char) :=
  (afterNewline? (skipGap cs)).map fun rest =>
    rest.dropWhile fun c => isGap c || c = '\n' || c = '\r'

/-- Read a text of several lines.  Escapes count if `escapes` is set. -/
def multiline? (quote : Char) (escapes : Bool) :
    (fuel : Nat) → (sofar : List Char) → List Char → Option (String × List Char)
  | 0, _, _ => none
  | fuel + 1, sofar, cs =>
    match closing? quote sofar cs with
    | some r => some r
    | none =>
      match afterNewline? cs with
      | some rest => multiline? quote escapes fuel ('\n' :: sofar) rest
      | none =>
        match cs with
        | [] => none
        | c :: rest =>
          if escapes ∧ c = '\\' then
            match lineJoint? rest with
            | some rest => multiline? quote escapes fuel sofar rest
            | none => do
              let (e, rest) ← escape? rest
              multiline? quote escapes fuel (e :: sofar) rest
          else if isPlain c then multiline? quote escapes fuel (c :: sofar) rest
          else none

/-- Read a quoted text of one line. -/
def lineText? (cs : List Char) : Option (String × List Char) :=
  match cs with
  | '"' :: cs => basic? (cs.length + 1) [] cs
  | '\'' :: cs => literal? cs
  | _ => none

/-- Read a quoted text.  An end of line directly behind three opening quotes does
not count. -/
def text? (cs : List Char) : Option (String × List Char) :=
  match cs with
  | '"' :: '"' :: '"' :: cs =>
    multiline? '"' true (cs.length + 1) [] ((afterNewline? cs).getD cs)
  | '\'' :: '\'' :: '\'' :: cs =>
    multiline? '\'' false (cs.length + 1) [] ((afterNewline? cs).getD cs)
  | cs => lineText? cs

end LispEngines.Toml
