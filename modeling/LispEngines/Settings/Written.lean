import LispEngines.Settings.Basic

/-!
# Settings as a TOML document

Settings are shown as the document that would set them.  A text stands in double
quotes if it needs no escapes but tabs, and otherwise in the quotes that need the
fewest: single quotes, then double or single quotes over several lines, and only
then double quotes with escapes.
-/

namespace LispEngines

namespace Toml

/-- What about a text decides how it is quoted. -/
structure Quoting where
  /-- Whether it has control characters other than tabs and ends of lines. -/
  controls : Bool
  backslashes : Bool
  newlines : Bool
  /-- The length of the longest run of double quotes, and of single quotes. -/
  doubles : Nat
  singles : Nat

/-- The length of the longest run of a character. -/
def longestRun (c : Char) : (current longest : Nat) → List Char → Nat
  | _, longest, [] => longest
  | current, longest, x :: xs =>
    if x = c then longestRun c (current + 1) (max longest (current + 1)) xs
    else longestRun c 0 longest xs

def Quoting.of (cs : List Char) : Quoting :=
  { controls := cs.any fun c => !isPlain c && c ≠ '\n'
    backslashes := cs.contains '\\'
    newlines := cs.contains '\n'
    doubles := longestRun '"' 0 0 cs
    singles := longestRun '\'' 0 0 cs }

/-- A number in base sixteen with four digits. -/
def fourHex (n : Nat) : List Char :=
  let ds := (Nat.toDigits 16 n).map Char.toUpper
  List.replicate (4 - ds.length) '0' ++ ds

/-- A text inside double quotes.  Over several lines, ends of lines and up to two
double quotes in a row stand for themselves. -/
def escaped (severalLines : Bool) : (quotes : Nat) → List Char → List Char
  | _, [] => []
  | quotes, c :: cs =>
    if c = '"' then
      if severalLines ∧ quotes < 2 then c :: escaped severalLines (quotes + 1) cs
      else '\\' :: '"' :: escaped severalLines 0 cs
    else
      let spelt : List Char :=
        if c = '\x08' then ['\\', 'b']
        else if c = '\t' then ['\\', 't']
        else if c = '\n' then if severalLines then [c] else ['\\', 'n']
        else if c = '\x0c' then ['\\', 'f']
        else if c = '\r' then ['\\', 'r']
        else if c = '\\' then ['\\', '\\']
        else if isPlain c then [c]
        else '\\' :: 'u' :: fourHex c.toNat
      spelt ++ escaped severalLines 0 cs

/-- A text as it is written in a document. -/
def written (s : String) : String :=
  let cs := s.toList
  let q := Quoting.of cs
  let start := if q.newlines then ['\n'] else []
  let fence := ['"', '"', '"']
  let single := ['\'', '\'', '\'']
  let oneLine := '"' :: escaped false 0 cs ++ ['"']
  let manyLines := fence ++ start ++ escaped true 0 cs ++ fence
  String.ofList <|
    if !q.controls && !q.backslashes && q.doubles == 0 && !q.newlines then oneLine
    else if !q.controls && q.singles == 0 && !q.newlines then '\'' :: cs ++ ['\'']
    else if !q.controls && !q.backslashes && q.doubles ≤ 2 then manyLines
    else if !q.controls && q.singles ≤ 2 then single ++ start ++ cs ++ single
    else if q.newlines then manyLines
    else oneLine

end Toml

namespace Settings

-- Powers are those of the core library, whatever else is in scope.
attribute [local instance (2000)] instPowNat

/-- A section of the document. -/
def sectionText (name : String) (members : List (String × String)) : String :=
  "[" ++ name ++ "]\n" ++ String.join (members.map fun (k, v) => k ++ " = " ++ v ++ "\n")

/-- The text of the document. -/
def documentText (s : Settings) : String :=
  "\n".intercalate [
    sectionText "engine" [
      ("evaluator", Toml.written s.engine.evaluator.name),
      ("debug", toString s.engine.debug),
      ("timing", toString s.engine.timing),
      ("max_depth", toString s.engine.maxDepth)],
    sectionText "vm" <|
      [("stack_size", toString s.machine.stackSize)] ++
      (s.machine.program.map fun p => ("program", Toml.written p)).toList ++
      [("entry", Toml.written s.machine.entry)],
    sectionText "scheduler" [
      ("quantum", toString s.schedule.quantum),
      ("default_priority", toString s.schedule.defaultPriority.toInt),
      ("idle_sleep_ms", toString s.schedule.idleSleep)]]

/-- The numbers among the settings that have no sign. -/
def naturals (s : Settings) : List Nat :=
  [s.engine.maxDepth, s.machine.stackSize, s.schedule.quantum, s.schedule.idleSleep]

/-- The settings as a document.  A document has only numbers of 64 bits with a sign, so
a larger one cannot be written. -/
def toToml (s : Settings) : Except SettingsError String :=
  if s.naturals.all (· < 2 ^ (63 : Nat)) then .ok s.documentText else .error .unwritable

end Settings

end LispEngines
