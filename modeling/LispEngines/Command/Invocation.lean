import LispEngines.Engine

/-!
# Invocations

How the program is called: options, then a verb, then the options and operands of the
verb.  A few options are common to all verbs and may stand on either side of the verb;
if both sides give one, the side behind the verb counts.

An option has a long name after two hyphens, and some have a letter after one; letters
may be joined.  A value follows in the next word or behind an equality sign, or
directly behind a letter.  A word of two hyphens ends the options, so that operands
may begin with one.

Words are read from left to right, and the first that is wrong, or that asks for
help, decides.
-/

namespace LispEngines.Command

/-- What the program is asked to do. -/
inductive Job where
  /-- Evaluate files in order in one scope. -/
  | run (files : List String)
  /-- Evaluate a source and print its value. -/
  | eval (source : String)
  | repl
  /-- Run the regression suite, on all engines or on the selected one. -/
  | test (all json : Bool)
  /-- Assemble a program and run it. -/
  | asm (file entry : String) (listing : Bool) (args : List String)
  /-- Run each file as a task of one scheduler. -/
  | schedule (files : List String) (json : Bool)
  /-- Measure a source on every engine. -/
  | bench (source : String) (iterations : Nat) (json : Bool)
  /-- Print the settings. -/
  | config
  deriving DecidableEq, Repr

/-- A call of the program. -/
structure Invocation where
  /-- The file of settings. -/
  path : Option String
  evaluator : Option Strategy
  debug : Bool
  timing : Bool
  job : Job
  deriving DecidableEq, Repr

/-- Why a call does nothing. -/
inductive Refusal where
  /-- It asks for help. -/
  | help
  /-- It does not have the form of a call. -/
  | misuse
  deriving DecidableEq, Repr

/-! ## Verbs and options -/

inductive Verb where
  | run | eval | repl | test | asm | schedule | bench | config
  deriving DecidableEq, Repr

def Verb.all : List Verb := [.run, .eval, .repl, .test, .asm, .schedule, .bench, .config]

def Verb.name : Verb → String
  | .run => "run"
  | .eval => "eval"
  | .repl => "repl"
  | .test => "test"
  | .asm => "asm"
  | .schedule => "schedule"
  | .bench => "bench"
  | .config => "config"

def Verb.ofName? (s : String) : Option Verb := Verb.all.find? (·.name == s)

/-- The least and the greatest number of operands. -/
def Verb.operandRange : Verb → Nat × Option Nat
  | .run | .asm | .schedule => (1, none)
  | .eval | .bench => (1, some 1)
  | .repl | .test | .config => (0, some 0)

/-- Whether the operand at a position is a path, which may not be empty. -/
def Verb.wantsPath (v : Verb) (position : Nat) : Bool :=
  match v with
  | .run | .schedule => true
  | .asm => position = 0
  | _ => false

inductive Opt where
  | config | evaluator | debug | timing | help
  | all | json | entry | listing | iterations
  deriving DecidableEq, Repr

namespace Opt

-- Powers are those of the core library, whatever else is in scope.
attribute [local instance (2000)] instPowNat

def longName : Opt → String
  | .config => "config"
  | .evaluator => "evaluator"
  | .debug => "debug"
  | .timing => "timing"
  | .help => "help"
  | .all => "all"
  | .json => "json"
  | .entry => "entry"
  | .listing => "listing"
  | .iterations => "iterations"

def letter? : Opt → Option Char
  | .evaluator => some 'E'
  | .debug => some 'd'
  | .timing => some 't'
  | .help => some 'h'
  | .iterations => some 'n'
  | _ => none

/-- Whether an option has a value. -/
def hasValue : Opt → Bool
  | .config | .evaluator | .entry | .iterations => true
  | _ => false

/-- The options that may stand behind a verb, or in front of it. -/
def available (place : Option Verb) : List Opt :=
  [.config, .evaluator, .debug, .timing, .help] ++
  match place with
  | some .test => [.all, .json]
  | some .asm => [.entry, .listing]
  | some .schedule => [.json]
  | some .bench => [.iterations, .json]
  | _ => []

/-- Whether a text is a value of an option. -/
def accepts (o : Opt) (v : String) : Bool :=
  match o with
  | .config => !v.isEmpty
  | .evaluator => (Strategy.ofName? v).isSome
  | .iterations => (Text.int64? v).any fun n => 0 ≤ n.toInt ∧ n.toInt < 2 ^ (32 : Nat)
  | _ => true

end Opt

/-! ## Reading words -/

/-- What the words on one side of the verb gave.  A flag has an empty value. -/
structure Given where
  options : List (Opt × String) := []
  operands : List String := []

namespace Given

def value? (g : Given) (o : Opt) : Option String := g.options.lookup o

def has (g : Given) (o : Opt) : Bool := (g.value? o).isSome

/-- Take an option.  None may be given twice on one side. -/
def setOption (g : Given) (o : Opt) (v : String) : Except Refusal Given :=
  if o = .help then .error .help
  else if g.has o || !o.accepts v then .error .misuse
  else .ok { g with options := g.options ++ [(o, v)] }

/-- Take an operand of a verb. -/
def addOperand (verb : Verb) (g : Given) (s : String) : Except Refusal Given :=
  let position := g.operands.length
  if (verb.operandRange.2.any (· ≤ position)) || (verb.wantsPath position && s.isEmpty) then
    .error .misuse
  else .ok { g with operands := g.operands ++ [s] }

/-- Take joined letters, behind their hyphen.  The result may be an option whose
value is still to come. -/
def setLetters (place : Option Verb) (g : Given) :
    List Char → Except Refusal (Given × Option Opt)
  | [] => .ok (g, none)
  | c :: cs => do
    match (Opt.available place).find? (·.letter? == some c) with
    | none => .error .misuse
    | some o =>
      if o.hasValue then
        match cs with
        | [] => return (g, some o)
        | '=' :: v => return (← g.setOption o (String.ofList v), none)
        | v => return (← g.setOption o (String.ofList v), none)
      else setLetters place (← g.setOption o "") cs

/-- Take a long name, behind its hyphens, with or without a value. -/
def setLong (place : Option Verb) (g : Given) (cs : List Char) :
    Except Refusal (Given × Option Opt) := do
  let name := String.ofList (cs.takeWhile (· ≠ '='))
  match (Opt.available place).find? (·.longName == name), cs.dropWhile (· ≠ '=') with
  | none, _ => throw .misuse
  | some o, [] =>
    if o.hasValue then return (g, some o) else return (← g.setOption o "", none)
  | some o, _ :: v =>
    if o.hasValue then return (← g.setOption o (String.ofList v), none) else throw .misuse

/-- Whether a word is an option. -/
def isOption (word : String) : Bool := word.startsWith "-" && word ≠ "-"

/-- Take a word that is an option. -/
def setWord (place : Option Verb) (g : Given) (word : String) :
    Except Refusal (Given × Option Opt) :=
  match word.toList with
  | '-' :: '-' :: cs => g.setLong place cs
  | _ :: cs => g.setLetters place cs
  | [] => .error .misuse

/-- Read words.  In front of the verb this ends at the first operand, and the result
has the words that remain. -/
def read (place : Option Verb) (g : Given) (words : List String) :
    Except Refusal (Given × List String) :=
  match words with
  | [] => .ok (g, [])
  | word :: rest =>
    if word = "--" then
      match place with
      | none => if rest.isEmpty then .ok (g, []) else .error .misuse
      | some verb => do return (← rest.foldlM (addOperand verb) g, [])
    else if isOption word then do
      let (g, wanting) ← g.setWord place word
      match wanting, rest with
      | none, rest => read place g rest
      | some o, v :: rest =>
        if isOption v then throw .misuse else read place (← g.setOption o v) rest
      | some _, [] => throw .misuse
    else
      match place with
      | none => .ok (g, word :: rest)
      | some verb => do read place (← addOperand verb g word) rest
termination_by words.length
decreasing_by
  all_goals simp only [List.length_cons]
  all_goals omega

end Given

/-! ## Calls -/

/-- The job that the words behind a verb describe. -/
def jobOf? (verb : Verb) (g : Given) : Option Job :=
  match verb, g.operands with
  | .run, f :: fs => some (.run (f :: fs))
  | .eval, [s] => some (.eval s)
  | .repl, [] => some .repl
  | .test, [] => some (.test (g.has .all) (g.has .json))
  | .asm, f :: args =>
    some (.asm f ((g.value? .entry).getD "main") (g.has .listing) args)
  | .schedule, f :: fs => some (.schedule (f :: fs) (g.has .json))
  | .bench, [s] =>
    let n := ((g.value? .iterations).bind Text.int64?).map fun n => n.toInt.toNat
    some (.bench s (n.getD 10) (g.has .json))
  | .config, [] => some .config
  | _, _ => none

/-- Asking for help by a verb: for the program, or for one verb. -/
def askHelp (words : List String) : Refusal :=
  match words with
  | [] => .help
  | [name] => if name = "help" || (Verb.ofName? name).isSome then .help else .misuse
  | _ => .misuse

/-- Read a call. -/
def Invocation.ofWords (words : List String) : Except Refusal Invocation := do
  match ← Given.read none {} words with
  | (_, []) => throw .misuse
  | (front, name :: rest) =>
    if name = "help" then throw (askHelp rest)
    else
      match Verb.ofName? name with
      | none => throw .misuse
      | some verb =>
        let (back, _) ← Given.read (some verb) {} rest
        match jobOf? verb back with
        | none => throw .misuse
        | some job =>
          return {
            path := back.value? .config <|> front.value? .config
            evaluator := (back.value? .evaluator <|> front.value? .evaluator).bind
              Strategy.ofName?
            debug := front.has .debug || back.has .debug
            timing := front.has .timing || back.has .timing
            job }

end LispEngines.Command
