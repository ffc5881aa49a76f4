import LispEngines.Command.Invocation
import LispEngines.Command.Json
import LispEngines.Schedule.Scheduler
import LispEngines.Settings.Load
import LispEngines.Settings.Written
import LispEngines.Suite.Corpus

/-!
# Performing invocations

What each verb does, on any host.  Settings are loaded before anything else.  A job
has a store for all its evaluations; what they print goes to the host's output as
soon as an evaluation is over.

A job that fails says why in a chain of messages, from the outermost to the cause.
What it wrote before stays written.
-/

namespace LispEngines.Command

/-! ## Errors -/

/-- Why a job failed. -/
inductive JobError where
  | settings (e : SettingsError)
  | unreadableFile (file reason : String)
  | unreadableProgram (file reason : String)
  | assembly (e : AssembleError)
  | fileAssembly (file : String) (e : AssembleError)
  /-- The machine engine cannot be set up. -/
  | noEvaluator (cause : JobError)
  | source (e : Engine.SourceError)
  | fileSource (file : String) (e : Engine.SourceError)
  | fileForms (file : String) (e : ReadError)
  | argument (text : String) (e : ReadError)
  | failure (e : Failure)
  | engine (strategy : Strategy) (e : Engine.SourceError)
  | noIterations
  | tasksFailed (n : Nat)
  | casesFailed (n : Nat)
  | outOfFuel

/-- The messages of an error, outermost first. -/
def JobError.chain : JobError → List String
  | .settings e => e.message :: e.reason?.toList
  | .unreadableFile file reason => ["Failed to read " ++ file, reason]
  | .unreadableProgram file reason => ["Failed to read program " ++ file, reason]
  | .assembly e => [e.message]
  | .fileAssembly file e => ["Failed to assemble " ++ file, e.message]
  | .noEvaluator cause => "Failed to prepare the cell machine evaluator" :: cause.chain
  | .source e => [e.message]
  | .fileSource file e => ["Failed to evaluate " ++ file, e.message]
  | .fileForms file e => ["Failed to read " ++ file, e.message]
  | .argument text e => ["Invalid argument '" ++ text ++ "'", e.message]
  | .failure e => [e.message]
  | .engine strategy e => [strategy.name ++ " evaluator failed", e.message]
  | .noIterations => ["--iterations must be at least 1"]
  | .tasksFailed n => [toString n ++ " task(s) failed"]
  | .casesFailed n => [toString n ++ " regression case(s) failed"]
  | .outOfFuel => ["out of fuel"]

/-- The line that tells an error. -/
def JobError.line (e : JobError) : String := "Error: " ++ ": ".intercalate e.chain ++ "\n"

/-! ## Measurements -/

/-- A time in milliseconds with three places. -/
def millisText (nanoseconds : Nat) : String :=
  let microseconds := (nanoseconds + 500) / 1000
  let places := toString (microseconds % 1000)
  toString (microseconds / 1000) ++ "." ++
    String.ofList (List.replicate (3 - places.length) '0') ++ places

/-- A text with blanks in front, up to a width. -/
def padded (width : Nat) (s : String) : String :=
  String.ofList (List.replicate (width - s.length) ' ') ++ s

/-! ## Jobs -/

/-- What a job works in: it may fail, and it has a store. -/
abbrev Shell (m : Type → Type) := ExceptT JobError (StateT Store m)

variable {m : Type → Type} [Monad m] [Host m]

/-- Hand what was printed to the host. -/
def flush : Shell m Unit := do
  Host.write (← modifyGetThe Store Store.takeOutput)

/-- Do bounded work on the store, and flush. -/
def bounded {α : Type} (work : StateT Store Option α) : Shell m α := do
  let st ← modifyGetThe Store fun st => (st, {})
  match work st with
  | none => throw .outOfFuel
  | some (a, st) =>
    set st
    flush
    return a

def printLine (s : String) : Shell m Unit := Host.write (s ++ "\n")

/-- Read a file. -/
def readFile (path : String) : Shell m String := do
  match ← Host.readFile path with
  | .ok text => return text
  | .error reason => throw (.unreadableFile path reason)

/-- A fresh standard scope. -/
def newScope : Shell m ScopeRef := modifyGetThe Store Store.standardScope

/-- The engine of a strategy. -/
def newEngine (s : Settings) (strategy : Strategy) : Shell m Engine := do
  match strategy with
  | .classic => return .classic s.engine.maxDepth 0
  | .frame => return .frame 0 0
  | .machine =>
    match s.machine.program with
    | none =>
      match ← modifyGetThe Store
        (Engine.ofAssembly Machine.evaluatorText "main" s.machine.stackSize).run with
      | .ok e => return e
      | .error e => throw (.assembly e)
    | some path =>
      match ← Host.readFile path with
      | .error reason => throw (.unreadableProgram path reason)
      | .ok text =>
        match ← modifyGetThe Store
          (Engine.ofAssembly text s.machine.entry s.machine.stackSize).run with
        | .ok e => return e
        | .error e => throw (.fileAssembly path e)

/-- The engine of a strategy for evaluations; an error names the engine that cannot
be set up. -/
def newEvaluator (s : Settings) (strategy : Strategy) : Shell m Engine := fun st => do
  match ← newEngine s strategy st with
  | (.error e, st) => return (.error (.noEvaluator e), st)
  | r => return r

/-! ## Evaluating -/

/-- Evaluate a source, and tell steps and time if that is wanted. -/
def timedEvaluate (fuel : Nat) (s : Settings) (source : String) (scope : ScopeRef)
    (engine : Engine) : Shell m (Except Engine.SourceError Value × Engine) := do
  let start ← Host.clock
  let (r, after) ← bounded (Engine.evaluateSource fuel source scope engine)
  let stop ← Host.clock
  if s.engine.timing then
    Host.tell ("[" ++ after.strategy.name ++ "] " ++ toString (after.steps - engine.steps) ++
      " steps in " ++ millisText (stop - start) ++ " ms\n")
  return (r, after)

/-- The text of a value. -/
def shown (v : Value) : Shell m String := return v.shown (← getThe Store)

/-- Evaluate a source and print its value. -/
def performEval (fuel : Nat) (s : Settings) (source : String) : Shell m Unit := do
  let engine ← newEvaluator s s.engine.evaluator
  let scope ← newScope
  match (← timedEvaluate fuel s source scope engine).1 with
  | .ok v => printLine (← shown v)
  | .error e => throw (.source e)

/-- Evaluate files in a scope. -/
def runFiles (fuel : Nat) (s : Settings) (scope : ScopeRef) :
    Engine → List String → Shell m Unit
  | _, [] => return
  | engine, file :: files => do
    let source ← readFile file
    match ← timedEvaluate fuel s source scope engine with
    | (.ok _, engine) => runFiles fuel s scope engine files
    | (.error e, _) => throw (.fileSource file e)

def performRun (fuel : Nat) (s : Settings) (files : List String) : Shell m Unit := do
  let engine ← newEvaluator s s.engine.evaluator
  runFiles fuel s (← newScope) engine files

/-! ## The loop of reading, evaluating and printing -/

/-- Whether more lines may complete a source. -/
def isUnfinished : Engine.SourceError → Bool
  | .read (.unclosed _) => true
  | _ => false

/-- Read lines, evaluate and print until the input ends.  `pending` are the lines of
a form that is not closed. -/
def interact (fuel : Nat) (s : Settings) (scope : ScopeRef) :
    (rounds : Nat) → (pending : String) → Engine → Shell m Unit
  | 0, _, _ => throw .outOfFuel
  | rounds + 1, pending, engine => do
    Host.write (if pending.isEmpty then "> " else ". ")
    match ← Host.readLine with
    | none => Host.write "\n"
    | some line =>
      let source := pending ++ line
      if (Text.trimmed source).isEmpty then interact fuel s scope rounds "" engine
      else
        match ← timedEvaluate fuel s source scope engine with
        | (.ok v, engine) =>
          printLine (← shown v)
          interact fuel s scope rounds "" engine
        | (.error e, engine) =>
          if isUnfinished e then interact fuel s scope rounds source engine
          else
            printLine ("Error: " ++ e.message)
            interact fuel s scope rounds "" engine

def performRepl (fuel : Nat) (s : Settings) : Shell m Unit := do
  let engine ← newEvaluator s s.engine.evaluator
  interact fuel s (← newScope) fuel "" engine

/-! ## The regression suite -/

/-- Run the suite on an engine; the report and the time. -/
def runSuite (fuel : Nat) (s : Settings) (strategy : Strategy) :
    Shell m (Suite.Report × Nat) := do
  let engine ← newEvaluator s strategy
  let start ← Host.clock
  let (report, _) ← bounded (Suite.run fuel Suite.corpus engine)
  return (report, (← Host.clock) - start)

def suiteJson (r : Suite.Report) (time : Nat) : Json :=
  .object [
    ("strategy", .text r.strategy.name), ("passed", .nat r.passed), ("failed", .nat r.failed),
    ("steps", .nat r.steps), ("elapsed", .nat (time / 1000000)),
    ("failures", .array (r.misses.map fun f => .object [
      ("source", .text f.source), ("expected", .text f.expected), ("actual", .text f.actual)]))]

def suiteText (r : Suite.Report) (time : Nat) : String :=
  String.join (r.misses.map fun f =>
    "FAIL [" ++ r.strategy.name ++ "] " ++ f.source ++ "\n" ++
    "    expected: " ++ f.expected ++ "\n" ++
    "    actual:   " ++ f.actual ++ "\n") ++
  r.strategy.name ++ ": " ++ toString r.passed ++ " passed, " ++ toString r.failed ++
    " failed (" ++ toString r.steps ++ " steps, " ++ millisText time ++ " ms)\n"

def performTest (fuel : Nat) (s : Settings) (all json : Bool) : Shell m Unit := do
  let strategies := if all then Strategy.all else [s.engine.evaluator]
  let reports ← strategies.mapM (runSuite fuel s)
  if json then
    printLine ((Json.array (reports.map fun (r, time) => suiteJson r time)).render 0)
  else
    Host.write (String.join (reports.map fun (r, time) => suiteText r time))
  let failed : Nat := reports.foldl (fun n (r, _) => n + r.failed) 0
  if failed ≠ 0 then throw (.casesFailed failed)

/-! ## Programs for the machine -/

/-- Read arguments, each as the first form of a text. -/
def readArguments (args : List String) : Shell m (List Value) :=
  args.mapM fun a => do
    match Form.firstOfSource a with
    | .ok f => modifyGetThe Store f.build.run
    | .error e => throw (.argument a e)

def performAsm (fuel : Nat) (s : Settings) (file entry : String) (listing : Bool)
    (args : List String) : Shell m Unit := do
  let text ← readFile file
  match ← modifyGetThe Store (Assembler.assemble text entry).run with
  | .error e => throw (.fileAssembly file e)
  | .ok program =>
    if listing then Host.write (program.listing (← getThe Store))
    let args ← readArguments args
    match ← modifyGetThe Store (Machine.start program args s.machine.stackSize).run with
    | .error e => throw (.failure e)
    | .ok machine =>
      let start ← Host.clock
      let (r, machine) ← bounded (Machine.run fuel machine)
      let stop ← Host.clock
      match r with
      | .error e => throw (.failure e)
      | .ok v =>
        if s.engine.timing then
          Host.tell ("[asm] " ++ toString machine.steps ++ " steps in " ++
            millisText (stop - start) ++ " ms\n")
        match Engine.outcome machine v with
        | .error e => throw (.failure e)
        | .ok v => printLine (← shown v)

/-! ## Tasks -/

/-- Put each file as a task into a scheduler; the result has their names by task
number. -/
def spawnFiles (s : Settings) (engine : Engine) :
    Scheduler → List String → Shell m (Scheduler × List (UInt32 × String))
  | sch, [] => return (sch, [])
  | sch, file :: files => do
    let source ← readFile file
    match Form.program source with
    | .error e => throw (.fileForms file e)
    | .ok form =>
      match ← modifyGetThe Store (LispEngines.Task.ofForm engine form).run with
      | .error e => throw (.failure e)
      | .ok task =>
        let (id, sch) := sch.spawn task s.schedule.defaultPriority
        let (sch, names) ← spawnFiles s engine sch files
        return (sch, (id, file) :: names)

def outcomeJson (o : Outcome) : Shell m Json := do
  match o with
  | .completed v =>
    return .object [("status", .text "completed"), ("value", .text (← shown v))]
  | .failed e => return .object [("status", .text "failed"), ("value", .text e.message)]
  | .cancelled => return .object [("status", .text "cancelled")]

def reportJson (r : Report) : Shell m Json :=
  return .object [
    ("id", .nat r.id.toNat), ("title", .text r.title), ("kind", .text r.kind),
    ("priority", .int r.priority.toInt), ("quanta", .nat r.quanta), ("steps", .nat r.steps),
    ("outcome", ← outcomeJson r.outcome)]

def outcomeText (o : Outcome) : Shell m String := do
  match o with
  | .completed v => shown v
  | .failed e => return "error: " ++ e.message
  | .cancelled => return "cancelled"

/-- Tell what became of a task. -/
def printReport (s : Settings) (names : List (UInt32 × String)) (r : Report) :
    Shell m Unit := do
  let name := (names.lookup r.id).getD "?"
  printLine (r.title ++ " " ++ name ++ ": " ++ (← outcomeText r.outcome))
  if s.engine.timing then
    Host.tell ("[" ++ r.title ++ "] " ++ toString r.steps ++ " steps over " ++
      toString r.quanta ++ " quanta\n")

/-- Whether a task ended with a value. -/
def isCompleted : Outcome → Bool
  | .completed _ => true
  | _ => false

def performSchedule (fuel : Nat) (s : Settings) (files : List String) (json : Bool) :
    Shell m Unit := do
  let engine ← newEngine s s.engine.evaluator
  let (sch, names) ← spawnFiles s engine (Scheduler.new s.schedule) files
  let ((reports, _), _) ← bounded (Scheduler.runUntilIdle (σ := Unit) fuel {} fuel sch ())
  if json then
    printLine ((Json.array (← reports.mapM reportJson)).render 0)
  else
    reports.forM (printReport s names)
  let failed := reports.countP fun r => !isCompleted r.outcome
  if failed ≠ 0 then throw (.tasksFailed failed)

/-! ## Measuring -/

/-- What was measured of an engine. -/
structure Measurement where
  strategy : Strategy
  iterations : Nat
  steps : Nat
  time : Nat
  /-- The text of the last value. -/
  value : String

/-- Evaluate a source a number of times, each time in a new scope. -/
def repeatSource (fuel : Nat) (source : String) :
    (n : Nat) → (last : Value) → Engine → Shell m (Value × Engine)
  | 0, last, engine => return (last, engine)
  | n + 1, _, engine => do
    match ← bounded (Engine.evaluateSource fuel source (← newScope) engine) with
    | (.ok v, engine) => repeatSource fuel source n v engine
    | (.error e, engine) => throw (.engine engine.strategy e)

def measure (fuel : Nat) (s : Settings) (source : String) (iterations : Nat)
    (strategy : Strategy) : Shell m Measurement := do
  let engine ← newEvaluator s strategy
  let start ← Host.clock
  let (v, engine) ← repeatSource fuel source iterations (.number 0) engine
  let time := (← Host.clock) - start
  return { strategy, iterations, steps := engine.steps, time, value := ← shown v }

def measurementJson (x : Measurement) : Json :=
  .object [
    ("strategy", .text x.strategy.name), ("iterations", .nat x.iterations),
    ("steps", .nat x.steps), ("elapsed_ms", .number (millisText x.time)),
    ("result", .text x.value)]

def measurementText (x : Measurement) : String :=
  x.strategy.name ++ " " ++ padded 10 (toString x.steps) ++ " steps " ++
    padded 10 (millisText x.time) ++ " ms  => " ++ x.value ++ "\n"

def performBench (fuel : Nat) (s : Settings) (source : String) (iterations : Nat)
    (json : Bool) : Shell m Unit := do
  if iterations = 0 then throw .noIterations
  let xs ← Strategy.all.mapM (measure fuel s source iterations)
  if json then printLine ((Json.array (xs.map measurementJson)).render 0)
  else Host.write (String.join (xs.map measurementText))

/-! ## All jobs -/

/-- Do a job with given settings. -/
def performJob (fuel : Nat) (s : Settings) : Job → Shell m Unit
  | .run files => performRun fuel s files
  | .eval source => performEval fuel s source
  | .repl => performRepl fuel s
  | .test all json => performTest fuel s all json
  | .asm file entry listing args => performAsm fuel s file entry listing args
  | .schedule files json => performSchedule fuel s files json
  | .bench source iterations json => performBench fuel s source iterations json
  | .config =>
    match s.toToml with
    | .ok text => Host.write text
    | .error e => throw (.settings e)

/-- The settings that a call asks for. -/
def Invocation.request (i : Invocation) : Settings.Request :=
  { path := i.path, evaluator := i.evaluator, debug := i.debug, timing := i.timing }

/-- Do what a call says. -/
def Invocation.work (i : Invocation) (fuel : Nat) : Shell m Unit := fun st => do
  match ← (Settings.load i.request : ExceptT SettingsError m Settings) with
  | .error e => return (.error (.settings e), st)
  | .ok s => performJob fuel s i.job st

/-- Do what a call says and tell an error; the exit code. -/
def Invocation.perform (i : Invocation) (fuel : Nat) : m UInt32 := do
  match ← (i.work fuel).run {} with
  | (.ok (), _) => return 0
  | (.error e, _) =>
    Host.tell e.line
    return 1

end LispEngines.Command
