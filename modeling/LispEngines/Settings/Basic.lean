import LispEngines.Settings.Conversion
import LispEngines.Schedule.Scheduler

/-!
# Settings

The settings of the program in three sections, with their built-in values.  They are
read from a tree of settings and then checked: some values can be read but make no
sense.
-/

namespace LispEngines

structure EngineSettings where
  evaluator : Strategy := .frame
  debug : Bool := false
  /-- Whether steps and time are told after each evaluation. -/
  timing : Bool := false
  /-- The depth limit of the recursive engine. -/
  maxDepth : Nat := 1000
  deriving DecidableEq, Repr

structure MachineSettings where
  stackSize : Nat := 3000
  /-- The file of an evaluator program to be used instead of the bundled one. -/
  program : Option String := none
  /-- The label at which that program starts. -/
  entry : String := "main"
  deriving DecidableEq, Repr

structure Settings where
  engine : EngineSettings := {}
  machine : MachineSettings := {}
  schedule : ScheduleSettings := {}
  deriving DecidableEq, Repr

/-! ## What can be wrong -/

/-- Why there are no settings. -/
inductive SettingsError where
  | fileNotFound (path : String)
  /-- The file is not one that settings can be read from. -/
  | fileUnreadable (reason : Option String)
  | invalid (key : String) (source : Option String) (complaint : Complaint)
  | noDepth
  | stackTooSmall (size : Nat)
  | noEntry
  | noQuantum
  /-- A number does not fit into a document. -/
  | unwritable
  deriving DecidableEq, Repr

namespace SettingsError

/-- The wording of an error. -/
def message : SettingsError → String
  | .fileNotFound path => "Config file not found: " ++ path
  | .fileUnreadable _ => "Failed to load configuration"
  | .invalid .. => "Invalid configuration"
  | .noDepth => "engine.max_depth must be at least 1"
  | .stackTooSmall n => "vm.stack_size must be at least 16, got " ++ toString n
  | .noEntry => "vm.entry must name a label"
  | .noQuantum => "scheduler.quantum must be at least 1"
  | .unwritable => "Failed to render configuration as TOML"

/-- The wording of what lies behind an error. -/
def reason? : SettingsError → Option String
  | .fileUnreadable reason => reason
  | .invalid key source complaint =>
    let place := match source with
      | some s => " in " ++ s
      | none => ""
    some (complaint.message ++ " for key `" ++ key ++ "`" ++ place)
  | .unwritable => some "out-of-range value for u64 type"
  | _ => none

end SettingsError

namespace Settings

/-! ## Reading a tree -/

/-- A section of a tree.  Its members have names, or are given in a fixed order. -/
structure Section where
  name : String
  content : Setting

/-- The section with a name, which a single value cannot be.  `shape` is what a
complaint calls the section. -/
def section? (t : Setting) (name shape : String) : Except SettingsError (Option Section) :=
  match t.get? name with
  | none => .ok none
  | some (.scalar source v) => .error (.invalid name source (.wrongSort v.outline shape))
  | some content => .ok (some ⟨name, content⟩)

/-- Read a member of a section; one that is not there has its built-in value. -/
def Section.read {α : Type} (s : Option Section) (index : Nat) (name : String)
    (convert : Setting → Except Complaint α) (builtIn : α) : Except SettingsError α :=
  let given? : Option Setting := s.bind fun s =>
    match s.content with
    | .sequence xs => xs[index]?
    | t => t.get? name
  match given? with
  | none => .ok builtIn
  | some v =>
    let key := (s.map Section.name).getD "" ++ "." ++ name
    (convert v).mapError fun c => .invalid key v.source? c

/-- The settings that a tree gives. -/
def ofTree (t : Setting) : Except SettingsError Settings := do
  let s ← section? t "engine" "struct EngineConfig"
  let built : EngineSettings := {}
  let evaluator ← Section.read s 0 "evaluator" Setting.toStrategy built.evaluator
  let debug ← Section.read s 1 "debug" Setting.toBool built.debug
  let timing ← Section.read s 2 "timing" Setting.toBool built.timing
  let maxDepth ← Section.read s 3 "max_depth" Setting.toUnsigned built.maxDepth
  let s ← section? t "vm" "struct VmConfig"
  let built : MachineSettings := {}
  let stackSize ← Section.read s 0 "stack_size" Setting.toUnsigned built.stackSize
  let program ← Section.read s 1 "program" Setting.toText? built.program
  let entry ← Section.read s 2 "entry" Setting.toText built.entry
  let s ← section? t "scheduler" "struct SchedulerConfig"
  let built : ScheduleSettings := {}
  let quantum ← Section.read s 0 "quantum" Setting.toUnsigned built.quantum
  let defaultPriority ←
    Section.read s 1 "default_priority" Setting.toInt32 built.defaultPriority
  let idleSleep ← Section.read s 2 "idle_sleep_ms" Setting.toUnsigned built.idleSleep
  return {
    engine := { evaluator, debug, timing, maxDepth }
    machine := { stackSize, program, entry }
    schedule := { quantum, defaultPriority, idleSleep } }

/-! ## Writing a tree -/

/-- The tree that settings are read from. -/
def toTree (s : Settings) : List (String × Setting) :=
  let natural (n : Nat) : Setting := .scalar none (.integer (Int64.ofNat n))
  let boolean (b : Bool) : Setting := .scalar none (.boolean b)
  let text (t : String) : Setting := .scalar none (.text t)
  [ ("engine", .table [
      ("evaluator", text s.engine.evaluator.name),
      ("debug", boolean s.engine.debug),
      ("timing", boolean s.engine.timing),
      ("max_depth", natural s.engine.maxDepth)]),
    ("vm", .table [
      ("stack_size", natural s.machine.stackSize),
      ("program", (s.machine.program.map text).getD .nothing),
      ("entry", text s.machine.entry)]),
    ("scheduler", .table [
      ("quantum", natural s.schedule.quantum),
      ("default_priority",
        .scalar none (.integer (Int64.ofInt s.schedule.defaultPriority.toInt))),
      ("idle_sleep_ms", natural s.schedule.idleSleep)]) ]

/-! ## Checking -/

/-- The first thing that makes no sense. -/
def check (s : Settings) : Except SettingsError Unit := do
  if s.engine.maxDepth = 0 then throw .noDepth
  if s.machine.stackSize < 16 then throw (.stackTooSmall s.machine.stackSize)
  if s.machine.entry.isEmpty then throw .noEntry
  if s.schedule.quantum = 0 then throw .noQuantum

end Settings

end LispEngines
