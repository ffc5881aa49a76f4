import LispEngines.Host.Basic
import LispEngines.Settings.Basic
import LispEngines.Settings.Dotenv
import LispEngines.Settings.Variables
import LispEngines.Toml.Document

/-!
# Loading settings

Settings are laid in layers, each over the one before: the built-in values, a file,
the variables, and what the caller asks for.  Before anything else a file of
variables, if there is one, adds to the variables that are set.

The file is the one the caller names, or else the one that a variable names, or else
a file of a fixed name if it exists.  A file that was named has to exist.
-/

namespace LispEngines.Settings

/-- What the caller of a load asks for. -/
structure Request where
  path : Option String := none
  /-- The variables to use instead of those that are set. -/
  environment : Option (List (String × String)) := none
  evaluator : Option Strategy := none
  /-- To be set in any case. -/
  debug : Bool := false
  timing : Bool := false

/-- What the caller asks for, over what was loaded. -/
def Request.apply (r : Request) (s : Settings) : Settings :=
  { s with engine :=
      { s.engine with
        evaluator := r.evaluator.getD s.engine.evaluator
        debug := r.debug || s.engine.debug
        timing := r.timing || s.engine.timing } }

/-- The settings that the layers of a file and of variables give. -/
def ofLayers (r : Request) (file : List (String × Setting))
    (environment : List (String × String)) : Except SettingsError Settings := do
  let t := Setting.table []
  let t := t.lay (toTree {})
  let t := t.lay file
  let t := t.lay (ofVariables environment)
  let s := r.apply (← ofTree t)
  s.check
  return s

/-! ## Files -/

/-- The file of variables that is read first. -/
def variablesFile : String := ".env"

/-- The file of settings that is read if none is named. -/
def localFile : String := "scheming.toml"

/-- The variable that may name a file of settings. -/
def pathVariable : String := "SCHEMING_CONFIG_PATH"

/-- Whether the name of a file says that it is a document of settings: it ends in
`.toml`, and something stands before that. -/
def isDocumentName (path : String) : Bool :=
  let name := (path.splitOn "/").getLast?.getD ""
  match Text.dropTail? ".toml" name with
  | some stem => !stem.isEmpty
  | none => false

/-- The layer that a document gives. -/
def ofDocument (path text : String) : Except SettingsError (List (String × Setting)) :=
  match Toml.ofText? text with
  | some es => .ok (Setting.ofEntries path es)
  | none => .error (.fileUnreadable none)

section Load

variable {m : Type → Type} [Monad m] [Host m]

/-- The variables that are set, with those of the file of variables. -/
def allVariables : m (List (String × String)) := do
  let vs ← Host.environment
  match ← Host.readFile variablesFile with
  | .ok file => return Dotenv.load vs file
  | .error _ => return vs

/-- The file to read, if any. -/
def findFile (r : Request) (vs : List (String × String)) :
    ExceptT SettingsError m (Option String) := do
  match r.path <|> vs.lookup pathVariable with
  | some path =>
    if ← Host.isFile path then return some path else throw (.fileNotFound path)
  | none => return if ← Host.isFile localFile then some localFile else none

/-- The layer of a file. -/
def readLayer (path : String) : ExceptT SettingsError m (List (String × Setting)) := do
  if isDocumentName path then
    match ← Host.readFile path with
    | .ok text => ofDocument path text
    | .error reason => throw (.fileUnreadable reason)
  else
    throw (.fileUnreadable
      ("configuration file " ++ Text.fenced path ++ " is not of a registered file format"))

/-- Load the settings. -/
def load (r : Request) : ExceptT SettingsError m Settings := do
  let vs ← allVariables
  let layer ← match ← findFile r vs with
    | some path => readLayer path
    | none => pure []
  ofLayers r layer (r.environment.getD vs)

end Load

end LispEngines.Settings
