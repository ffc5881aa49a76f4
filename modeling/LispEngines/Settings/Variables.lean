import LispEngines.Settings.Conversion

/-!
# Settings from variables

A variable whose name begins with `SCHEMING_`, in any case, sets what the rest of its
name says; two underscores separate the section from the name in it.  A variable has
only a text, so the sort of its value is guessed: a truth value, an integer, a number
with a fraction, and a text if it is none of these.
-/

namespace LispEngines.Settings

/-- How names of variables begin that set something, in lower case. -/
def variableLead : String := "scheming_"

/-- What a variable's text is taken for. -/
def guess (s : String) : Scalar :=
  let word := Setting.lowerText s
  if word = "true" then .boolean true
  else if word = "false" then .boolean false
  else match Text.int64? s with
  | some n => .integer n
  | none =>
    match Text.double? s with
    | some x => .real x
    | none => .text s

/-- Replace each pair of underscores by a point. -/
def pointed : List Char → List Char
  | '_' :: '_' :: cs => '.' :: pointed cs
  | c :: cs => c :: pointed cs
  | [] => []

/-- What a variable sets, if it sets anything. -/
def ofVariable? (name text : String) : Option (String × Setting) :=
  (Text.dropLead? variableLead (Setting.lowerName name)).map fun rest =>
    (String.ofList (pointed rest.toList), .scalar "the environment" (guess text))

/-- The layer that variables give. -/
def ofVariables (vs : List (String × String)) : List (String × Setting) :=
  vs.filterMap fun (name, text) => ofVariable? name text

end LispEngines.Settings
