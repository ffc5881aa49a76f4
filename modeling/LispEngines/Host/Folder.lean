import LispEngines.Host.Basic

/-!
# Folders as hosts

A folder holds files by name, the variables, the input that is still to come and the
output so far.  Nothing outside it exists, and no time passes in it.
-/

namespace LispEngines

/-- A closed place to run in. -/
structure Folder where
  files : List (String × String) := []
  environment : List (String × String) := []
  /-- Characters of the input that have not been read. -/
  input : List Char := []
  output : String := ""
  told : String := ""

namespace Folder

/-- A path without references to the folder itself. -/
def plainPath (path : String) : String :=
  "/".intercalate ((path.splitOn "/").filter (· ≠ "."))

/-- Whether a path names the folder or one inside it. -/
def isFolder (f : Folder) (path : String) : Bool :=
  let p := plainPath path
  (p.isEmpty && !path.isEmpty) || f.files.any fun (name, _) => name.startsWith (p ++ "/")

/-- The content of a file, or the reason why there is none. -/
def readFile (f : Folder) (path : String) : Except String String :=
  match f.files.lookup (plainPath path) with
  | some text => if path.isEmpty then .error "No such file or directory (os error 2)"
    else .ok text
  | none =>
    if f.isFolder path then .error "Is a directory (os error 21)"
    else .error "No such file or directory (os error 2)"

/-- Take the next line of the input. -/
def readLine (f : Folder) : Option String × Folder :=
  if f.input.isEmpty then (none, f)
  else
    match f.input.dropWhile (· ≠ '\n') with
    | [] => (some (String.ofList f.input), { f with input := [] })
    | _ :: rest =>
      (some (String.ofList (f.input.takeWhile (· ≠ '\n') ++ ['\n'])), { f with input := rest })

instance : Host (StateM Folder) where
  readFile path := return (← get).readFile path
  isFile path := return ((← get).readFile path).isOk
  environment := return (← get).environment
  readLine := modifyGet readLine
  write s := modify fun f => { f with output := f.output ++ s }
  tell s := modify fun f => { f with told := f.told ++ s }
  clock := return 0

end Folder

end LispEngines
