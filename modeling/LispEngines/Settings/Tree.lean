import LispEngines.Text.Affix
import LispEngines.Text.Decimal
import LispEngines.Toml.Basic

/-!
# Trees of settings

Settings come from several layers: built-in values, a file, variables.  Each layer is
a tree of named values, and laying one over another replaces the values it names and
keeps the rest.  Names are compared in lower case.

A layer may address a value deep in the tree by a path such as `a.b[0]`.  What stands
in the way is replaced: a value by a table when the path goes on with a name, and by
a sequence when it goes on with an index.
-/

namespace LispEngines

/-- A single value, as it was given. -/
inductive Scalar where
  | nothing
  | boolean (b : Bool)
  | integer (n : Int64)
  | real (x : Float)
  | text (s : String)
  deriving Repr, Inhabited

/-- A tree of settings.  A scalar may say where it comes from. -/
inductive Setting where
  | scalar (source : Option String) (v : Scalar)
  | sequence (items : List Setting)
  | table (entries : List (String × Setting))
  deriving Repr, Inhabited

namespace Setting

/-- No value. -/
def nothing : Setting := .scalar none .nothing

/-! ## Names -/

/-- A letter in lower case.  Besides those of ASCII the Kelvin sign is the one
letter whose lower case is in ASCII, and names of settings are in ASCII. -/
def lowerChar (c : Char) : Char := if c = '\u212a' then 'k' else c.toLower

/-- A name in lower case. -/
def lowerName (s : String) : String := String.ofList (s.toList.map lowerChar)

/-! ## Laying one tree over another -/

/-- The members of a table; none for anything else. -/
def entries : Setting → List (String × Setting)
  | .table es => es
  | _ => []

/-- The items of a sequence; none for anything else. -/
def items : Setting → List Setting
  | .sequence xs => xs
  | _ => []

/-- The member with a name. -/
def get? (t : Setting) (name : String) : Option Setting := t.entries.lookup name

/-- Replace the member with a name, or add one at the end. -/
def putEntry (name : String) (v : Setting) :
    List (String × Setting) → List (String × Setting)
  | [] => [(name, v)]
  | (k, w) :: es => if k = name then (k, v) :: es else (k, w) :: putEntry name v es

/-- Change the member with a name.  A tree that is no table becomes one. -/
def change (t : Setting) (name : String) (f : Option Setting → Setting) : Setting :=
  let name := lowerName name
  .table (putEntry name (f (t.get? name)) t.entries)

mutual

/-- Lay a tree over what is there: a table is merged member by member, anything else
replaces it. -/
def merge (old : Option Setting) : (new : Setting) → Setting
  | .scalar source v => .scalar source v
  | .sequence xs => .sequence xs
  | .table es => mergeAll (old.getD (.table [])) es

/-- Lay members over a tree. -/
def mergeAll (t : Setting) : List (String × Setting) → Setting
  | [] => t
  | (name, v) :: es => mergeAll (t.change name fun old => merge old v) es

end

/-! ## Paths -/

/-- One step into a tree. -/
inductive Step where
  | name (s : String)
  | index (i : Nat)
  deriving DecidableEq, Repr

/-- Whether a character may stand in the name of a path. -/
def isPathChar (c : Char) : Bool := c.isAlphanum || c = '_' || c = '-' || c = ' '

/-- Read the steps behind the first name. -/
def steps? : (fuel : Nat) → List Char → Option (List Step)
  | _, [] => some []
  | 0, _ => none
  | fuel + 1, '.' :: cs =>
    let name := cs.takeWhile isPathChar
    if name.isEmpty then none
    else (steps? fuel (cs.dropWhile isPathChar)).map (.name (String.ofList name) :: ·)
  | fuel + 1, '[' :: cs =>
    let inside := (cs.takeWhile (· ≠ ']')).filter (· ≠ ' ')
    match cs.dropWhile (· ≠ ']'), Text.integer? (String.ofList inside) with
    | ']' :: rest, some i => (steps? fuel rest).map (.index i.toNat :: ·)
    | _, _ => none
  | _, _ => none

/-- Read a path: a name, and then names behind points and indices in brackets. -/
def path? (s : String) : Option (List Step) :=
  let cs := s.toList
  let name := cs.takeWhile isPathChar
  if name.isEmpty then none
  else (steps? cs.length (cs.dropWhile isPathChar)).map (.name (String.ofList name) :: ·)

/-- The path that a text addresses.  A text that is no path is a name. -/
def pathOf (s : String) : List Step := (path? s).getD [.name s]

/-- Lay a tree over what a path leads to. -/
def mergeAt (v : Setting) : List Step → Option Setting → Setting
  | [], old => merge old v
  | .name s :: path, old => (old.getD nothing).change s (mergeAt v path)
  | [.index i], old =>
    let xs := (old.getD nothing).items
    .sequence ((xs ++ List.replicate (i + 1 - xs.length) nothing).set i v)
  | .index i :: path, old =>
    let xs := (old.getD nothing).items
    .sequence ((xs ++ List.replicate (i + 1 - xs.length) nothing).set i
      (mergeAt v path xs[i]?))

/-- Lay a layer over a tree.  The names of the layer are paths. -/
def lay (t : Setting) (layer : List (String × Setting)) : Setting :=
  layer.foldl (fun t (name, v) => mergeAt v (pathOf name) (some t)) t

/-! ## From TOML -/

mutual

/-- The settings that a TOML value gives.  A date or a time counts as a text. -/
def ofToml (source : String) : Toml → Setting
  | .text s => .scalar source (.text s)
  | .integer n => .scalar source (.integer n)
  | .real x => .scalar source (.real x)
  | .boolean b => .scalar source (.boolean b)
  | .moment s => .scalar source (.text s)
  | .array xs => .sequence (ofItems source xs)
  | .table _ es => .table (ofEntries source es)
  | .tables ts => .sequence (ofTables source ts).reverse

def ofItems (source : String) : List Toml → List Setting
  | [] => []
  | x :: xs => ofToml source x :: ofItems source xs

def ofEntries (source : String) : List (String × Toml) → List (String × Setting)
  | [] => []
  | (name, v) :: es => (name, ofToml source v) :: ofEntries source es

def ofTables (source : String) : List (List (String × Toml)) → List Setting
  | [] => []
  | es :: ts => .table (ofEntries source es) :: ofTables source ts

end

end Setting

end LispEngines
