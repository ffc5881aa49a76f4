import LispEngines.Toml.Plain

/-!
# TOML documents

A document is a sequence of lines.  A line sets a key to a value or is a header,
which says to which table the following keys belong.  Values may go on over several
lines inside brackets and between triple quotes.

Reading stops at the first line that breaks a rule of the format, and then the
document says nothing.
-/

namespace LispEngines.Toml

/-! ## Tables under construction -/

/-- Replace the member of a name, or add one at the end. -/
def Entries.put (name : String) (v : Toml) : Entries → Entries
  | [] => [(name, v)]
  | (k, w) :: es => if k = name then (k, v) :: es else (k, w) :: Entries.put name v es

/-- Change the table at the end of a path, making the tables on the way that are
not there.  A path of a header may enter any table but a closed one, and stands for
the latest table of an array; a path of a key with dots may not enter a table that
has a header. -/
def Entries.within (byDots : Bool) (change : TableKind → Entries → Option Entries) :
    (path : List String) → TableKind → Entries → Option Entries
  | [], kind, es => change kind es
  | name :: path, _, es =>
    match es.lookup name with
    | none => do
      let kind := if byDots then .dotted else .implied
      return es.put name (.table kind (← within byDots change path kind []))
    | some (.table kind sub) =>
      if kind = .inline ∨ (byDots ∧ kind = .headed) then none
      else do return es.put name (.table kind (← within byDots change path kind sub))
    | some (.tables (latest :: earlier)) => do
      return es.put name (.tables ((← within byDots change path .headed latest) :: earlier))
    | some _ => none

/-- Add a member to the table that the front of its key leads to.  That table must
have been begun by keys with dots, unless the key has none. -/
def Entries.setKey (key : List String) (v : Toml) (es : Entries) : Option Entries :=
  match key.getLast? with
  | none => none
  | some name =>
    let front := key.dropLast
    let add (kind : TableKind) (es : Entries) : Option Entries :=
      if (kind = .dotted) = front.isEmpty then none
      else if (es.lookup name).isSome then none
      else some (es ++ [(name, v)])
    es.within true add front .headed

/-- Begin the table of a header. -/
def Entries.openTable (key : List String) (es : Entries) : Option Entries :=
  match key.getLast? with
  | none => none
  | some name =>
    let start (_ : TableKind) (es : Entries) : Option Entries :=
      match es.lookup name with
      | none => some (es.put name (.table .headed []))
      | some (.table .implied sub) => some (es.put name (.table .headed sub))
      | some _ => none
    es.within false start key.dropLast .headed

/-- Begin one more table of an array of tables. -/
def Entries.openNext (key : List String) (es : Entries) : Option Entries :=
  match key.getLast? with
  | none => none
  | some name =>
    let start (_ : TableKind) (es : Entries) : Option Entries :=
      match es.lookup name with
      | none => some (es.put name (.tables [[]]))
      | some (.tables ts) => some (es.put name (.tables ([] :: ts)))
      | some _ => none
    es.within false start key.dropLast .headed

/-! ## Keys and values -/

/-- Whether a character may stand in a name without quotes. -/
def isNameChar (c : Char) : Bool := c.isAlphanum || c = '_' || c = '-'

/-- Read a name. -/
def name? (cs : List Char) : Option (String × List Char) :=
  let bare := cs.takeWhile isNameChar
  if bare.isEmpty then lineText? cs else some (String.ofList bare, cs.dropWhile isNameChar)

/-- Read a key: names with points between them. -/
def key? : (fuel : Nat) → List Char → Option (List String × List Char)
  | 0, _ => none
  | fuel + 1, cs => do
    let (name, cs) ← name? (skipGap cs)
    match skipGap cs with
    | '.' :: cs => do
      let (key, cs) ← key? fuel cs
      return (name :: key, cs)
    | cs => return ([name], cs)

/-- What follows blanks, comments and ends of lines. -/
def skipLayout : (fuel : Nat) → List Char → List Char
  | 0, cs => cs
  | fuel + 1, cs =>
    match skipGap cs with
    | '#' :: cs => skipLayout fuel (skipComment ('#' :: cs))
    | cs =>
      match afterNewline? cs with
      | some cs => skipLayout fuel cs
      | none => cs

mutual

/-- Read a value. -/
def value? : (fuel : Nat) → List Char → Option (Toml × List Char)
  | 0, _ => none
  | fuel + 1, cs =>
    match cs with
    | '[' :: cs => do
      let (items, cs) ← items? fuel cs
      return (.array items, cs)
    | '\x7b' :: cs =>
      match skipGap cs with
      | '\x7d' :: cs => some (.table .inline [], cs)
      | cs => members? fuel [] cs
    | '"' :: _ | '\'' :: _ => (text? cs).map fun (s, cs) => (.text s, cs)
    | cs => plain? cs

/-- Read the items of an array, from behind its bracket or a comma. -/
def items? : (fuel : Nat) → List Char → Option (List Toml × List Char)
  | 0, _ => none
  | fuel + 1, cs =>
    match skipLayout cs.length cs with
    | ']' :: cs => some ([], cs)
    | cs => do
      let (v, cs) ← value? fuel cs
      match skipLayout cs.length cs with
      | ',' :: cs => do
        let (vs, cs) ← items? fuel cs
        return (v :: vs, cs)
      | ']' :: cs => return ([v], cs)
      | _ => none

/-- Read the members of a table in braces. -/
def members? : (fuel : Nat) → Entries → List Char → Option (Toml × List Char)
  | 0, _, _ => none
  | fuel + 1, es, cs => do
    let (key, cs) ← key? cs.length cs
    let cs ← Text.afterLead? ['='] cs
    let (v, cs) ← value? fuel (skipGap cs)
    let es ← es.setKey key v
    match skipGap cs with
    | ',' :: cs => members? fuel es cs
    | '\x7d' :: cs => return (.table .inline es, cs)
    | _ => none

end

/-! ## Lines -/

/-- What follows the end of a line, which may hold a comment. -/
def endLine? (cs : List Char) : Option (List Char) :=
  match skipComment (skipGap cs) with
  | [] => some []
  | cs => afterNewline? cs

/-- A document as far as it has been read: its tables, and the table to which keys
belong. -/
structure Draft where
  entries : Entries := []
  header : List String := []

/-- Read a line other than a blank one. -/
def line? (d : Draft) (cs : List Char) : Option (Draft × List Char) :=
  match cs with
  | '[' :: '[' :: cs => do
    let (key, cs) ← key? cs.length cs
    let cs ← Text.afterLead? [']', ']'] cs
    return (⟨← d.entries.openNext key, key⟩, ← endLine? cs)
  | '[' :: cs => do
    let (key, cs) ← key? cs.length cs
    let cs ← Text.afterLead? [']'] cs
    return (⟨← d.entries.openTable key, key⟩, ← endLine? cs)
  | cs => do
    let (key, cs) ← key? cs.length cs
    let cs ← Text.afterLead? ['='] cs
    let (v, cs) ← value? (cs.length + 1) (skipGap cs)
    let es ← d.entries.within false (fun _ es => es.setKey key v) d.header .headed
    return ({ d with entries := es }, ← endLine? cs)

/-- Read all lines. -/
def lines? : (fuel : Nat) → Draft → List Char → Option Draft
  | 0, _, _ => none
  | fuel + 1, d, cs =>
    match skipLayout cs.length cs with
    | [] => some d
    | cs => do
      let (d, cs) ← line? d cs
      lines? fuel d cs

/-- The table that a document describes.  A byte order mark in front is skipped. -/
def ofText? (s : String) : Option Entries :=
  let cs := match s.toList with
    | '\ufeff' :: cs => cs
    | cs => cs
  (lines? (cs.length + 1) {} cs).map Draft.entries

end LispEngines.Toml
