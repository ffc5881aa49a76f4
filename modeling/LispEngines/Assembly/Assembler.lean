import LispEngines.Assembly.Token
import LispEngines.Machine.Program
import LispEngines.Text.Affix
import LispEngines.Text.Decimal

/-!
# The assembler

An assembler turns tokens into code words as it meets them.  A word that is the
name of something is only noted, because it may be defined further on, and
`finish` puts the value in its place once all text has been fed.

    !define NAME VALUE   NAME stands for an integer, or for what VALUE stands for
    name:                NAME stands for the present position
    "text"               a constant; emits its index
    $payload             an integer constant; emits its index
    42                   emits the word itself
    WORD                 emits what WORD stands for in the end

A name never changes what it stands for.  A name can also stand for a constant;
each use of it puts the constant into the program once more and emits the index
of that entry.  The entries share the constant: where it is a list, it is the
same list each time.
-/

namespace LispEngines

/-- What a name stands for. -/
inductive Label where
  /-- A number that is emitted as it is. -/
  | fixed (n : Int64)
  /-- A constant of which each use makes an entry. -/
  | data (v : Value)
  deriving DecidableEq, Repr

/-- Names and what they stand for, latest first. -/
abbrev Labels := List (String × Label)

/-- What a name stands for. -/
def Labels.get? (ls : Labels) (name : String) : Option Label :=
  (ls.find? (·.1 == name)).map (·.2)

/-- A code word that is known, or the name of one that is not known yet. -/
inductive Slot where
  | word (w : Int64)
  | delayed (name : String)
  deriving DecidableEq, Repr

/-- A program under construction. -/
structure Assembler where
  labels : Labels := []
  slots : Array Slot := #[]
  data : Array Value := #[]
  deriving Repr

/-- Work on a program under construction.  What it did before it failed stays
done. -/
abbrev Assembling := ExceptT AssembleError (StateM Assembler)

namespace Assembler

/-- What every program can name: the instructions, the codes of the kinds, and
four constants. -/
def predefined (empty : ListRef) : Labels :=
  Opcode.all.toList.map (fun op => (op.mnemonic, .fixed op.word)) ++
  Kind.all.map (fun k => (k.label, .fixed k.code)) ++
  [("Nil", .data (.list empty)), ("True", .data (.ofBool true)),
   ("False", .data (.ofBool false)), ("NewLine", .data (.text "\n"))]

/-- An assembler that has been fed nothing. -/
def new : StateM Store Assembler :=
  modifyGet fun st =>
    let (empty, st) := st.newList []
    ({ labels := predefined empty }, st)

/-- Let a name stand for something. -/
def define (name : String) (label : Label) : Assembling Unit := do
  match (← get).labels.get? name with
  | some _ => throw (.duplicateLabel name)
  | none => modify fun asm => { asm with labels := (name, label) :: asm.labels }

/-- Emit a word. -/
def emit (s : Slot) : Assembling Unit :=
  modify fun asm => { asm with slots := asm.slots.push s }

/-- Make an entry for a constant and give its index. -/
def addData (v : Value) : Assembling Int64 :=
  modifyGet fun asm => (Int64.ofNat asm.data.size, { asm with data := asm.data.push v })

/-- The integer that a payload denotes: itself, or what it stands for. -/
def payload? (asm : Assembler) (payload : String) : Option Int64 :=
  match Text.int64? payload with
  | some n => some n
  | none =>
    match asm.labels.get? payload with
    | some (.fixed n) => some n
    | _ => none

/-- What the value of a definition denotes. -/
def definition (value : String) : Assembling Label := do
  match Text.int64? value with
  | some n => pure (.fixed n)
  | none =>
    match (← get).labels.get? value with
    | some label => pure label
    | none => throw (.labelNotFound value)

/-- Take a word that is no directive. -/
def feedWord (s : String) : Assembling Unit := do
  match Text.dropLead? "$" s with
  | some payload =>
    match (← get).payload? payload with
    | some n => emit (.word (← addData (.number n)))
    | none => throw (.malformedOperand s)
  | none =>
    match Text.int64? s with
    | some n => emit (.word n)
    | none =>
      match Text.dropTail? ":" s with
      | some "" | none => emit (.delayed s)
      | some name => define name (.fixed (Int64.ofNat (← get).slots.size))

/-- Take tokens one by one. -/
def feedTokens : List Assembly.Token → Assembling Unit
  | [] => pure ()
  | .text s :: rest => do
    emit (.word (← addData (.text s)))
    feedTokens rest
  | .word "!define" _ :: name :: value :: rest => do
    define name.content (← definition value.content)
    feedTokens rest
  | .word "!define" line :: _ => throw (.incompleteDefine line)
  | .word s _ :: rest => do
    feedWord s
    feedTokens rest

/-- Take more text.  Text that cannot be divided into tokens is not taken at
all. -/
def feed (source : String) : Assembling Unit := do
  match Assembly.tokens source.toList with
  | .ok ts => feedTokens ts
  | .error e => throw e

/-- The word that finally stands in a slot. -/
def resolve (s : Slot) : Assembling Int64 := do
  match s with
  | .word w => pure w
  | .delayed name =>
    match (← get).labels.get? name with
    | some (.fixed n) => pure n
    | some (.data v) => addData v
    | none => throw (.labelNotFound name)

/-- Put the values of all names in their places.  Execution starts where the
entry name says. -/
def finish (entry : String) : Assembling Program := do
  let code ← (← get).slots.mapM resolve
  match (← get).labels.get? entry with
  | some (.fixed n) =>
    match Opcode.position? n with
    | some pc => return { code, data := (← get).data, entry := pc }
    | none => throw (.malformedOperand entry)
  | some (.data _) => throw (.malformedOperand entry)
  | none => throw (.labelNotFound entry)

/-- Assemble text in one go. -/
def assemble (source entry : String) : StateM Store (Except AssembleError Program) := do
  let asm ← new
  return ((do feed source; finish entry : Assembling Program) asm).1

end Assembler

end LispEngines
