import LispEngines.Assembly.Assembler

/-!
# Drafts

A long text is assembled quickly where names are numbers, because numbers are quick to
compare.  A draft is a program under construction of that kind, and work on a draft that
succeeds is what the assembler does (`Drafting.Does`).
-/

namespace LispEngines

/-- The number of a name. -/
def nameCode : List Char → Nat
  | [] => 0
  | c :: cs => nameCode cs * 0x110000 + (c.toNat + 1)

theorem nameCode_inj : ∀ {cs ds : List Char}, nameCode cs = nameCode ds ↔ cs = ds
  | [], [] => by simp
  | [], d :: ds => iff_of_false (by rw [nameCode, nameCode]; omega) nofun
  | c :: cs, [] => iff_of_false (by rw [nameCode, nameCode]; omega) nofun
  | c :: cs, d :: ds => by
    have hlt (e : Char) : e.toNat < 0x110000 := by
      have h : Nat.isValidChar e.toNat := e.valid
      unfold Nat.isValidChar at h
      omega
    have hc := hlt c
    have hd := hlt d
    rw [nameCode, nameCode, List.cons.injEq, ← @nameCode_inj cs ds]
    generalize nameCode cs = m, nameCode ds = n
    constructor
    · intro h
      exact ⟨Char.toNat_inj.mp (by omega), by omega⟩
    · rintro ⟨rfl, h⟩
      rw [h]

/-- A program under construction whose names are numbers.  What came last is first. -/
structure Draft where
  labels : List (Nat × Label)
  slots : List (Nat ⊕ Int64)
  data : List Value

/-- Work on a draft.  It does not tell why it fails. -/
abbrev Drafting := StateT Draft Option

namespace Draft

/-- What a name stands for. -/
def get? (d : Draft) (n : Nat) : Option Label := (d.labels.find? (·.1 == n)).map (·.2)

/-- Let a name stand for something. -/
def define (n : Nat) (label : Label) : Drafting Unit := do
  match (← get).get? n with
  | some _ => failure
  | none => modify fun d => { d with labels := (n, label) :: d.labels }

/-- Emit a word. -/
def emit (s : Nat ⊕ Int64) : Drafting Unit := modify fun d => { d with slots := s :: d.slots }

/-- Make an entry for a constant and give its index. -/
def addData (v : Value) : Drafting Int64 :=
  modifyGet fun d => (Int64.ofNat d.data.length, { d with data := v :: d.data })

/-- Read a signed 64-bit integer. -/
def int64? (cs : List Char) : Option Int64 :=
  (match cs with
  | '-' :: cs => (Text.digits? cs).map fun n => -(n : Int)
  | '+' :: cs => (Text.digits? cs).map Int.ofNat
  | cs => (Text.digits? cs).map Int.ofNat).bind Text.signed64?

/-- The integer that a payload denotes. -/
def payload? (d : Draft) (cs : List Char) : Option Int64 :=
  match int64? cs with
  | some n => some n
  | none =>
    match d.get? (nameCode cs) with
    | some (.fixed n) => some n
    | _ => none

/-- Take a word that is no directive. -/
def feedWord (cs : List Char) : Drafting Unit := do
  match Text.afterLead? ['$'] cs with
  | some payload =>
    match (← get).payload? payload with
    | some n => emit (.inr (← addData (.number n)))
    | none => failure
  | none =>
    match int64? cs with
    | some n => emit (.inr n)
    | none =>
      match Text.afterLead? [':'] cs.reverse with
      | some [] | none => emit (.inl (nameCode cs))
      | some name => define (nameCode name.reverse) (.fixed (Int64.ofNat (← get).slots.length))

/-- Take tokens one by one.  There may be no definitions. -/
def feedTokens : List Assembly.Token → Drafting Unit
  | [] => pure ()
  | .text s :: rest => do
    emit (.inr (← addData (.text s)))
    feedTokens rest
  | .word s _ :: rest => do
    if s = "!define" then failure
    feedWord s.toList
    feedTokens rest

/-- Take the text that consists of some characters. -/
def feed (source : List Char) : Drafting Unit :=
  match Assembly.tokens source with
  | .ok ts => feedTokens ts
  | .error _ => failure

/-- The word that finally stands in a slot. -/
def resolve (s : Nat ⊕ Int64) : Drafting Int64 := do
  match s with
  | .inr w => pure w
  | .inl n =>
    match (← get).get? n with
    | some (.fixed n) => pure n
    | some (.data v) => addData v
    | none => failure

/-- Put the values of all names in their places. -/
def finish (entry : List Char) : Drafting Program := do
  let code ← (← get).slots.reverse.mapM resolve
  match (← get).get? (nameCode entry) with
  | some (.fixed n) =>
    match Opcode.position? n with
    | some pc => return { code := code.toArray, data := (← get).data.reverse.toArray, entry := pc }
    | none => failure
  | _ => failure

end Draft

/-- A slot whose name is a number. -/
def Slot.coded : Slot → Nat ⊕ Int64
  | .word w => .inr w
  | .delayed name => .inl (nameCode name.toList)

/-- The draft of a program under construction. -/
def Assembler.draft (asm : Assembler) : Draft where
  labels := asm.labels.map fun p => (nameCode p.1.toList, p.2)
  slots := (asm.slots.toList.map Slot.coded).reverse
  data := asm.data.toList.reverse

/-- Where work on a draft succeeds, the assembler does the same. -/
def Drafting.Does {α : Type} (f : Drafting α) (x : Assembling α) : Prop :=
  ∀ asm a d, f asm.draft = some (a, d) → ∃ asm', x asm = (.ok a, asm') ∧ asm'.draft = d

namespace Drafting.Does

variable {α β : Type} {f : Drafting α} {x : Assembling α}

theorem bind {g : α → Drafting β} {y : α → Assembling β} (hf : Does f x)
    (hg : ∀ a, Does (g a) (y a)) : Does (f >>= g) (x >>= y) := by
  intro asm b d h
  obtain ⟨⟨a, d₁⟩, h₁, h₂⟩ := Option.bind_eq_some_iff.mp h
  obtain ⟨asm₁, hx, rfl⟩ := hf asm a d₁ h₁
  obtain ⟨asm₂, hy, hd⟩ := hg a asm₁ b d h₂
  refine ⟨asm₂, ?_, hd⟩
  show (match x asm with | (r, asm) => ExceptT.bindCont y r asm) = _
  rw [hx]
  exact hy

theorem get {g : Draft → Drafting β} {y : Assembler → Assembling β}
    (h : ∀ asm, Does (g asm.draft) (y asm)) : Does (get >>= g) (get >>= y) :=
  fun asm => h asm asm

theorem failure : Does failure x := nofun

theorem pure (a : α) : Does (pure a) (pure a) := by
  rintro asm b d h
  cases h
  exact ⟨asm, rfl, rfl⟩

end Drafting.Does

namespace Assembler

open Drafting (Does)

@[simp] theorem get?_draft (asm : Assembler) (name : String) :
    asm.draft.get? (nameCode name.toList) = asm.labels.get? name := by
  have h : (fun p : String × Label => nameCode p.1.toList == nameCode name.toList) =
      (·.1 == name) := by
    funext p
    rw [Bool.eq_iff_iff, beq_iff_eq, beq_iff_eq, nameCode_inj, String.toList_inj]
  simp only [Draft.get?, draft, Labels.get?, List.find?_map, Option.map_map]
  show ((asm.labels.find? fun p : String × Label =>
    nameCode p.1.toList == nameCode name.toList).map _) = _
  rw [h]
  rfl

@[simp] theorem int64?_draft (s : String) : Draft.int64? s.toList = Text.int64? s := rfl

@[simp] theorem payload?_draft (asm : Assembler) (s : String) :
    asm.draft.payload? s.toList = asm.payload? s := by
  rw [Draft.payload?, int64?_draft, get?_draft]
  rfl

theorem does_define (name : String) (label : Label) :
    Does (Draft.define (nameCode name.toList) label) (define name label) := by
  refine .get fun asm => ?_
  rw [get?_draft]
  cases asm.labels.get? name with
  | some _ => exact .failure
  | none =>
    rintro asm' _ _ ⟨⟩
    exact ⟨_, rfl, rfl⟩

theorem does_emit (s : Slot) : Does (Draft.emit s.coded) (emit s) := by
  rintro asm _ _ ⟨⟩
  refine ⟨_, rfl, ?_⟩
  simp [draft]

theorem does_addData (v : Value) : Does (Draft.addData v) (addData v) := by
  rintro asm _ _ ⟨⟩
  refine ⟨{ asm with data := asm.data.push v }, ?_, ?_⟩
  · show (_, _) = (Except.ok (Int64.ofNat asm.data.toList.reverse.length), _)
    rw [List.length_reverse, Array.length_toList]
  · simp [draft]

theorem does_constant (v : Value) :
    Does (do Draft.emit (.inr (← Draft.addData v))) (do emit (.word (← addData v))) :=
  (does_addData v).bind fun n => does_emit (.word n)

theorem does_feedWord (s : String) : Does (Draft.feedWord s.toList) (feedWord s) := by
  have hlead : Text.dropLead? "$" s = (Text.afterLead? ['$'] s.toList).map String.ofList := rfl
  have htail : Text.dropTail? ":" s =
      (Text.afterLead? [':'] s.toList.reverse).map fun cs => String.ofList cs.reverse := rfl
  rw [feedWord, Draft.feedWord, hlead, htail, int64?_draft]
  rcases Text.afterLead? ['$'] s.toList with _ | payload
  · rcases Text.int64? s with _ | n
    · rcases Text.afterLead? [':'] s.toList.reverse with _ | (_ | ⟨c, name⟩)
      · exact does_emit (.delayed s)
      · exact does_emit (.delayed s)
      · have hne : String.ofList (c :: name).reverse ≠ "" := by simp
        simp only [Option.map_some]
        refine .get fun asm => ?_
        have hn : asm.draft.slots.length = asm.slots.size := by simp [draft]
        rw [hn]
        have hd := does_define (String.ofList (c :: name).reverse)
          (.fixed (Int64.ofNat asm.slots.size))
        rwa [String.toList_ofList] at hd
    · exact does_emit (.word n)
  · refine .get fun asm => ?_
    have hp := payload?_draft asm (String.ofList payload)
    rw [String.toList_ofList] at hp
    rw [hp]
    rcases asm.payload? (String.ofList payload) with _ | n
    · exact .failure
    · exact does_constant (.number n)

theorem does_feedTokens : ∀ ts : List Assembly.Token,
    Does (Draft.feedTokens ts) (feedTokens ts) := by
  intro ts
  induction ts with
  | nil => exact .pure ()
  | cons t ts ih =>
    cases t with
    | text s => exact (does_constant (.text s)).bind fun _ => ih
    | word s line =>
      by_cases hs : s = "!define"
      · rw [Draft.feedTokens, if_pos hs]
        exact .failure
      · rw [Draft.feedTokens, if_neg hs, feedTokens]
        · exact (does_feedWord s).bind fun _ => ih
        · exact fun _ _ _ _ => hs
        · exact hs

theorem does_feed (source : String) : Does (Draft.feed source.toList) (feed source) := by
  rw [feed, Draft.feed]
  cases Assembly.tokens source.toList with
  | ok ts => exact does_feedTokens ts
  | error e => exact .failure

theorem does_resolve (s : Slot) : Does (Draft.resolve s.coded) (resolve s) := by
  cases s with
  | word w => exact .pure w
  | delayed name =>
    refine .get fun asm => ?_
    rw [get?_draft]
    rcases asm.labels.get? name with _ | (n | v)
    · exact .failure
    · exact .pure n
    · exact does_addData v

theorem does_mapM : ∀ ss : List Slot,
    Does ((ss.map Slot.coded).mapM Draft.resolve) (ss.mapM resolve)
  | [] => .pure []
  | s :: ss => by
    rw [List.map_cons, List.mapM_cons, List.mapM_cons]
    exact (does_resolve s).bind fun w => (does_mapM ss).bind fun ws => .pure (w :: ws)

theorem does_finish (entry : String) : Does (Draft.finish entry.toList) (finish entry) := by
  refine .get fun asm => ?_
  rw [Array.mapM_eq_mapM_toList, map_eq_pure_bind, bind_assoc]
  have hs : asm.draft.slots.reverse = asm.slots.toList.map Slot.coded := List.reverse_reverse _
  rw [hs]
  refine (does_mapM _).bind fun ws => ?_
  rw [pure_bind]
  refine .get fun asm => ?_
  rw [get?_draft]
  rcases asm.labels.get? entry with _ | (n | v)
  · exact .failure
  · dsimp only
    cases Opcode.position? n with
    | none => exact .failure
    | some pc =>
      refine .get fun asm => ?_
      have hd : asm.draft.data.reverse.toArray = asm.data := by simp [draft]
      rw [hd]
      exact .pure _
  · exact .failure

end Assembler

end LispEngines
