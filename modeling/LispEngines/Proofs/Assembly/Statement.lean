import LispEngines.Assembly.Assembler
import Mathlib.Data.List.Infix

/-!
# What the tokens of a program say

The assembler decides what a token is as it meets it.  Here this is done beforehand: tokens are
read as `Statement`s, and what a statement does to a program under construction is a relation,
`Takes`, that knows of no errors.  Where the assembler succeeds it takes the statements one after
the other (`feeds_of_feed`).

The names that have been declared at some point are a function of the statements before it,
`namesAfter`.  This is the first pass of the assembler; that the names have the same values at the
end is `Feeds.extends`.
-/

namespace LispEngines

/-- The integer that a payload denotes where these names are known. -/
def Labels.integer? (ls : Labels) (payload : String) : Option Int64 :=
  match Text.int64? payload with
  | some n => some n
  | none =>
    match ls.get? payload with
    | some (.fixed n) => some n
    | _ => none

/-- What the value of a definition denotes where these names are known. -/
def Labels.denoted? (ls : Labels) (value : String) : Option Label :=
  match Text.int64? value with
  | some n => some (.fixed n)
  | none => ls.get? value

/-- The constant that a name stands for. -/
def Labels.constant? (ls : Labels) (name : String) : Option Value :=
  match ls.get? name with
  | some (.data v) => some v
  | _ => none

theorem Labels.get?_cons (ls : Labels) (name other : String) (l : Label) :
    Labels.get? ((name, l) :: ls) other = if name = other then some l else ls.get? other := by
  rw [get?, List.find?_cons]
  by_cases h : name = other
  · simp [h]
  · rw [if_neg h]
    have hb : (name == other) = false := by simpa using h
    rw [hb]
    rfl

namespace Assembly

/-- What a word, a string, or a `!define` with its two operands says. -/
inductive Statement where
  /-- A string: a constant. -/
  | text (s : String)
  /-- `$payload`: an integer constant. -/
  | constant (payload : String)
  /-- An integer: a word of the code. -/
  | literal (n : Int64)
  /-- Any other word: what the name stands for. -/
  | reference (name : String)
  /-- `name:`, the name of this position. -/
  | label (name : String)
  /-- `!define name value`. -/
  | definition (name value : String)
  deriving DecidableEq, Repr

namespace Statement

/-- What a word says. -/
def ofWord (s : String) : Statement :=
  match Text.dropLead? "$" s with
  | some payload => .constant payload
  | none =>
    match Text.int64? s with
    | some n => .literal n
    | none =>
      match Text.dropTail? ":" s with
      | some name => if name = "" then .reference s else .label name
      | none => .reference s

/-- Whether a statement emits a word. -/
def emits : Statement → Bool
  | .label _ | .definition .. => false
  | _ => true

/-- Whether a statement is a constant itself. -/
def isConstant : Statement → Bool
  | .text _ | .constant _ => true
  | _ => false

/-- Whether a statement is the use of a name for a constant. -/
def sharesConstant (ls : Labels) : Statement → Bool
  | .reference name => (ls.constant? name).isSome
  | _ => false

/-- The names after a statement, given the names and the number of words before it. -/
def declare (ls : Labels) (words : Nat) : Statement → Labels
  | .label name => (name, .fixed (Int64.ofNat words)) :: ls
  | .definition name value =>
    match ls.denoted? value with
    | some l => (name, l) :: ls
    | none => ls
  | _ => ls

end Statement

/-- What tokens say; nothing if a `!define` lacks an operand. -/
def statements : List Token → Option (List Statement)
  | [] => some []
  | .text s :: rest => (statements rest).map (.text s :: ·)
  | .word "!define" _ :: name :: value :: rest =>
    (statements rest).map (.definition name.content value.content :: ·)
  | .word "!define" _ :: _ => none
  | .word s _ :: rest => (statements rest).map (.ofWord s :: ·)

/-- The names after some statements, given the names and the number of words before them. -/
def namesAfter (ls : Labels) (words : Nat) : List Statement → Labels
  | [] => ls
  | s :: ss => namesAfter (s.declare ls words) (words + if s.emits then 1 else 0) ss

/-- A statement is taken into a program under construction. -/
inductive Takes : Statement → Assembler → Assembler → Prop
  | text (s : String) (asm : Assembler) :
      Takes (.text s) asm
        { asm with
          slots := asm.slots.push (.word (Int64.ofNat asm.data.size))
          data := asm.data.push (.text s) }
  | constant {payload : String} {n : Int64} {asm : Assembler}
      (hn : asm.labels.integer? payload = some n) :
      Takes (.constant payload) asm
        { asm with
          slots := asm.slots.push (.word (Int64.ofNat asm.data.size))
          data := asm.data.push (.number n) }
  | literal (n : Int64) (asm : Assembler) :
      Takes (.literal n) asm { asm with slots := asm.slots.push (.word n) }
  | reference (name : String) (asm : Assembler) :
      Takes (.reference name) asm { asm with slots := asm.slots.push (.delayed name) }
  | label {name : String} {asm : Assembler} (hf : asm.labels.get? name = none) :
      Takes (.label name) asm
        { asm with labels := (name, .fixed (Int64.ofNat asm.slots.size)) :: asm.labels }
  | definition {name value : String} {l : Label} {asm : Assembler}
      (hf : asm.labels.get? name = none) (hv : asm.labels.denoted? value = some l) :
      Takes (.definition name value) asm { asm with labels := (name, l) :: asm.labels }

/-- Statements are taken one after the other. -/
inductive Feeds : Assembler → List Statement → Assembler → Prop
  | nil {asm : Assembler} : Feeds asm [] asm
  | cons {s : Statement} {ss : List Statement} {a b c : Assembler} (ht : Takes s a b)
      (hf : Feeds b ss c) : Feeds a (s :: ss) c

/-- What is there stays there, and names keep their values. -/
structure Extends (a b : Assembler) : Prop where
  slots : a.slots.toList <+: b.slots.toList
  data : a.data.toList <+: b.data.toList
  labels : ∀ name l, a.labels.get? name = some l → b.labels.get? name = some l

theorem Extends.refl (a : Assembler) : Extends a a :=
  ⟨List.prefix_rfl, List.prefix_rfl, fun _ _ h => h⟩

theorem Extends.trans {a b c : Assembler} (h : Extends a b) (h' : Extends b c) : Extends a c :=
  ⟨h.slots.trans h'.slots, h.data.trans h'.data, fun name l hl => h'.labels name l (h.labels name l hl)⟩

/-- A name that is declared anew takes no other one's place. -/
theorem get?_of_fresh {ls : Labels} {name other : String} {l l' : Label}
    (hf : ls.get? name = none) (h : ls.get? other = some l') :
    Labels.get? ((name, l) :: ls) other = some l' := by
  rw [Labels.get?_cons, if_neg, h]
  rintro rfl
  cases hf.symm.trans h

section

variable {s : Statement} {ss : List Statement} {a b c : Assembler}

theorem Takes.extends (h : Takes s a b) : Extends a b := by
  cases h with
  | label hf => exact ⟨List.prefix_rfl, List.prefix_rfl, fun name l hl => get?_of_fresh hf hl⟩
  | definition hf hv => exact ⟨List.prefix_rfl, List.prefix_rfl, fun name l hl => get?_of_fresh hf hl⟩
  | _ => exact ⟨by simp, by simp, fun _ _ h => h⟩

theorem Takes.slots_size (h : Takes s a b) :
    b.slots.size = a.slots.size + if s.emits then 1 else 0 := by
  cases h <;> simp [Statement.emits]

theorem Takes.data_size (h : Takes s a b) :
    b.data.size = a.data.size + if s.isConstant then 1 else 0 := by
  cases h <;> simp [Statement.isConstant]

theorem Takes.labels_eq (h : Takes s a b) : b.labels = s.declare a.labels a.slots.size := by
  cases h with
  | definition hf hv =>
    rw [Statement.declare, hv]
  | _ => rfl

theorem Feeds.extends (h : Feeds a ss c) : Extends a c := by
  induction h with
  | nil => exact .refl _
  | cons ht _ ih => exact ht.extends.trans ih

theorem Feeds.slots_size (h : Feeds a ss c) :
    c.slots.size = a.slots.size + ss.countP Statement.emits := by
  induction h with
  | nil => rfl
  | cons ht _ ih =>
    rw [ih, ht.slots_size, List.countP_cons]
    omega

theorem Feeds.data_size (h : Feeds a ss c) :
    c.data.size = a.data.size + ss.countP Statement.isConstant := by
  induction h with
  | nil => rfl
  | cons ht _ ih =>
    rw [ih, ht.data_size, List.countP_cons]
    omega

theorem Feeds.labels_eq (h : Feeds a ss c) :
    c.labels = namesAfter a.labels a.slots.size ss := by
  induction h with
  | nil => rfl
  | cons ht _ ih => rw [ih, ht.labels_eq, ht.slots_size, namesAfter]

/-- The uses of names for constants are as many among the slots as among the statements. -/
theorem Feeds.countP_slots (h : Feeds a ss c) (ls : Labels) {f : Slot → Bool}
    (hw : ∀ w, f (.word w) = false)
    (hd : ∀ name, f (.delayed name) = (ls.constant? name).isSome) :
    c.slots.toList.countP f = a.slots.toList.countP f + ss.countP (Statement.sharesConstant ls) := by
  have htake {s : Statement} {a b : Assembler} (ht : Takes s a b) : b.slots.toList.countP f =
      a.slots.toList.countP f + if s.sharesConstant ls then 1 else 0 := by
    cases ht <;> simp only [Array.toList_push, List.countP_append, List.countP_singleton, hw, hd] <;>
      rfl
  induction h with
  | nil => rfl
  | cons ht _ ih =>
    rw [ih, htake ht, List.countP_cons]
    omega

/-- When a list of statements is taken, each of its beginnings is. -/
theorem Feeds.split : ∀ {pre : List Statement} {a : Assembler}, Feeds a (pre ++ ss) c →
    ∃ b, Feeds a pre b ∧ Feeds b ss c
  | [], a, h => ⟨a, .nil, h⟩
  | _ :: pre, _, .cons ht h =>
    have ⟨b, hb, hc⟩ := @Feeds.split pre _ h
    ⟨b, .cons ht hb, hc⟩

/-- The moment in which a statement is taken. -/
theorem Feeds.moment (h : Feeds a ss c) {i : Nat} (hi : ss[i]? = some s) :
    ∃ b b', Feeds a (ss.take i) b ∧ Takes s b b' ∧ Extends b' c := by
  obtain ⟨hl, hs⟩ := List.getElem?_eq_some_iff.mp hi
  have he : ss = ss.take i ++ s :: ss.drop (i + 1) := by
    rw [← hs, ← List.drop_eq_getElem_cons hl, List.take_append_drop]
  rw [he] at h
  obtain ⟨b, hb, hc⟩ := h.split
  cases hc with
  | cons ht hc => exact ⟨b, _, hb, ht, hc.extends⟩

end

/-! ## Where the assembler succeeds -/

open Assembler

variable {asm asm' : Assembler}

theorem bind_ok {α β : Type} {x : Assembling α} {a : α} (h : x asm = (.ok a, asm'))
    (f : α → Assembling β) : (x >>= f) asm = f a asm' := by
  show (match x asm with | (r, asm) => ExceptT.bindCont f r asm) = _
  rw [h]
  rfl

theorem bind_eq_ok {α β : Type} {x : Assembling α} {f : α → Assembling β} {b : β}
    (h : (x >>= f) asm = (.ok b, asm')) :
    ∃ a asm₁, x asm = (.ok a, asm₁) ∧ f a asm₁ = (.ok b, asm') := by
  change (match x asm with | (r, asm) => ExceptT.bindCont f r asm) = _ at h
  rcases hx : x asm with ⟨e | a, asm₁⟩ <;> rw [hx] at h
  · cases h
  · exact ⟨a, asm₁, rfl, h⟩

theorem takes_of_define {name : String} {l : Label}
    (h : define name l asm = (.ok (), asm')) :
    asm.labels.get? name = none ∧ asm' = { asm with labels := (name, l) :: asm.labels } := by
  change (match asm.labels.get? name with
    | some _ => throw (.duplicateLabel name)
    | none => modify fun asm => { asm with labels := (name, l) :: asm.labels } :
      Assembling Unit) asm = _ at h
  rcases hg : asm.labels.get? name with _ | _ <;> rw [hg] at h <;> cases h
  exact ⟨rfl, rfl⟩

theorem definition_ok {value : String} {l : Label} (h : definition value asm = (.ok l, asm')) :
    asm.labels.denoted? value = some l ∧ asm' = asm := by
  rw [definition] at h
  rw [Labels.denoted?]
  rcases hn : Text.int64? value with _ | n
  · rw [hn] at h
    change (match asm.labels.get? value with
      | some label => pure label
      | none => throw (.labelNotFound value) : Assembling Label) asm = _ at h
    rcases hg : asm.labels.get? value with _ | l' <;> rw [hg] at h <;> cases h
    exact ⟨rfl, rfl⟩
  · rw [hn] at h
    cases h
    exact ⟨rfl, rfl⟩

theorem takes_of_feedWord {s : String} (h : feedWord s asm = (.ok (), asm')) :
    Takes (.ofWord s) asm asm' := by
  rw [feedWord] at h
  rw [Statement.ofWord]
  rcases hp : Text.dropLead? "$" s with _ | payload <;> rw [hp] at h
  · rcases hn : Text.int64? s with _ | n <;> rw [hn] at h
    · rcases ht : Text.dropTail? ":" s with _ | name <;> rw [ht] at h
      · cases h
        exact .reference s asm
      · dsimp only
        by_cases hname : name = ""
        · rw [if_pos hname]
          subst hname
          cases h
          exact .reference s asm
        · simp only at h
          rw [if_neg hname]
          obtain ⟨hf, rfl⟩ := takes_of_define h
          exact .label hf
    · cases h
      exact .literal n asm
  · change (match asm.payload? payload with
      | some n => do emit (.word (← addData (.number n)))
      | none => throw (.malformedOperand s) : Assembling Unit) asm = _ at h
    rcases hn : asm.payload? payload with _ | n <;> rw [hn] at h <;> cases h
    exact .constant hn

theorem feedTokens_word {s : String} (hs : s ≠ "!define") (k : Nat) (rest : List Token) :
    feedTokens (.word s k :: rest) = (do feedWord s; feedTokens rest) := by
  rw [feedTokens]
  · exact fun _ _ _ _ => hs
  · exact hs

theorem feeds_of_feedTokens : ∀ {ts : List Token} {asm : Assembler},
    feedTokens ts asm = (.ok (), asm') → ∃ ss, statements ts = some ss ∧ Feeds asm ss asm'
  | [], asm, h => by
    cases h
    exact ⟨[], rfl, .nil⟩
  | .text s :: rest, asm, h => by
    obtain ⟨ss, hs, hf⟩ := @feeds_of_feedTokens rest { asm with
      slots := asm.slots.push (.word (Int64.ofNat asm.data.size))
      data := asm.data.push (.text s) } h
    exact ⟨.text s :: ss, by rw [statements, hs]; rfl, .cons (.text s asm) hf⟩
  | .word s line :: rest, asm, h => by
    by_cases hs : s = "!define"
    · subst hs
      match rest, h with
      | [], h => cases h
      | [_], h => cases h
      | name :: value :: rest, h =>
        obtain ⟨l, asm₁, hv, h⟩ := bind_eq_ok h
        obtain ⟨_, asm₂, hd, h⟩ := bind_eq_ok h
        obtain ⟨hl, rfl⟩ := definition_ok hv
        obtain ⟨hf, rfl⟩ := takes_of_define hd
        obtain ⟨ss, hss, hfeeds⟩ := feeds_of_feedTokens h
        exact ⟨.definition name.content value.content :: ss, by rw [statements, hss]; rfl,
          .cons (.definition hf hl) hfeeds⟩
    · rw [feedTokens] at h
      · obtain ⟨_, asm₁, hw, h⟩ := bind_eq_ok h
        obtain ⟨ss, hss, hfeeds⟩ := feeds_of_feedTokens h
        refine ⟨.ofWord s :: ss, ?_, .cons (takes_of_feedWord hw) hfeeds⟩
        rw [statements, hss, Option.map_some]
        · exact fun _ _ _ _ => hs
        · exact hs
      · exact fun _ _ _ _ => hs
      · exact hs

/-- Where the assembler takes a text, it takes the statements that the text consists of. -/
theorem feeds_of_feed {source : String} (h : feed source asm = (.ok (), asm')) :
    ∃ ts ss, tokens source.toList = .ok ts ∧ statements ts = some ss ∧ Feeds asm ss asm' := by
  rw [feed] at h
  rcases ht : tokens source.toList with e | ts <;> rw [ht] at h
  · cases h
  · obtain ⟨ss, hs, hf⟩ := feeds_of_feedTokens h
    exact ⟨ts, ss, rfl, hs, hf⟩

end Assembly

end LispEngines
