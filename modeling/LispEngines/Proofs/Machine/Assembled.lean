import LispEngines.Proofs.Assembly.Draft
import LispEngines.Proofs.Machine.Evaluator

/-!
# Assembling the evaluator

The assembler turns the text of the evaluator into the program that
`Machine.Evaluator.program` shows.  The program refers to one empty list, which the
assembler allocates, so its address is not known beforehand.  That does not matter:
assembling does the same with every address (`Assembler.Moves`).
-/

namespace LispEngines

namespace Assembler

variable (empty : ListRef)

/-- A constant in which the empty list has another address. -/
def moved : Value → Value
  | .list _ => .list empty
  | v => v

/-- What a name stands for when the empty list has another address. -/
def movedLabel : Label → Label
  | .data v => .data (moved empty v)
  | .fixed n => .fixed n

/-- A program under construction with another address for the empty list. -/
def movedTo (asm : Assembler) : Assembler where
  labels := asm.labels.map fun p => (p.1, movedLabel empty p.2)
  slots := asm.slots
  data := asm.data.map (moved empty)

/-- A program with another address for the empty list. -/
def movedProgram (p : Program) : Program := { p with data := p.data.map (moved empty) }

/-- Two pieces of work differ in nothing but the address of the empty list: what comes of
the second is what comes of the first, with its value changed by `g`. -/
def Moves {α : Type} (g : α → α) (x y : Assembling α) : Prop :=
  ∀ asm : Assembler, y (asm.movedTo empty) = ((x asm).1.map g, (x asm).2.movedTo empty)

variable {empty} {α β : Type} {g : α → α} {h : β → β}

namespace Moves

theorem bind {x y : Assembling α} {f f' : α → Assembling β} (hx : Moves empty g x y)
    (hf : ∀ a, Moves empty h (f a) (f' (g a))) : Moves empty h (x >>= f) (y >>= f') := by
  intro asm
  show (match y (asm.movedTo empty) with | (r, asm) => ExceptT.bindCont f' r asm) = _
  rw [hx asm]
  show _ = ((match x asm with | (r, asm) => ExceptT.bindCont f r asm).1.map h,
    (match x asm with | (r, asm) => ExceptT.bindCont f r asm).2.movedTo empty)
  rcases x asm with ⟨e | a, asm'⟩
  · rfl
  · exact hf a asm'

theorem get {f f' : Assembler → Assembling β}
    (hf : ∀ asm, Moves empty h (f asm) (f' (asm.movedTo empty))) :
    Moves empty h (get >>= f) (get >>= f') := fun asm => hf asm asm

theorem pure (a : α) : Moves empty g (pure a) (pure (g a)) := fun _ => rfl

theorem throw (e : AssembleError) : Moves empty g (throw e) (throw e) := fun _ => rfl

end Moves

@[simp] theorem get?_movedTo (asm : Assembler) (name : String) :
    (asm.movedTo empty).labels.get? name = (asm.labels.get? name).map (movedLabel empty) := by
  simp only [Labels.get?, movedTo, List.find?_map, Option.map_map]
  rfl

@[simp] theorem payload?_movedTo (asm : Assembler) (s : String) :
    (asm.movedTo empty).payload? s = asm.payload? s := by
  rw [payload?, payload?, get?_movedTo]
  rcases asm.labels.get? s with _ | (_ | _) <;> rfl

theorem moves_define (name : String) (l : Label) :
    Moves empty id (define name l) (define name (movedLabel empty l)) := by
  refine .get fun asm => ?_
  rw [get?_movedTo]
  cases asm.labels.get? name with
  | some _ => exact .throw _
  | none => exact fun _ => rfl

theorem moves_emit (s : Slot) : Moves empty id (emit s) (emit s) := fun _ => rfl

theorem moves_addData (v : Value) :
    Moves empty id (addData v) (addData (moved empty v)) := by
  intro asm
  show (Except.ok (Int64.ofNat (asm.data.map (moved empty)).size),
    { asm.movedTo empty with data := (asm.data.map (moved empty)).push (moved empty v) }) = _
  rw [Array.size_map, ← Array.map_push]
  rfl

theorem moves_definition (value : String) :
    Moves empty (movedLabel empty) (definition value) (definition value) := by
  rw [definition]
  cases Text.int64? value with
  | some n => exact .pure (Label.fixed n)
  | none =>
    refine .get fun asm => ?_
    rw [get?_movedTo]
    cases asm.labels.get? value with
    | some l => exact .pure l
    | none => exact .throw _

theorem moves_feedWord (s : String) : Moves empty id (feedWord s) (feedWord s) := by
  rw [feedWord]
  cases Text.dropLead? "$" s with
  | some payload =>
    refine .get fun asm => ?_
    rw [payload?_movedTo]
    cases asm.payload? payload with
    | some n => exact (moves_addData (.number n)).bind fun _ => moves_emit _
    | none => exact .throw _
  | none =>
    cases Text.int64? s with
    | some n => exact moves_emit _
    | none =>
      dsimp only
      split
      · exact moves_emit _
      · exact moves_emit _
      · exact .get fun asm => moves_define _ (.fixed _)

theorem moves_feedTokens : ∀ ts : List Assembly.Token,
    Moves empty id (feedTokens ts) (feedTokens ts) := by
  intro ts
  fun_induction feedTokens ts with
  | case1 => exact .pure ()
  | case2 s rest ih =>
    exact (moves_addData (.text s)).bind fun _ => (moves_emit _).bind fun _ => ih
  | case3 line name value rest ih =>
    exact (moves_definition _).bind fun l => (moves_define _ l).bind fun _ => ih
  | case4 => exact .throw _
  | case5 s line rest _ _ ih => exact (moves_feedWord s).bind fun _ => ih

theorem moves_feed (source : String) : Moves empty id (feed source) (feed source) := by
  rw [feed]
  split
  · exact moves_feedTokens _
  · exact .throw _

theorem moves_resolve (s : Slot) : Moves empty id (resolve s) (resolve s) := by
  cases s with
  | word w => exact .pure w
  | delayed name =>
    refine .get fun asm => ?_
    rw [get?_movedTo]
    rcases asm.labels.get? name with _ | (n | v)
    · exact .throw _
    · exact .pure n
    · exact moves_addData v

theorem moves_mapM {f : α → Assembling β} (hf : ∀ a, Moves empty id (f a) (f a)) :
    ∀ as : List α, Moves empty id (as.mapM f) (as.mapM f)
  | [] => .pure []
  | a :: as => by
    rw [List.mapM_cons]
    exact (hf a).bind fun b => (moves_mapM hf as).bind fun bs => .pure (b :: bs)

theorem moves_finish (entry : String) :
    Moves empty (movedProgram empty) (finish entry) (finish entry) := by
  refine .get fun asm => ?_
  have hm : Moves empty id (asm.slots.mapM resolve) (asm.slots.mapM resolve) := by
    rw [Array.mapM_eq_mapM_toList, map_eq_pure_bind]
    exact (moves_mapM moves_resolve _).bind fun ws => .pure ws.toArray
  refine hm.bind fun code => .get fun asm => ?_
  rw [get?_movedTo]
  rcases asm.labels.get? entry with _ | (n | v)
  · exact .throw _
  · dsimp only [Option.map, movedLabel]
    cases Opcode.position? n with
    | none => exact .throw _
    | some pc => exact .get fun asm => .pure { code, data := asm.data, entry := pc : Program }
  · exact .throw _

/-- Assembling in any store gives what it gives with the empty list at address zero, up to
that address. -/
theorem assemble_moved {source entry : String} {p : Program} {out : Assembler} (st : Store)
    (h : (do feed source; finish entry : Assembling Program) { labels := predefined ⟨0⟩ } =
      (.ok p, out)) :
    (assemble source entry st).1 = .ok (movedProgram ⟨st.lists.size⟩ p) := by
  have hm : Moves ⟨st.lists.size⟩ (movedProgram ⟨st.lists.size⟩)
      (do feed source; finish entry) (do feed source; finish entry) :=
    (moves_feed source).bind fun _ => moves_finish entry
  have hn : ({ labels := predefined ⟨0⟩ } : Assembler).movedTo ⟨st.lists.size⟩ =
      { labels := predefined ⟨st.lists.size⟩ } := by
    simp [movedTo, predefined, movedLabel, moved, Value.ofBool]
    rfl
  show ((do feed source; finish entry : Assembling Program)
    { labels := predefined ⟨st.lists.size⟩ }).1 = _
  rw [← hn, hm, h]
  rfl

/-- What drafting a text gives, assembling gives. -/
theorem assemble_of_drafting {source entry : String} {p : Program} {d : Draft} (st : Store)
    (h : (do Draft.feed source.toList; Draft.finish entry.toList : Drafting Program)
      ({ labels := predefined ⟨0⟩ } : Assembler).draft = some (p, d)) :
    (assemble source entry st).1 = .ok (movedProgram ⟨st.lists.size⟩ p) := by
  obtain ⟨asm, ha, -⟩ := (does_feed source).bind (fun _ => does_finish entry) _ p d h
  exact assemble_moved st ha

end Assembler

/-- Whether two programs are the same. -/
def Program.sameAs (p q : Program) : Bool :=
  p.code.toList == q.code.toList && p.data.toList == q.data.toList && p.entry == q.entry

theorem Program.eq_of_sameAs {p q : Program} (h : p.sameAs q = true) : p = q := by
  obtain ⟨code, data, entry⟩ := p
  obtain ⟨code', data', entry'⟩ := q
  simp only [sameAs, Bool.and_eq_true, beq_iff_eq] at h
  obtain ⟨⟨hc, hd⟩, rfl⟩ := h
  rw [Array.toList_inj.mp hc, Array.toList_inj.mp hd]

namespace Machine.Evaluator

theorem movedProgram_program (empty : ListRef) :
    Assembler.movedProgram empty (program ⟨0⟩) = program empty := by
  simp [Assembler.movedProgram, program, constants, Assembler.moved, Value.ofBool]

-- The text is split into its characters first, since the kernel computes with these.
set_option maxRecDepth 20000 in
theorem drafting_text : ∃ cs, evaluatorText = String.ofList cs ∧
    ((do Draft.feed cs; Draft.finish "main".toList : Drafting Program)
      ({ labels := Assembler.predefined ⟨0⟩ } : Assembler).draft).any
        (·.1.sameAs (program ⟨0⟩)) = true :=
  ⟨_, rfl, by decide +kernel⟩

/-- Assembling the text of the evaluator gives the evaluator. -/
theorem assemble_evaluatorText (st : Store) :
    (Assembler.assemble evaluatorText "main" st).1 = .ok (program ⟨st.lists.size⟩) := by
  obtain ⟨cs, hcs, ht⟩ := drafting_text
  obtain ⟨⟨p, d⟩, hd, hp : p.sameAs (program ⟨0⟩) = true⟩ := (Option.any_eq_true _ _).mp ht
  have hcs' : cs = evaluatorText.toList := by rw [hcs, String.toList_ofList]
  rw [hcs'] at hd
  rw [Assembler.assemble_of_drafting st hd, Program.eq_of_sameAs hp, movedProgram_program]

end Machine.Evaluator

end LispEngines
