import LispEngines.Proofs.Assembly.Reference
import LispEngines.Proofs.Machine.View
import LispEngines.Proofs.Store.Tidy
import Mathlib

/-!
# What becomes of a program that runs

A machine never writes to its program: code and constants are the same values after any
number of instructions.  A constant that is a list is another matter, because the value is
only the address of the list, and `CELLPUSH` extends a list in place.  It is the only
instruction that changes a list (`Machine.quiet_execute`), so a list has grown at its end by
exactly what the executed `CELLPUSH` put there (`Machine.image_of_run`).

All uses of a name for a constant share that constant (`Assembler.constant_of_finish`).
Therefore a program can change a constant for all its uses, and for the next machine with
the same program.
-/

namespace LispEngines

namespace Machine

/-! ## Instructions that leave the lists alone -/

variable {α β : Type}

/-- Work that leaves the program and every list as they are, whether it succeeds or not. -/
def Quiet (x : Step Machine α) : Prop :=
  ∀ m st, (x m st).1.2.program = m.program ∧ st.KeepsLists (x m st).2

theorem Looks.quiet {x : Step Machine α} (h : Looks x) : Quiet x := by
  intro m st
  obtain ⟨hm, hs⟩ := h m st
  rw [hm, hs]
  exact ⟨rfl, .refl st⟩

namespace Quiet

theorem bind {x : Step Machine α} {f : α → Step Machine β} (hx : Quiet x)
    (hf : ∀ a, Quiet (f a)) : Quiet (x >>= f) := by
  intro m st
  obtain ⟨hp, hk⟩ := hx m st
  rw [Step.bind_apply]
  rcases h : x m st with ⟨⟨e | a, m₁⟩, st₁⟩ <;> rw [h] at hp hk
  · exact ⟨hp, hk⟩
  · exact ⟨(hf a m₁ st₁).1.trans hp, hk.trans (hf a m₁ st₁).2⟩

theorem pure (a : α) : Quiet (pure a) := fun _ st => ⟨rfl, .refl st⟩

theorem throw (e : Failure) : Quiet (throw e : Step Machine α) := fun _ st => ⟨rfl, .refl st⟩

theorem get : Quiet get := fun _ st => ⟨rfl, .refl st⟩

theorem getStore : Quiet (getThe Store) := fun _ st => ⟨rfl, .refl st⟩

theorem modify {f : Machine → Machine} (h : ∀ m, (f m).program = m.program) :
    Quiet (modify f) :=
  fun m st => ⟨h m, .refl st⟩

theorem act {a : Action α} (h : ∀ st : Store, st.KeepsLists (a st).2) : Quiet (Step.act a) :=
  fun _ st => ⟨rfl, h st⟩

theorem plain {a : Action α} (h : a.Plain) : Quiet (Step.act a) := act h.keepsLists

end Quiet

theorem quiet_setSlot (i : Nat) (v : Value) : Quiet (setSlot i v) := by
  refine .bind .get fun m => ?_
  split
  · exact .modify fun _ => rfl
  · exact (looks_fault _).quiet

theorem quiet_setTop (v : Value) : Quiet (setTop v) := .bind .get fun _ => quiet_setSlot _ v

theorem quiet_push (v : Value) : Quiet (push v) := by
  refine .bind .get fun m => ?_
  split
  · exact (looks_fault _).quiet
  · exact .bind (.modify fun _ => rfl) fun _ => quiet_setSlot _ v

theorem quiet_pop : Quiet pop :=
  .bind looks_top.quiet fun _ => .bind (.modify fun _ => rfl) fun _ => .pure _

theorem quiet_fetch : Quiet fetch := by
  refine .bind .get fun _ => .bind .get fun _ => ?_
  split
  · exact .bind (.modify fun _ => rfl) fun _ => .pure _
  · exact (looks_fault _).quiet

theorem quiet_setA (v : Value) : Quiet (setA v) := .modify fun _ => rfl

theorem quiet_emit (text : String) : Quiet (emit text) := by
  refine .act fun st => ?_
  rw [Action.write]
  split <;> exact .of_lists_eq rfl

theorem quiet_comparison (op : Comparison) (keep : Bool) : Quiet (comparison op keep) := by
  refine .bind ?_ fun left => .bind .get fun m =>
    .bind (.plain (Value.adds_compare op left m.a).plain) fun _ => quiet_setA _
  cases keep
  · exact quiet_pop
  · exact looks_top.quiet

theorem quiet_equality (wanted keep : Bool) : Quiet (equality wanted keep) := by
  refine .bind ?_ fun _ => .bind .get fun _ => .bind .getStore fun _ => quiet_setA _
  cases keep
  · exact quiet_pop
  · exact looks_top.quiet

theorem quiet_jumpIf (test : Int64 → Bool) (n : Int64) : Quiet (jumpIf test n) := by
  refine .bind .get fun m => ?_
  split
  · exact .bind (looks_target n).quiet fun _ => .modify fun _ => rfl
  · exact .pure _

theorem quiet_invoke (callee : Value) (args : List Value) (scope : Value) :
    Quiet (invoke callee args scope) := by
  cases callee with
  | native p => exact .plain (p.plain_call args)
  | scopeNative p => exact .bind (looks_scopeOf _ _).quiet fun s => .plain (p.plain_call args s)
  | _ => exact .bind .getStore fun _ => .throw _

theorem onlyGrows_emptyValue (code : Int64) (st : Store) :
    st.OnlyGrows (emptyValue code st).2 := by
  rw [emptyValue]
  rcases Kind.ofCode? code with _ | k
  · exact .refl st
  · cases k with
    | list => exact .newList []
    | scope => exact .newScope none
    | _ => exact .refl st

theorem onlyGrows_converted (v : Value) (wanted : Kind) (st : Store) :
    st.OnlyGrows (converted v wanted st).2 := by
  have hs (f : ScopeRef → Value) :
      st.OnlyGrows ((do return f (← Action.newScope none) : Action Value) st).2 :=
    .newScope none
  rw [converted]
  by_cases hk : v.kind = wanted
  · rw [if_pos hk]
    exact .refl st
  · rw [if_neg hk]
    split
    · exact hs _
    · exact hs _
    · exact .refl st
    · exact .refl st
    · exact .refl st
    · exact .refl st
    · cases v.atomText? <;> exact .refl st
    · cases v.atomText? <;> exact .refl st
    · next s => cases Text.int64? s <;> exact .refl st
    · next s => cases Text.int64? s <;> exact .refl st
    · exact .refl st

/-- No instruction but `CELLPUSH` changes a list. -/
theorem quiet_execute {op : Opcode} (h : op ≠ .extend) (n : Int64) : Quiet (execute op n) := by
  cases op with
  | extend => exact absurd rfl h
  | nop => exact .pure ()
  | load =>
    exact .bind .get fun _ => .bind (looks_offset _ _).quiet fun _ => .bind (looks_slot _).quiet quiet_setA
  | store =>
    exact .bind .get fun _ => .bind (looks_offset _ _).quiet fun _ => .bind .get fun _ =>
      quiet_setSlot _ _
  | adjust =>
    refine .bind .get fun _ => .bind (looks_offset _ _).quiet fun _ => .bind .get fun _ => ?_
    split
    · exact .bind (looks_fault _).quiet fun _ => .modify fun _ => rfl
    · exact .modify fun _ => rfl
  | push => exact .bind .get fun _ => quiet_push _
  | pop => exact .bind quiet_pop quiet_setA
  | peek => exact .bind looks_top.quiet quiet_setA
  | dup => exact .bind looks_top.quiet quiet_push
  | swap =>
    exact .bind .get fun _ => .bind (looks_slot _).quiet fun _ => .bind (looks_slot _).quiet fun _ =>
      .bind (quiet_setSlot _ _) fun _ => quiet_setSlot _ _
  | data => exact .bind (looks_constant n).quiet quiet_setA
  | call =>
    exact .bind .get fun _ => .bind (quiet_push _) fun _ => .bind (looks_target n).quiet fun _ =>
      .modify fun _ => rfl
  | enter =>
    refine .bind .get fun _ => .bind (quiet_push _) fun _ =>
      .bind (.modify fun _ => rfl) fun _ => ?_
    split
    · exact (looks_fault _).quiet
    · refine .bind .get fun _ => ?_
      split
      · exact .modify fun _ => rfl
      · exact (looks_fault _).quiet
  | leave =>
    exact .bind (.modify fun _ => rfl) fun _ => .bind quiet_pop fun _ =>
      .bind (looks_savedRegister _).quiet fun _ => .bind (.modify fun _ => rfl) fun _ =>
      .bind quiet_pop fun _ => .bind (looks_savedRegister _).quiet fun _ => .modify fun _ => rfl
  | jumpZero | jumpNonzero => exact quiet_jumpIf _ n
  | jump => exact .bind (looks_target n).quiet fun _ => .modify fun _ => rfl
  | less | lessKeep | lessEqual | lessEqualKeep | greater | greaterKeep =>
    exact quiet_comparison _ _
  | equal | equalKeep | unequal | unequalKeep => exact quiet_equality _ _
  | sub =>
    exact .bind quiet_pop fun _ => .bind .get fun _ =>
      .bind (.plain (Value.adds_sub _ _).plain) quiet_setA
  | mul =>
    exact .bind quiet_pop fun _ => .bind .get fun _ =>
      .bind (.plain (Value.adds_mul _ _).plain) quiet_setA
  | new =>
    exact .bind .get fun _ => .bind (.act fun st => (onlyGrows_emptyValue _ st).lists) quiet_setA
  | kind => exact .bind .get fun _ => quiet_setA _
  | count => exact .bind .get fun _ => .bind .getStore fun _ => quiet_setA _
  | index =>
    refine .bind .get fun _ => .bind looks_top.quiet fun _ => .bind .getStore fun _ => ?_
    split
    · exact quiet_setA _
    · exact (looks_fault _).quiet
  | setScope =>
    refine .bind .get fun _ => .bind (looks_scopeOf _ _).quiet fun _ => .bind looks_top.quiet fun v => ?_
    split
    · exact quiet_setTop _
    · exact quiet_setTop _
    · exact .throw _
  | getScope => exact .bind quiet_pop fun _ => .bind (looks_scopeOf _ _).quiet fun _ => quiet_setA _
  | convert =>
    refine .bind .get fun _ => ?_
    dsimp only
    split
    · exact .bind .getStore fun _ => .throw _
    · exact .bind looks_top.quiet fun _ =>
        .bind (.act fun st => (onlyGrows_converted _ _ st).lists) quiet_setTop
  | invoke =>
    exact .bind quiet_pop fun _ => .bind quiet_pop fun _ => .bind .get fun _ =>
      .bind .getStore fun _ => .bind (quiet_invoke _ _ _) quiet_setA
  | head => exact .bind looks_top.quiet fun v => .bind (.plain v.adds_head.plain) quiet_setA
  | tail => exact .bind looks_top.quiet fun v => .bind (.plain v.adds_tail.plain) quiet_setA
  | lookup =>
    exact .bind quiet_pop fun key => .bind .get fun _ => .bind (looks_scopeOf _ _).quiet fun s =>
      .bind (.plain ((Action.Plain.keyText key).bind fun _ => .lookup s _)) quiet_setA
  | assign =>
    exact .bind quiet_pop fun key => .bind (.plain (.keyText key)) fun _ =>
      .bind looks_top.quiet fun _ => .bind (looks_scopeOf _ _).quiet fun s => .bind .get fun _ =>
      .plain (.assign s _ _)
  | define =>
    exact .bind quiet_pop fun key => .bind (.plain (.keyText key)) fun _ =>
      .bind looks_top.quiet fun _ => .bind (looks_scopeOf _ _).quiet fun s => .bind .get fun _ =>
      .plain (.define s _ _)
  | newScope =>
    exact .bind quiet_pop fun _ => .bind quiet_pop fun _ => .bind .get fun _ =>
      .bind (looks_scopeOf _ _).quiet fun _ => .bind .getStore fun _ =>
      .bind (.plain (.bindParameters _ _ _)) fun _ => quiet_setA _
  | exit => exact .modify fun _ => rfl
  | print => exact .bind .get fun _ => .bind .getStore fun _ => quiet_emit _
  | halt =>
    exact .bind (looks_constant n).quiet fun _ => .bind .getStore fun _ =>
      .bind (quiet_emit _) fun _ => .modify fun _ => rfl
  | dump => exact .bind .get fun _ => .bind .getStore fun _ => quiet_emit _

/-! ## What a run does to the lists -/

/-- What the next instruction of a machine puts at the end of a list. -/
def appended (m : Machine) (r : ListRef) : List Value :=
  if m.finished = false ∧ m.program.code[m.pc]?.bind Opcode.ofWord? = some .extend ∧
      m.stack[m.sp]? = some (.list r) then [m.a]
  else []

/-- The machine and the store after some more instructions, whether they succeed or not. -/
def advance : (n : Nat) → Machine → Store → Machine × Store
  | 0, m, st => (m, st)
  | n + 1, m, st => advance n (step m st).1.2 (step m st).2

/-- What some more instructions of a machine put at the end of a list. -/
def pushed : (n : Nat) → Machine → Store → ListRef → List Value
  | 0, _, _, _ => []
  | n + 1, m, st, r => m.appended r ++ pushed n (step m st).1.2 (step m st).2 r

/-- The program is the same, and what has become of a list is that some values were put at
its end. -/
structure Extends (m : Machine) (st : Store) (added : ListRef → List Value) (m' : Machine)
    (st' : Store) : Prop where
  program : m'.program = m.program
  size_le : st.lists.size ≤ st'.lists.size
  items : ∀ r : ListRef, r.index < st.lists.size → st'.items r = st.items r ++ added r

variable {m m' m'' : Machine} {st st' st'' : Store} {added added' : ListRef → List Value}

theorem Extends.trans (h : Extends m st added m' st') (h' : Extends m' st' added' m'' st'') :
    Extends m st (fun r => added r ++ added' r) m'' st'' :=
  ⟨h'.program.trans h.program, Nat.le_trans h.size_le h'.size_le, fun r hr => by
    rw [h'.items r (Nat.lt_of_lt_of_le hr h.size_le), h.items r hr, List.append_assoc]⟩

theorem Quiet.extends {x : Step Machine α} (hx : Quiet x) (m : Machine) (st : Store)
    (ha : ∀ r, added r = []) : Extends m st added (x m st).1.2 (x m st).2 := by
  obtain ⟨hp, hk⟩ := hx m st
  exact ⟨hp, hk.size_le, fun r hr => by rw [hk.items_eq r hr, ha, List.append_nil]⟩

/-- `CELLPUSH` puts the accumulator at the end of the list on top of the stack. -/
theorem extends_extend (m : Machine) (st : Store) (n : Int64) :
    Extends m st (fun r => if m.stack[m.sp]? = some (.list r) then [m.a] else [])
      (execute .extend n m st).1.2 (execute .extend n m st).2 := by
  show Extends m st _ ((top >>= _) m st).1.2 ((top >>= _) m st).2
  rcases hs : m.stack[m.sp]? with _ | v
  · have ht : top m st = ((.error (.fault (.stackIndex m.sp)), m), st) := by
      rw [top, Step.get_bind, slot, Step.get_bind, hs]
      rfl
    rw [Step.bind_error ht]
    exact (Quiet.throw (α := Unit) _).extends m st fun r => if_neg fun he => by cases he
  · have ht : top m st = ((.ok v, m), st) := by
      rw [top, Step.get_bind, slot, Step.get_bind, hs]
      rfl
    rw [Step.bind_ok ht]
    cases v with
    | list q =>
      refine ⟨rfl, Nat.le_of_eq (Store.extend_lists_size q m.a).symm, fun r hr => ?_⟩
      show (st.extend q m.a).items r = _
      by_cases hq : q = r
      · subst hq
        rw [if_pos rfl, Store.items_extend_self m.a hr]
      · rw [if_neg (by simpa using hq), List.append_nil,
          Store.items_extend_of_ne m.a (fun h => hq h.symm)]
    | _ => exact (Quiet.throw (α := Unit) _).extends m st fun r => if_neg fun he => by cases he

/-- Fetch the operand of an instruction and execute it. -/
def execOperand (op : Opcode) : Step Machine Unit := do
  let n ← if op.operandCount = 0 then pure 0 else fetch
  modify fun m => { m with steps := m.steps + 1 }
  execute op n

theorem quiet_execOperand {op : Opcode} (h : op ≠ .extend) : Quiet (execOperand op) := by
  rw [execOperand]
  split
  · exact .bind (.pure 0) fun n => .bind (.modify fun _ => rfl) fun _ => quiet_execute h n
  · exact .bind quiet_fetch fun n => .bind (.modify fun _ => rfl) fun _ => quiet_execute h n

theorem step_of_fetched {w : Int64} {op : Opcode} (hf : m.finished = false)
    (hw : m.program.code[m.pc]? = some w) (ho : Opcode.ofWord? w = some op) (st : Store) :
    step m st = execOperand op { m with pc := m.pc + 1 } st := by
  have h : fetch m st = ((.ok w, { m with pc := m.pc + 1 }), st) := by
    rw [fetch, Step.get_bind, Step.get_bind, hw]
    rfl
  rw [step, Step.get_bind, Step.get_bind, if_neg (by simp [hf])]
  show (fetch >>= _) m st = _
  rw [Step.bind_ok h, ho]
  rfl

/-- An instruction leaves the program alone, and extends a list only by what it puts at its
end. -/
theorem extends_step (m : Machine) (st : Store) :
    Extends m st m.appended (step m st).1.2 (step m st).2 := by
  have hquiet {x : Step Machine Unit} (hx : Quiet x) (k : Nat)
      (h : step m st = x { m with pc := k } st) (ha : ∀ r, m.appended r = []) :
      Extends m st m.appended (step m st).1.2 (step m st).2 := by
    obtain ⟨hp, hs, hi⟩ := h ▸ hx.extends { m with pc := k } st ha
    exact ⟨hp, hs, hi⟩
  cases hf : m.finished with
  | true =>
    refine hquiet (.throw (.missingOpcode (m.program.code.getD m.pc (-1)) m.pc)) m.pc ?_
      fun r => if_neg (by simp [hf])
    rw [step, Step.get_bind, Step.get_bind, if_pos hf]
    rfl
  | false =>
    rcases hw : m.program.code[m.pc]? with _ | w
    · refine hquiet (looks_fault (.outsideCode m.pc)).quiet m.pc ?_ fun r => if_neg (by simp [hw])
      rw [step, Step.get_bind, Step.get_bind, if_neg (by simp [hf])]
      show (fetch >>= _) m st = _
      rw [fetch, Step.bind_apply, Step.get_bind, Step.get_bind, hw]
      rfl
    rcases ho : Opcode.ofWord? w with _ | op
    · refine hquiet (.throw (.missingOpcode w m.pc)) (m.pc + 1) ?_
        fun r => if_neg (by simp [hw, ho])
      rw [step, Step.get_bind, Step.get_bind, if_neg (by simp [hf])]
      show (fetch >>= _) m st = _
      have hfetch : fetch m st = ((.ok w, { m with pc := m.pc + 1 }), st) := by
        rw [fetch, Step.get_bind, Step.get_bind, hw]
        rfl
      rw [Step.bind_ok hfetch, ho]
    have hs := step_of_fetched hf hw ho st
    by_cases hop : op = .extend
    · subst hop
      obtain ⟨hp, hl, hi⟩ := extends_extend { m with pc := m.pc + 1, steps := m.steps + 1 } st 0
      rw [hs]
      refine ⟨hp, hl, fun r hr => (hi r hr).trans ?_⟩
      simp [appended, hf, hw, ho]
    · exact hquiet (quiet_execOperand hop) (m.pc + 1) hs
        fun r => if_neg (by simp [hw, ho, hop])

/-- A run leaves the program alone, and extends a list only by what it pushes. -/
theorem extends_advance : ∀ (n : Nat) (m : Machine) (st : Store),
    Extends m st (m.pushed n st) (m.advance n st).1 (m.advance n st).2
  | 0, _, _ => ⟨rfl, Nat.le_refl _, fun _ _ => (List.append_nil _).symm⟩
  | n + 1, m, st => (extends_step m st).trans (extends_advance n _ _)

theorem quiet_pushes : ∀ args : List Value, Quiet (args.forM push)
  | [] => .pure ()
  | v :: args => .bind (quiet_push v) fun _ => quiet_pushes args

theorem program_of_start {p : Program} {args : List Value} {stackSize : Nat}
    (h : start p args stackSize st = (.ok m, st')) : m.program = p := by
  rw [start] at h
  split at h
  · cases h
  · have hp := (quiet_pushes args (load p stackSize) st).1
    rcases hx : (args.forM push) (load p stackSize) st with ⟨⟨e | u, m₁⟩, st₁⟩
      <;> rw [hx] at h hp <;> cases h
    exact hp

/-- The image of a program while it runs.  All uses of a name for a constant are entries for
the same constant.  However far a machine with the program goes, its program is the same, and
a list that was there has grown by what the machine pushed onto it. -/
theorem image_of_run {asm asm' : Assembler} {entry : String} {p : Program}
    (h : Assembler.finish entry asm = (.ok p, asm')) :
    (∀ (i : Nat) name v, asm.slots[i]? = some (.delayed name) →
      asm.labels.get? name = some (.data v) →
        ∃ j, p.code[i]? = some (Int64.ofNat j) ∧ p.data[j]? = some v) ∧
    ∀ args stackSize st m st', start p args stackSize st = (.ok m, st') → ∀ n,
      (m.advance n st').1.program = p ∧
        ∀ r : ListRef, r.index < st'.lists.size →
          (m.advance n st').2.items r = st'.items r ++ m.pushed n st' r := by
  refine ⟨fun i name v hi hl => ?_, fun args size st m st' hm n => ?_⟩
  · obtain ⟨j, -, hj⟩ := Assembler.constant_of_finish h (by simpa using hi) hl
    exact ⟨j, hj⟩
  · obtain ⟨hp, -, hi⟩ := extends_advance n m st'
    exact ⟨hp.trans (program_of_start hm), hi⟩

/-- Two uses of a name for a list are two entries for that list, and a machine that loads both
leaves it empty. -/
theorem image_of_run_on_two_uses :
    let asm : Assembler :=
      { labels := [("main", .fixed 0), ("Nil", .data (.list ⟨0⟩))]
        slots := #[.word 9, .delayed "Nil", .word 9, .delayed "Nil", .word 43] }
    let p : Program := ⟨#[9, 0, 9, 1, 43], #[.list ⟨0⟩, .list ⟨0⟩], 0⟩
    let st : Store := { lists := #[[]] }
    Assembler.finish "main" asm = (.ok p, { asm with data := p.data }) ∧
      (∃ j, p.code[3]? = some (Int64.ofNat j) ∧ p.data[j]? = some (.list ⟨0⟩)) ∧
      ∃ m, start p [] 64 st = (.ok m, st) ∧ (m.advance 3 st).2.items ⟨0⟩ = [] := by
  intro asm p st
  have h : Assembler.finish "main" asm = (.ok p, { asm with data := p.data }) := by cbv
  obtain ⟨hshared, hrun⟩ := image_of_run h
  refine ⟨h, hshared 3 "Nil" (.list ⟨0⟩) rfl (by cbv), _, rfl, ?_⟩
  rw [(hrun [] 64 st _ st rfl 3).2 ⟨0⟩ Nat.one_pos]
  cbv

/-- A program that pushes a number onto the constant `Nil` and then counts the elements of
`Nil`. -/
def growing : Program where
  code := #[9, 1, 4, 9, 0, 34, 9, 2, 30, 43]
  data := #[.number 7, .list ⟨0⟩, .list ⟨0⟩]
  entry := 0

theorem assemble_growing :
    Assembler.assemble "main: DATA Nil PUSH DATA $7 CELLPUSH DATA Nil CELLCOUNT EXIT" "main" {} =
      (.ok growing, { lists := #[[]] }) := by
  have h : ((Assembler.assemble "main: DATA Nil PUSH DATA $7 CELLPUSH DATA Nil CELLCOUNT EXIT"
      "main" {}).1.toOption.map fun p => (p.code.toList, p.data.toList, p.entry)) =
      some (growing.code.toList, growing.data.toList, growing.entry) := by decide +kernel
  rcases ha : Assembler.assemble "main: DATA Nil PUSH DATA $7 CELLPUSH DATA Nil CELLCOUNT EXIT"
    "main" {} with ⟨e | ⟨code, data, entry⟩, st⟩
  · rw [ha] at h
    cases h
  · obtain rfl : { lists := #[[]] } = st := congrArg Prod.snd ha
    rw [ha] at h
    simp only [Except.toOption, Option.map_some, Option.some.injEq, Prod.mk.injEq,
      Array.toList_inj] at h
    obtain ⟨rfl, rfl, rfl⟩ := h
    rfl

/-- Running a program can change a constant of its image: `Nil` has become a list of one
element, for the second use of its name and for every machine that comes after. -/
theorem constant_grows :
    ∃ p st m, Assembler.assemble
        "main: DATA Nil PUSH DATA $7 CELLPUSH DATA Nil CELLCOUNT EXIT" "main" {} = (.ok p, st) ∧
      start p [] 64 st = (.ok m, st) ∧
      p.constant? 1 = some (.list ⟨0⟩) ∧ p.constant? 2 = some (.list ⟨0⟩) ∧
      st.items ⟨0⟩ = [] ∧ (m.advance 7 st).2.items ⟨0⟩ = [.number 7] ∧
      (m.advance 7 st).1.a = .number 1 := by
  refine ⟨growing, { lists := #[[]] }, _, assemble_growing, rfl, rfl, rfl, rfl, ?_, ?_⟩
  · cbv
  · cbv

end Machine

end LispEngines
