import LispEngines.Proofs.Machine.Image
import LispEngines.Proofs.Machine.Registers

/-!
# Instructions that fail

An instruction fails where it stands, and what it did until then stays done.  That is less than
the order of its parts might suggest.  An operand that was popped is gone, and a link that
`JSR` or `ENTER` wrote stays in a slot below the old SP; but the accumulator, the ending of the
machine, the slots from the old SP up, and every scope and every list that was there are as they
were before (`step_failed`).  A program that has failed can therefore be looked at, and resumed
behind the instruction, as if the instruction had only moved registers.

The reason is the same for all instructions: whatever can fail comes before whatever has an
effect.  What comes first is `Harmless`, whether it succeeds or not, and what comes last does not
fail once it has done something.  New lists and scopes may be there after a failure, because the
arguments of a call are bound in a scope of their own before one of them is refused.

* `Spared`: what work has not touched.  `Harmless`, `Spares`: work that touches nothing else,
  whatever comes of it or if it fails.
* `spares_execute`: every instruction spares, if it fails.
* `instruction?`: the instruction that the next step finds.
-/

namespace LispEngines

namespace Machine

/-! ## What is not touched -/

/-- Nothing has been touched but PC, SP, the slots below `sp`, and BP where `links` says so.  The
store has only grown. -/
structure Spared (links : Prop) (sp : Nat) (m : Machine) (st : Store) (m' : Machine)
    (st' : Store) : Prop where
  program : m'.program = m.program
  a : m'.a = m.a
  finished : m'.finished = m.finished
  haltMessage : m'.haltMessage = m.haltMessage
  steps : m'.steps = m.steps
  bp : ¬links → m'.bp = m.bp
  size : m'.stack.size = m.stack.size
  slot : ∀ i, sp ≤ i → m'.stack[i]? = m.stack[i]?
  store : st.OnlyGrows st'

variable {links : Prop} {sp : Nat} {α β : Type}

theorem Spared.refl (m : Machine) (st : Store) : Spared links sp m st m st :=
  ⟨rfl, rfl, rfl, rfl, rfl, fun _ => rfl, rfl, fun _ _ => rfl, .refl st⟩

theorem Spared.trans {m m₁ m₂ : Machine} {st st₁ st₂ : Store} (h : Spared links sp m st m₁ st₁)
    (h' : Spared links sp m₁ st₁ m₂ st₂) : Spared links sp m st m₂ st₂ where
  program := h'.program.trans h.program
  a := h'.a.trans h.a
  finished := h'.finished.trans h.finished
  haltMessage := h'.haltMessage.trans h.haltMessage
  steps := h'.steps.trans h.steps
  bp hl := (h'.bp hl).trans (h.bp hl)
  size := h'.size.trans h.size
  slot i hi := (h'.slot i hi).trans (h.slot i hi)
  store := h.store.trans h'.store

/-- Work that touches nothing that matters, whether it succeeds or not. -/
def Harmless (links : Prop) (sp : Nat) (x : Step Machine α) : Prop :=
  ∀ m st, Spared links sp m st (x m st).1.2 (x m st).2

/-- From this machine and this store, work that touches nothing that matters if it fails. -/
def SparesAt (links : Prop) (sp : Nat) (x : Step Machine α) (m : Machine) (st : Store) : Prop :=
  ∀ e, (x m st).1.1 = .error e → Spared links sp m st (x m st).1.2 (x m st).2

/-- Work that touches nothing that matters if it fails. -/
def Spares (links : Prop) (sp : Nat) (x : Step Machine α) : Prop :=
  ∀ m st, SparesAt links sp x m st

theorem Harmless.spares {x : Step Machine α} (h : Harmless links sp x) : Spares links sp x :=
  fun m st _ _ => h m st

/-- What comes after work that has touched nothing here. -/
theorem SparesAt.bind {x : Step Machine α} {f : α → Step Machine β} {m : Machine} {st : Store}
    (hx : Spared links sp m st (x m st).1.2 (x m st).2) (hf : ∀ a, Spares links sp (f a)) :
    SparesAt links sp (x >>= f) m st := by
  intro e he
  rw [Step.bind_apply] at he ⊢
  rcases h : x m st with ⟨⟨e' | a, m₁⟩, st₁⟩ <;> rw [h] at he hx
  · exact hx
  · exact hx.trans (hf a m₁ st₁ e he)

theorem SparesAt.of_spared {x : Step Machine α} {m : Machine} {st : Store}
    (h : Spared links sp m st (x m st).1.2 (x m st).2) : SparesAt links sp x m st := fun _ _ => h

/-- Reading the machine before. -/
theorem SparesAt.get {f : Machine → Step Machine α} {m : Machine} {st : Store}
    (h : SparesAt links sp (f m) m st) : SparesAt links sp (get >>= f) m st := h

theorem Looks.harmless {x : Step Machine α} (h : Looks x) : Harmless links sp x := by
  intro m st
  obtain ⟨hm, hs⟩ := h m st
  rw [hm, hs]
  exact .refl m st

namespace Harmless

theorem bind {x : Step Machine α} {f : α → Step Machine β} (hx : Harmless links sp x)
    (hf : ∀ a, Harmless links sp (f a)) : Harmless links sp (x >>= f) := by
  intro m st
  have hm := hx m st
  rw [Step.bind_apply]
  rcases h : x m st with ⟨⟨e | a, m₁⟩, st₁⟩ <;> rw [h] at hm
  · exact hm
  · exact hm.trans (hf a m₁ st₁)

theorem pure (a : α) : Harmless links sp (pure a) := .refl

theorem throw (e : Failure) : Harmless links sp (throw e : Step Machine α) := .refl

theorem get : Harmless links sp get := .refl

theorem getStore : Harmless links sp (getThe Store) := .refl

theorem act {a : Action α} (h : ∀ st : Store, st.OnlyGrows (a st).2) :
    Harmless links sp (Step.act a) :=
  fun m st => { Spared.refl m st with store := h st }

theorem adds {a : Action α} (h : a.Adds) : Harmless links sp (Step.act a) :=
  act fun _ => (Action.Spares.adds h).onlyGrows

theorem setSp (f : Machine → Nat) :
    Harmless links sp (modify fun m : Machine => { m with sp := f m }) :=
  fun m st => { Spared.refl m st with }

theorem setBp (hl : links) (f : Machine → Nat) :
    Harmless links sp (modify fun m : Machine => { m with bp := f m }) :=
  fun m st =>
    have hsame : Spared links sp m st m st := .refl m st
    { hsame with bp := fun h => absurd hl h }

end Harmless

namespace Spares

theorem bind {x : Step Machine α} {f : α → Step Machine β} (hx : Harmless links sp x)
    (hf : ∀ a, Spares links sp (f a)) : Spares links sp (x >>= f) :=
  fun m st => .bind (hx m st) hf

/-- Work that always succeeds. -/
theorem succeeds {x : Step Machine α} (h : ∀ m st, ∃ a, (x m st).1.1 = .ok a) :
    Spares links sp x := by
  intro m st e he
  obtain ⟨a, ha⟩ := h m st
  rw [ha] at he
  cases he

theorem modify (f : Machine → Machine) : Spares links sp (modify f) :=
  succeeds fun _ _ => ⟨(), rfl⟩

theorem modifyStore (f : Store → Store) :
    Spares links sp (modifyThe Store f : Step Machine Unit) :=
  succeeds fun _ _ => ⟨(), rfl⟩

theorem define (s : ScopeRef) (key : String) (v : Value) :
    Spares links sp (Step.act (Action.define s key v)) :=
  succeeds fun _ _ => ⟨(), rfl⟩

end Spares

/-! ## The parts of instructions -/

theorem harmless_pop : Harmless links sp pop :=
  .bind looks_top.harmless fun _ => .bind (.setSp fun m => m.sp + 1) fun _ => .pure _

theorem harmless_emit (text : String) : Harmless links sp (emit text) :=
  .act fun _ => (Action.Spares.write text _).onlyGrows

theorem harmless_leftSide (keep : Bool) : Harmless links sp (leftSide keep) := by
  cases keep
  · exact harmless_pop
  · exact looks_top.harmless

theorem harmless_invoke (callee : Value) (args : List Value) (scope : Value) :
    Harmless links sp (invoke callee args scope) := by
  cases callee with
  | native p => exact .adds (p.adds_call args)
  | scopeNative p => exact .bind (looks_scopeOf _ _).harmless fun s => .adds (p.adds_call args s)
  | _ => exact .bind .getStore fun _ => .throw _

/-- A value that is pushed lands below SP. -/
theorem spared_push (v : Value) {m : Machine} (h : m.sp ≤ sp) (st : Store) :
    Spared links sp m st (push v m st).1.2 (push v m st).2 := by
  have hsame : Spared links sp m st m st := .refl m st
  rw [push, Step.get_bind]
  cases hs : m.sp with
  | zero => exact hsame
  | succ k =>
    show Spared links sp m st (setSlot k v { m with sp := k } st).1.2
      (setSlot k v { m with sp := k } st).2
    by_cases hk : k < m.stack.size
    · rw [setSlot_of (m := { m with sp := k }) v hk]
      refine { hsame with size := Array.size_setIfInBounds, slot := fun i hi => ?_ }
      exact Array.getElem?_setIfInBounds_ne (by omega)
    · rw [setSlot, Step.get_bind, if_neg hk]
      exact { hsame with }

theorem spares_setSlot (i : Nat) (v : Value) : Spares links sp (setSlot i v) := by
  refine .bind .get fun m => ?_
  split
  · exact .modify _
  · exact (looks_fault _).harmless.spares

theorem spares_setTop (v : Value) : Spares links sp (setTop v) :=
  .bind .get fun _ => spares_setSlot _ v

theorem spares_setA (v : Value) : Spares links sp (setA v) := .modify _

theorem spares_comparison (op : Comparison) (keep : Bool) : Spares links sp (comparison op keep) :=
  .bind (harmless_leftSide keep) fun left => .bind .get fun m =>
    .bind (.adds (Value.adds_compare op left m.a)) fun _ => spares_setA _

theorem spares_equality (wanted keep : Bool) : Spares links sp (equality wanted keep) :=
  .bind (harmless_leftSide keep) fun _ => .bind .get fun _ => .bind .getStore fun _ => spares_setA _

theorem spares_jumpIf (test : Int64 → Bool) (n : Int64) : Spares links sp (jumpIf test n) := by
  refine .bind .get fun m => ?_
  split
  · exact .bind (looks_target n).harmless fun _ => .modify _
  · exact (Harmless.pure ()).spares

theorem spares_dup (n : Int64) (m : Machine) (st : Store) :
    SparesAt links m.sp (execute .dup n) m st := by
  cases hs : m.stack[m.sp]? with
  | none =>
    have ht : execute .dup n m st = ((.error (.fault (.stackIndex m.sp)), m), st) :=
      Step.bind_error (by rw [top_apply, hs])
    intro e _
    rw [ht]
    exact .refl m st
  | some v =>
    have ht : execute .dup n m st = push v m st := Step.bind_ok (by rw [top_apply, hs])
    intro e _
    rw [ht]
    exact spared_push v (Nat.le_refl _) st

/-- A name that no scope binds is not assigned. -/
theorem spares_assign (s : ScopeRef) (key : String) (v : Value) :
    Spares links sp (Step.act (Action.assign s key v)) := by
  intro m st e he
  rw [Step.act_apply, Action.assign] at he ⊢
  cases hf : st.find? s key with
  | none => exact .refl m st
  | some t =>
    rw [hf] at he
    cases he

/-- The two slots are exchanged only if both are there. -/
theorem spares_swap (n : Int64) : Spares links sp (execute .swap n) := by
  refine .bind .get fun m₀ m st => ?_
  cases hl : m.stack[m₀.sp + 1]? with
  | none =>
    have hs : slot (m₀.sp + 1) m st = ((.error (.fault (.stackIndex (m₀.sp + 1))), m), st) := by
      rw [slot, Step.get_bind, hl]
      rfl
    intro e _
    rw [Step.bind_error hs]
    exact .refl m st
  | some lower =>
    have hlt := (Array.getElem?_eq_some_iff.mp hl).1
    obtain ⟨upper, hu⟩ : ∃ upper, m.stack[m₀.sp]? = some upper :=
      ⟨_, Array.getElem?_eq_getElem (by omega)⟩
    intro e he
    rw [Step.bind_ok (slot_of hl), Step.bind_ok (slot_of hu),
      Step.bind_ok (setSlot_of lower (by omega)), setSlot_of upper (by simpa using hlt)] at he
    cases he

/-! ## Every instruction -/

/-- Whatever an instruction does before it fails, it has not touched what matters. -/
theorem spares_execute (op : Opcode) (n : Int64) (m : Machine) (st : Store) :
    SparesAt (op = .enter ∨ op = .leave) m.sp (execute op n) m st := by
  cases op with
  | nop => exact (Harmless.pure ()).spares m st
  | load =>
    refine Spares.bind .get (fun _ => ?_) m st
    exact .bind (looks_offset _ _).harmless fun _ => .bind (looks_slot _).harmless spares_setA
  | store =>
    refine Spares.bind .get (fun _ => ?_) m st
    exact .bind (looks_offset _ _).harmless fun _ => .bind .get fun _ => spares_setSlot _ _
  | adjust =>
    refine Spares.bind .get
      (fun _ => .bind (looks_offset _ _).harmless fun _ => .bind .get fun _ => ?_) m st
    split
    · exact .bind (looks_fault _).harmless fun _ => .modify _
    · exact .modify _
  | push => exact .get (.of_spared (spared_push m.a (Nat.le_refl _) st))
  | pop => exact Spares.bind harmless_pop spares_setA m st
  | peek => exact Spares.bind looks_top.harmless spares_setA m st
  | dup => exact spares_dup n m st
  | swap => exact spares_swap n m st
  | data => exact Spares.bind (looks_constant n).harmless spares_setA m st
  | call =>
    refine .get (.bind (spared_push (registerValue m.pc) (Nat.le_refl _) st) fun _ => ?_)
    exact .bind (looks_target n).harmless fun _ => .modify _
  | enter =>
    refine .get (.bind (spared_push (registerValue m.bp) (Nat.le_refl _) st) fun _ =>
      .bind (.setBp (.inl rfl) fun m => m.sp) fun _ => ?_)
    split
    · exact (looks_fault _).harmless.spares
    · refine .bind .get fun _ => ?_
      split
      · exact .modify _
      · exact (looks_fault _).harmless.spares
  | leave =>
    refine Spares.bind (.setSp fun m => m.bp) (fun _ => .bind harmless_pop fun _ =>
      .bind (looks_savedRegister _).harmless fun bp =>
        .bind (.setBp (.inr rfl) fun _ => bp) fun _ => ?_) m st
    exact .bind harmless_pop fun _ => .bind (looks_savedRegister _).harmless fun _ => .modify _
  | jumpZero | jumpNonzero => exact spares_jumpIf _ n m st
  | jump => exact Spares.bind (looks_target n).harmless (fun _ => .modify _) m st
  | less | lessKeep | lessEqual | lessEqualKeep | greater | greaterKeep =>
    exact spares_comparison _ _ m st
  | equal | equalKeep | unequal | unequalKeep => exact spares_equality _ _ m st
  | sub =>
    refine Spares.bind harmless_pop (fun _ => .bind .get fun _ => ?_) m st
    exact .bind (.adds (Value.adds_sub _ _)) spares_setA
  | mul =>
    refine Spares.bind harmless_pop (fun _ => .bind .get fun _ => ?_) m st
    exact .bind (.adds (Value.adds_mul _ _)) spares_setA
  | new =>
    refine Spares.bind .get (fun _ => ?_) m st
    exact .bind (.act (onlyGrows_emptyValue _)) spares_setA
  | kind => exact Spares.bind .get (fun _ => spares_setA _) m st
  | count => exact Spares.bind .get (fun _ => .bind .getStore fun _ => spares_setA _) m st
  | index =>
    refine Spares.bind .get (fun _ => .bind looks_top.harmless fun _ => .bind .getStore fun _ => ?_) m st
    split
    · exact spares_setA _
    · exact (looks_fault _).harmless.spares
  | setScope =>
    refine Spares.bind .get
      (fun _ => .bind (looks_scopeOf _ _).harmless fun _ => .bind looks_top.harmless fun v => ?_) m st
    split
    · exact spares_setTop _
    · exact spares_setTop _
    · exact (Harmless.throw _).spares
  | getScope =>
    refine Spares.bind harmless_pop (fun _ => ?_) m st
    exact .bind (looks_scopeOf _ _).harmless fun _ => spares_setA _
  | extend =>
    refine Spares.bind looks_top.harmless (fun v => ?_) m st
    split
    · exact .bind .get fun _ => .modifyStore _
    · exact (Harmless.throw _).spares
  | convert =>
    refine Spares.bind .get (fun _ => ?_) m st
    dsimp only
    split
    · exact .bind .getStore fun _ => (Harmless.throw _).spares
    · exact .bind looks_top.harmless fun _ => .bind (.act (onlyGrows_converted _ _)) spares_setTop
  | invoke =>
    refine Spares.bind harmless_pop (fun _ => .bind harmless_pop fun _ => ?_) m st
    exact .bind .get fun _ => .bind .getStore fun _ =>
      .bind (harmless_invoke _ _ _) spares_setA
  | head => exact Spares.bind looks_top.harmless (fun v => .bind (.adds v.adds_head) spares_setA) m st
  | tail => exact Spares.bind looks_top.harmless (fun v => .bind (.adds v.adds_tail) spares_setA) m st
  | lookup =>
    refine Spares.bind harmless_pop (fun key => .bind .get fun _ => ?_) m st
    exact .bind (looks_scopeOf _ _).harmless fun s =>
      .bind (.adds (.bind (.keyText key) fun _ => .lookup s _)) spares_setA
  | assign =>
    refine Spares.bind harmless_pop (fun key => .bind (.adds (.keyText key)) fun _ => ?_) m st
    exact .bind looks_top.harmless fun _ => .bind (looks_scopeOf _ _).harmless fun s => .bind .get fun _ =>
      spares_assign s _ _
  | define =>
    refine Spares.bind harmless_pop (fun key => .bind (.adds (.keyText key)) fun _ => ?_) m st
    exact .bind looks_top.harmless fun _ => .bind (looks_scopeOf _ _).harmless fun s => .bind .get fun _ =>
      .define s _ _
  | newScope =>
    refine Spares.bind harmless_pop
      (fun _ => .bind harmless_pop fun _ => .bind .get fun _ => ?_) m st
    exact .bind (looks_scopeOf _ _).harmless fun _ => .bind .getStore fun _ =>
      .bind (.act fun _ => Action.onlyGrows_bindParameters _ _ _ _) fun _ => spares_setA _
  | exit => exact Spares.modify _ m st
  | print =>
    exact Spares.bind .get (fun _ => .bind .getStore fun _ => (harmless_emit _).spares) m st
  | halt =>
    refine Spares.bind (looks_constant n).harmless (fun _ => .bind .getStore fun _ => ?_) m st
    exact .bind (harmless_emit _) fun _ => .modify _
  | dump =>
    exact Spares.bind .get (fun _ => .bind .getStore fun _ => (harmless_emit _).spares) m st

/-! ## A step that fails -/

/-- The instruction that the next step finds, with its operand. -/
def instruction? (m : Machine) : Option (Opcode × Int64) :=
  if m.finished then none
  else
    match m.program.code[m.pc]?.bind Opcode.ofWord? with
    | none => none
    | some op =>
      if op.operandCount = 0 then some (op, 0) else m.program.code[m.pc + 1]?.map fun n => (op, n)

theorem fetch_apply (m : Machine) (st : Store) : fetch m st =
    match m.program.code[m.pc]? with
    | some w => ((.ok w, { m with pc := m.pc + 1 }), st)
    | none => ((.error (.fault (.outsideCode m.pc)), m), st) := by
  rw [fetch, Step.get_bind, Step.get_bind]
  cases m.program.code[m.pc]? <;> rfl

/-- Where there is no instruction, a step fails before anything but PC has changed. -/
theorem step_of_none {m : Machine} (h : m.instruction? = none) (st : Store) :
    ∃ e pc, step m st = ((.error e, { m with pc }), st) := by
  by_cases hf : m.finished
  · refine ⟨.missingOpcode (m.program.code.getD m.pc (-1)) m.pc, m.pc, ?_⟩
    rw [step, Step.get_bind, Step.get_bind, if_pos hf]
    rfl
  · have hstep : step m st = (fetch >>= fun word => match Opcode.ofWord? word with
        | none => throw (.missingOpcode word m.pc)
        | some op => execOperand op : Step Machine Unit) m st := by
      rw [step, Step.get_bind, Step.get_bind, if_neg hf]
      rfl
    rw [hstep, Step.bind_apply, fetch_apply]
    rcases hw : m.program.code[m.pc]? with _ | w
    · exact ⟨.fault (.outsideCode m.pc), m.pc, rfl⟩
    rcases ho : Opcode.ofWord? w with _ | op
    · exact ⟨.missingOpcode w m.pc, m.pc + 1, by simp only [ho]; rfl⟩
    rw [instruction?, if_neg hf, hw, Option.bind_some, ho] at h
    dsimp only at h
    split at h
    · cases h
    · next hop =>
      refine ⟨.fault (.outsideCode (m.pc + 1)), m.pc + 1, ?_⟩
      simp only [ho]
      rw [execOperand, if_neg hop, Step.bind_apply, fetch_apply]
      dsimp only
      rw [Option.map_eq_none_iff.mp h]

/-- Where there is an instruction, a step executes it. -/
theorem step_of_some {m : Machine} {op : Opcode} {n : Int64} (h : m.instruction? = some (op, n))
    (st : Store) :
    ∃ pc, step m st = execute op n { m with pc, steps := m.steps + 1 } st := by
  rw [instruction?] at h
  split at h
  · cases h
  next hf =>
  split at h
  · cases h
  next op' hcode =>
  obtain ⟨w, hw, ho⟩ := Option.bind_eq_some_iff.mp hcode
  rw [step_of_fetched (Bool.eq_false_of_not_eq_true hf) hw ho, execOperand]
  split at h
  · next hop =>
    cases h
    rw [if_pos hop]
    exact ⟨m.pc + 1, rfl⟩
  · next hop =>
    obtain ⟨n', hn, heq⟩ := Option.map_eq_some_iff.mp h
    cases heq
    refine ⟨m.pc + 1 + 1, ?_⟩
    rw [if_neg hop, Step.bind_apply, fetch_apply]
    dsimp only
    rw [hn]
    rfl

/-- **A failed instruction has no effect beyond the registers.**  Whenever a step fails, from
whatever state, accumulator, ending, the slots from the old SP up, and all lists and scopes of
the store are as before.  The step is counted if there was an instruction, and only `ENTER` and
`LEAVE` have moved BP. -/
theorem step_failed {m m' : Machine} {st st' : Store} {e : Failure}
    (h : step m st = ((.error e, m'), st')) :
    m'.program = m.program ∧ m'.a = m.a ∧ m'.finished = m.finished ∧
      m'.haltMessage = m.haltMessage ∧ m'.stack.size = m.stack.size ∧
      (∀ i, m.sp ≤ i → m'.stack[i]? = m.stack[i]?) ∧ st.OnlyGrows st' ∧
      m'.steps = m.steps + (if m.instruction?.isSome then 1 else 0) ∧
      (m'.bp = m.bp ∨
        ∃ n, m.instruction? = some (.enter, n) ∨ m.instruction? = some (.leave, n)) := by
  cases hi : m.instruction? with
  | none =>
    obtain ⟨e', pc, hs⟩ := step_of_none hi st
    cases hs.symm.trans h
    exact ⟨rfl, rfl, rfl, rfl, rfl, fun _ _ => rfl, .refl st, rfl, .inl rfl⟩
  | some p =>
    obtain ⟨op, n⟩ := p
    obtain ⟨pc, hs⟩ := step_of_some hi st
    have hx := spares_execute op n { m with pc, steps := m.steps + 1 } st e
    rw [hs] at h
    rw [h] at hx
    have hspared := hx rfl
    refine ⟨hspared.program, hspared.a, hspared.finished, hspared.haltMessage, hspared.size,
      hspared.slot, hspared.store, hspared.steps, ?_⟩
    by_cases hl : op = .enter ∨ op = .leave
    · exact .inr ⟨n, hl.imp (fun h => by rw [h]) fun h => by rw [h]⟩
    · exact .inl (hspared.bp hl)

/-- An `ENTER` that finds no room for its frame has pushed the link and moved BP.  The rest is as
it was. -/
theorem step_failed_of_enter :
    let m : Machine :=
      { program := ⟨#[11, 100], #[], 0⟩
        stack := #[.number 5, .number 6, .number 7]
        pc := 0
        sp := 2
        bp := 2 }
    let m' : Machine :=
      { m with stack := #[.number 5, .number 2, .number 7], pc := 2, sp := 1, bp := 1, steps := 1 }
    step m {} = ((.error (.fault .stackOverflow), m'), {}) ∧
      (∀ i, 2 ≤ i → m'.stack[i]? = m.stack[i]?) ∧
      (m'.bp = m.bp ∨
        ∃ n, m.instruction? = some (.enter, n) ∨ m.instruction? = some (.leave, n)) := by
  intro m m'
  have h : step m {} = ((.error (.fault .stackOverflow), m'), {}) := rfl
  obtain ⟨-, -, -, -, -, hslot, -, -, hbp⟩ := step_failed h
  exact ⟨h, hslot, hbp⟩

end Machine

end LispEngines
