import LispEngines.Proofs.Frame.Turn

/-!
# Steps of a stack as turns

A step of a stack of frames runs handlers until the stack has something to show for it,
and how many is not told by its result.  `FrameStack.turn` runs a single handler and does
what it asks for.  A step is one turn or several (`FrameStack.step_turns`), so what every
turn preserves every step does.
-/

namespace LispEngines

namespace FrameStack

open LispEngines.Frame (Flow Handler)

variable {m m₁ m₂ : FrameStack} {st st₁ st₂ : Store} {k : Nat}

/-- The stack after what a handler has asked for. -/
def after (m : FrameStack) : Flow → FrameStack
  | .again | .stay => m
  | .spawn x s => m.push x s
  | .done => m.pop

/-- Run one handler of the top frame and do what it asks for. -/
def turn : Step FrameStack Unit := do
  let flow ← dispatchTop
  modify (·.after flow)

/-- The evaluation has ended, and its frame waits for nothing. -/
def Halted (m : FrameStack) : Prop := m.isDone = true ∧ m.top.wait = .ready

/-- A number of turns, none of them taken by a stack that has halted. -/
inductive Turns : Nat → FrameStack → Store → FrameStack → Store → Prop
  | refl {m : FrameStack} {st : Store} : Turns 0 m st m st
  | head {k : Nat} {m m₁ m₂ : FrameStack} {st st₁ st₂ : Store} (hm : ¬ m.Halted)
      (h : turn m st = ((.ok (), m₁), st₁)) (hr : Turns k m₁ st₁ m₂ st₂) :
      Turns (k + 1) m st m₂ st₂

theorem Turns.single (hm : ¬ m.Halted) (h : turn m st = ((.ok (), m₁), st₁)) :
    Turns 1 m st m₁ st₁ := .head hm h .refl

theorem Turns.trans {j : Nat} (h : Turns j m st m₁ st₁) :
    Turns k m₁ st₁ m₂ st₂ → Turns (j + k) m st m₂ st₂ := by
  induction h with
  | refl => intro h'; rwa [Nat.zero_add]
  | head hm h _ ih => intro h'; rw [Nat.add_right_comm]; exact .head hm h (ih h')

/-- What some work of a stack comes to, if it is made of turns: the last of them succeeds or
fails as the work does, and those before it put no new frame on top. -/
inductive MadeOfTurns {α : Type} (post : α → FrameStack → FrameStack) (m : FrameStack)
    (st : Store) : (Except Failure α × FrameStack) × Store → Prop
  | ok {k : Nat} {a : α} {m₁ m' : FrameStack} {st₁ st' : Store} (h : Turns k m st m₁ st₁)
      (hd : m₁.maxDepth = m.maxDepth) (hm : ¬ m₁.Halted)
      (ht : turn m₁ st₁ = ((.ok (), post a m'), st')) : MadeOfTurns post m st ((.ok a, m'), st')
  | error {k : Nat} {m₁ m' : FrameStack} {e : Failure} {st₁ st' : Store}
      (h : Turns k m st m₁ st₁) (hd : m₁.maxDepth = m.maxDepth) (hm : ¬ m₁.Halted)
      (hf : turn m₁ st₁ = ((.error e, m'), st')) : MadeOfTurns post m st ((.error e, m'), st')

end FrameStack

/-! ## A handler that is to be followed by another one does not end its frame -/

namespace Frame

namespace Handler

/-- The frame has not ended when the handler asks for another one. -/
def GoesOn (h : Handler Flow) : Prop :=
  ∀ f st f' st', h f st = ((.ok .again, f'), st') → f'.stage ≠ .done

namespace GoesOn

theorem bind {α : Type} (x : Handler α) {k : α → Handler Flow} (h : ∀ v, (k v).GoesOn) :
    GoesOn (x >>= k) := by
  intro f st f' st' hx
  rcases ha : x f st with ⟨⟨e | v, f₁⟩, st₁⟩
  · rw [Step.bind_error ha] at hx
    cases hx
  · rw [Step.bind_ok ha] at hx
    exact h v f₁ st₁ f' st' hx

theorem pure {flow : Flow} (h : flow ≠ .again) : GoesOn (Pure.pure flow) := by
  intro f st f' st' hx
  cases hx
  exact absurd rfl h

theorem finish (v : Value) : GoesOn (finish v) := bind _ fun _ => pure (by simp)

theorem spawn (x : Value) : GoesOn (spawn x) := bind _ fun _ => pure (by simp)

theorem restart (x : Value) (t : Option ScopeRef) : GoesOn (restart x t) := by
  intro f st f' st' hx
  cases hx
  simp [Frame.restart]

theorem goOn {stage : Stage} (h : stage ≠ .done) : GoesOn (goOn stage) := by
  intro f st f' st' hx
  cases hx
  exact h

theorem enter : GoesOn enter := by
  refine bind _ fun f => ?_
  cases f.expr with
  | symbol name => exact bind _ fun v => finish v
  | list r =>
    refine bind _ fun items => ?_
    split
    · exact bind _ fun v => finish v
    · exact goOn (by simp)
  | _ => exact finish _

theorem builtin : GoesOn builtin := by
  refine bind _ fun f => bind _ fun items => ?_
  rcases SpecialForm.ofItems? items with _ | (_ | _ | _ | _ | _ | _ | _)
  · exact goOn (by simp)
  · exact bind _ fun v => finish v
  · exact bind _ fun test => bind _ fun _ => spawn test
  · exact bind _ fun _ => bind _ fun v => bind _ fun _ => spawn v
  · exact bind _ fun _ => bind _ fun v => bind _ fun _ => spawn v
  · exact bind _ fun v => finish v
  · exact bind _ fun v => finish v
  · exact bind _ fun _ => goOn (by simp)

theorem sequence : GoesOn sequence := by
  refine bind _ fun f => ?_
  rcases f.body with _ | ⟨e, _ | ⟨e', rest⟩⟩
  · exact bind _ fun _ => bind _ fun _ => bind _ fun v => finish v
  · exact bind _ fun _ => restart e none
  · exact bind _ fun _ => spawn e

theorem operator : GoesOn operator := by
  refine bind _ fun items => ?_
  rcases items with _ | ⟨head, operands⟩
  · exact bind _ fun v => spawn v
  · exact spawn head

theorem operatorEnded : GoesOn operatorEnded := by
  refine bind _ fun callee => bind _ fun items => ?_
  intro f st f' st' hx
  cases callee <;> cases hx <;> simp

theorem operands : GoesOn operands := by
  refine bind _ fun f => ?_
  rcases f.pending with _ | ⟨x, rest⟩
  · exact goOn (by simp)
  · exact bind _ fun _ => spawn x

theorem apply : GoesOn apply := by
  refine bind _ fun f => bind _ fun _ => bind _ fun f' => ?_
  split
  · exact bind _ fun v => finish v
  · exact bind _ fun _ => bind _ fun v => finish v
  · exact bind _ fun t => bind _ fun x => restart x (some t)
  · exact bind _ fun t => bind _ fun _ => bind _ fun x => pure (by simp)
  · refine bind _ fun v => ?_
    intro f st f' st' hx
    cases hx

theorem sequenceEnded : GoesOn sequenceEnded :=
  bind _ fun _ => bind _ fun _ => pure (by simp)

theorem branchEnded : GoesOn branchEnded :=
  bind _ fun _ => bind _ fun _ => bind _ fun x => restart x none

theorem defineEnded : GoesOn defineEnded :=
  bind _ fun _ => bind _ fun _ => bind _ fun _ => bind _ fun _ => bind _ fun v => finish v

theorem expansionEnded : GoesOn expansionEnded := bind _ fun v => restart v none

end GoesOn

theorem operandEnded_stage {f f' : Frame} {flow : Flow} {st st' : Store}
    (h : operandEnded f st = ((.ok flow, f'), st')) : f'.stage = f.stage := by
  rcases hv : f.incoming with _ | v
  · simp only [operandEnded, takeIncoming, bind_assoc, Step.get_bind, Step.modify_bind, hv] at h
    cases h
    rfl
  · rw [operandEnded, takeIncoming_bind hv] at h
    cases h
    rfl

/-- A handler of a frame that has not ended leaves it so when it asks for another one. -/
theorem dispatch_goesOn : GoesOn dispatch := by
  intro f st f' st' h
  cases hs : f.stage <;> cases hw : f.wait <;>
    simp only [dispatch, Step.get_bind, hs, hw] at h
  case enter.ready => exact GoesOn.enter f st f' st' h
  case builtin.ready => exact GoesOn.builtin f st f' st' h
  case sequence.ready => exact GoesOn.sequence f st f' st' h
  case sequence.ended => exact GoesOn.sequenceEnded f st f' st' h
  case branchTest.ended => exact GoesOn.branchEnded f st f' st' h
  case define.ended => exact GoesOn.defineEnded f st f' st' h
  case operator.ready => exact GoesOn.operator f st f' st' h
  case operator.ended => exact GoesOn.operatorEnded f st f' st' h
  case operands.ready => exact GoesOn.operands f st f' st' h
  case operands.ended =>
    rw [operandEnded_stage h, hs]
    simp
  case apply.ready => exact GoesOn.apply f st f' st' h
  case expand.ended => exact GoesOn.expansionEnded f st f' st' h
  all_goals cases h

end Handler

end Frame

/-! ## Steps -/

namespace FrameStack

open LispEngines.Frame (Flow Handler)

variable {m m₁ m₂ m' : FrameStack} {st st₁ st₂ st' : Store} {k : Nat} {flow : Flow} {e : Failure}

theorem turn_ok (h : dispatchTop m st = ((.ok flow, m'), st')) :
    turn m st = ((.ok (), m'.after flow), st') := by
  rw [turn, Step.bind_ok h]
  rfl

theorem turn_error (h : dispatchTop m st = ((.error e, m'), st')) :
    turn m st = ((.error e, m'), st') := by
  rw [turn, Step.bind_error h]

theorem dispatchTop_of_dispatch {r : Except Failure Flow} {f : Frame}
    (h : Handler.dispatch { m.top with steps := m.top.steps + 1 } st = ((r, f), st')) :
    dispatchTop m st = ((r, { m with top := f, steps := m.steps + 1 }), st') := by
  obtain ⟨top, below, depth, steps, most, hd⟩ := m
  simp only [dispatchTop, h]

theorem dispatch_of_dispatchTop {r : Except Failure Flow}
    (h : dispatchTop m st = ((r, m'), st')) :
    Handler.dispatch { m.top with steps := m.top.steps + 1 } st = ((r, m'.top), st') := by
  rcases hx : Handler.dispatch { m.top with steps := m.top.steps + 1 } st with ⟨⟨r, f⟩, st₁⟩
  rw [dispatchTop_of_dispatch hx] at h
  cases h
  rfl

theorem below_of_dispatchTop {r : Except Failure Flow}
    (h : dispatchTop m st = ((r, m'), st')) : m'.below = m.below := by
  cases h
  rfl

theorem not_halted_of_again (h : dispatchTop m st = ((.ok .again, m'), st')) : ¬ m'.Halted := by
  rintro ⟨hd, -⟩
  rcases hx : Handler.dispatch { m.top with steps := m.top.steps + 1 } st with ⟨⟨r, f⟩, st₁⟩
  rw [dispatchTop, hx] at h
  cases h
  have hs : f.stage = .done := by simpa [isDone, Frame.isDone] using (Bool.and_eq_true_iff.mp hd).2
  exact Handler.dispatch_goesOn _ _ _ _ hx hs

theorem pop_of_below {parent : Frame} {rest : List Frame} (h : m.below = parent :: rest) :
    m.pop.top = { parent with wait := .ended, incoming := m.top.result } ∧
      m.pop.below = rest := by
  obtain ⟨top, below, depth, steps, most, hd⟩ := m
  dsimp only at h
  subst h
  exact ⟨rfl, rfl⟩

/-- A frame that has just been given a value has not halted. -/
theorem not_halted_pop (h : m.below ≠ []) : ¬ m.pop.Halted := by
  obtain ⟨top, _ | ⟨parent, below⟩, depth, steps, maxDepth, hd⟩ := m
  · exact absurd rfl h
  · rintro ⟨-, hw⟩
    cases hw

theorem pop_of_nil (h : m.below = []) : m.pop = m := by
  obtain ⟨top, _ | ⟨parent, below⟩, depth, steps, maxDepth, hd⟩ := m
  · rfl
  · cases h

theorem length_pop (h : m.below ≠ []) : m.pop.below.length + 1 = m.below.length := by
  obtain ⟨top, _ | ⟨parent, below⟩, depth, steps, maxDepth, hd⟩ := m
  · exact absurd rfl h
  · rfl

theorem maxDepth_of_dispatchTop {r : Except Failure Flow}
    (h : dispatchTop m st = ((r, m'), st')) : m'.maxDepth = m.maxDepth := by
  cases h
  rfl

@[simp] theorem maxDepth_pop (m : FrameStack) : m.pop.maxDepth = m.maxDepth := by
  obtain ⟨top, _ | ⟨parent, below⟩, depth, steps, most, hd⟩ := m <;> rfl

theorem MadeOfTurns.prepend {α : Type} {post : α → FrameStack → FrameStack}
    {x : (Except Failure α × FrameStack) × Store} (h : Turns k m st m₁ st₁)
    (hd : m₁.maxDepth = m.maxDepth) (hx : MadeOfTurns post m₁ st₁ x) :
    MadeOfTurns post m st x := by
  cases hx with
  | ok h' hd' hm ht => exact .ok (h.trans h') (hd'.trans hd) hm ht
  | error h' hd' hm hf => exact .error (h.trans h') (hd'.trans hd) hm hf

/-- The work of the top frame is made of turns. -/
theorem runTop_turns : ∀ (bound : Nat) {m : FrameStack} {st : Store}, ¬ m.Halted →
    MadeOfTurns (fun flow m' => m'.after flow) m st (runTop (bound + 1) m st) := by
  intro bound
  induction bound with
  | zero =>
    intro m st hm
    rcases h : dispatchTop m st with ⟨⟨e | flow, m₁⟩, st₁⟩
    · rw [runTop, Step.bind_error h]
      exact .error .refl rfl hm (turn_error h)
    · rw [runTop, Step.bind_ok h]
      cases flow <;> exact .ok .refl rfl hm (turn_ok h)
  | succ bound ih =>
    intro m st hm
    rcases h : dispatchTop m st with ⟨⟨e | flow, m₁⟩, st₁⟩
    · rw [runTop, Step.bind_error h]
      exact .error .refl rfl hm (turn_error h)
    · rw [runTop, Step.bind_ok h]
      cases flow with
      | again =>
        exact (ih (not_halted_of_again h)).prepend (.single hm (turn_ok h))
          (maxDepth_of_dispatchTop h)
      | _ => exact .ok .refl rfl hm (turn_ok h)

/-- The work of the top frame leaves the frames below alone, and it brings no new ones. -/
theorem kept_of_runTop : ∀ (bound : Nat) {m m' : FrameStack} {st st' : Store}
    {r : Except Failure Flow}, runTop bound m st = ((r, m'), st') →
    m'.below = m.below ∧ m'.maxDepth = m.maxDepth := by
  intro bound
  induction bound with
  | zero =>
    intro m m' st st' r h
    cases h
    exact ⟨rfl, rfl⟩
  | succ bound ih =>
    intro m m' st st' r h
    rcases hd : dispatchTop m st with ⟨⟨e | flow, m₁⟩, st₁⟩
    · rw [runTop, Step.bind_error hd] at h
      cases h
      exact ⟨below_of_dispatchTop hd, maxDepth_of_dispatchTop hd⟩
    · rw [runTop, Step.bind_ok hd] at h
      rw [← below_of_dispatchTop hd, ← maxDepth_of_dispatchTop hd]
      cases flow with
      | again => exact ih h
      | _ => cases h; exact ⟨rfl, rfl⟩

theorem advanceTop_turns (st : Store) (hm : ¬ m.Halted) :
    MadeOfTurns (fun flow m' => m'.after flow) m st (advanceTop m st) :=
  runTop_turns (4 * st.lists.size + 15) hm

/-- What is done after the work of the top frame is made of turns of the frames below. -/
theorem settle_turns : ∀ (below : Nat) {k : Nat} {flow : Flow} {m m₀ m₁ : FrameStack}
    {st st₀ st₁ : Store}, m₁.below.length = below → m₁.maxDepth = m.maxDepth →
    Turns k m st m₀ st₀ → m₀.maxDepth = m.maxDepth → ¬ m₀.Halted →
    turn m₀ st₀ = ((.ok (), m₁.after flow), st₁) →
    MadeOfTurns (fun _ m' => m') m st (settle below flow m₁ st₁) := by
  intro below
  induction below with
  | zero =>
    intro k flow m m₀ m₁ st st₀ st₁ hb _ h hd hm ht
    cases flow with
    | done =>
      rw [after, pop_of_nil (List.length_eq_zero_iff.mp hb)] at ht
      exact .ok h hd hm ht
    | _ => exact .ok h hd hm ht
  | succ below ih =>
    intro k flow m m₀ m₁ st st₀ st₁ hb hd₁ h hd hm ht
    cases flow with
    | done =>
      have hne : m₁.below ≠ [] := List.ne_nil_of_length_eq_add_one hb
      have hlen : m₁.pop.below.length = below := Nat.succ.inj ((length_pop hne).trans hb)
      have hs : settle (below + 1) .done m₁ st₁ =
          (advanceTop >>= settle below) m₁.pop st₁ := rfl
      have ha := (advanceTop_turns st₁ (not_halted_pop hne)).prepend
        (h.trans (.single hm ht)) ((maxDepth_pop m₁).trans hd₁)
      rw [hs]
      rcases hx : advanceTop m₁.pop st₁ with ⟨⟨e | flow, m₂⟩, st₂⟩ <;> rw [hx] at ha
      · rw [Step.bind_error hx]
        cases ha with
        | error ht hd hm hf => exact .error ht hd hm hf
      · rw [Step.bind_ok hx]
        obtain ⟨hb₂, hd₂⟩ := kept_of_runTop _ hx
        cases ha with
        | ok h' hd' hm' ht' =>
          exact ih (hb₂ ▸ hlen) ((hd₂.trans (maxDepth_pop m₁)).trans hd₁) h' hd' hm' ht'
    | _ => exact .ok h hd hm ht

/-- A step is made of turns. -/
theorem step_turns (st : Store) (hm : m.isDone = false) :
    MadeOfTurns (fun _ m' => m') m st (step m st) := by
  have hs : step m st = (advanceTop >>= settle (m.depth - 1)) m st := by
    simp only [step, Step.get_bind, hm]
    rfl
  have ha := advanceTop_turns st (m := m) (fun h => by cases hm.symm.trans h.1)
  rw [hs]
  rcases hx : advanceTop m st with ⟨⟨e | flow, m₁⟩, st₁⟩ <;> rw [hx] at ha
  · rw [Step.bind_error hx]
    cases ha with
    | error ht hd hm hf => exact .error ht hd hm hf
  · rw [Step.bind_ok hx]
    obtain ⟨hb, hd₁⟩ := kept_of_runTop _ hx
    cases ha with
    | ok h hd hm ht =>
      refine settle_turns _ ?_ hd₁ h hd hm ht
      rw [hb, m.depth_eq, Nat.add_sub_cancel]

/-! ## Runs -/

theorem run_succ (fuel : Nat) (m : FrameStack) (st : Store) :
    run (fuel + 1) m st = (if m.isDone then do
      match (← get).top.result with
      | some v => pure v
      | none => Run.act Action.newNil
    else do
      Run.ofStep step
      run fuel : Run FrameStack Value) m st := rfl

theorem run_of_isDone {fuel : Nat} (hd : m.isDone = true) :
    run (fuel + 1) m st =
      (m.top.result.elim (Run.act Action.newNil) pure : Run FrameStack Value) m st := by
  rw [run_succ, hd]
  show (match m.top.result with
    | some v => pure v
    | none => Run.act Action.newNil : Run FrameStack Value) m st = _
  cases m.top.result <;> rfl

theorem run_done {fuel : Nat} {v : Value} (hd : m.isDone = true) (hr : m.top.result = some v) :
    run (fuel + 1) m st = some ((.ok v, m), st) := by
  rw [run_of_isDone hd, hr]
  rfl

theorem run_step {fuel : Nat} (hd : m.isDone = false) :
    run (fuel + 1) m st =
      match step m st with
      | ((.ok (), m₁), st₁) => run fuel m₁ st₁
      | ((.error e, m₁), st₁) => some ((.error e, m₁), st₁) := by
  have h : (do Run.ofStep step; run fuel : Run FrameStack Value) m st =
      ExceptT.bindCont (fun _ => run fuel) (step m st).1.1 (step m st).1.2 (step m st).2 := rfl
  rw [run_succ, hd]
  refine h.trans ?_
  rcases step m st with ⟨⟨_ | _, _⟩, _⟩ <;> rfl

end FrameStack

end LispEngines
