import LispEngines.Proofs.Frame.Settling
import LispEngines.Schedule.Task

/-!
# A stack of frames between steps and within them

Every frame below the top waits for the one above it.  The frame on top is about to enter
an expression or in the middle of a sequence when a step begins; within a step it is in any
phase that has a handler, and a frame that takes a value has been given one
(`FrameStack.Sound`, `FrameStack.gives_step`, `FrameStack.sound_turns`).  So no evaluation
ever comes to a phase without a handler (`FrameStack.orderly_of_steps`).
-/

namespace LispEngines

namespace FrameStack

open LispEngines.Frame (Flow Handler Pauses Settles)

variable {strict : Bool} {m m₁ m₂ : FrameStack} {st st₁ st₂ : Store} {k : Nat}

/-- A number of steps that succeed. -/
inductive StepsTo : Nat → FrameStack → Store → FrameStack → Store → Prop
  | refl {m : FrameStack} {st : Store} : StepsTo 0 m st m st
  | tail {k : Nat} {m m₁ m₂ : FrameStack} {st st₁ st₂ : Store} (h : StepsTo k m st m₁ st₁)
      (hs : step m₁ st₁ = ((.ok (), m₂), st₂)) : StepsTo (k + 1) m st m₂ st₂

/-- A stack between two steps: the frames below the top wait, and the frame on top is about
to enter an expression, is in the middle of a sequence, or is all there is and done. -/
structure Orderly (m : FrameStack) : Prop where
  below : ∀ f ∈ m.below, f.Suspended
  top : (m.top.stage = .enter ∨ m.top.stage = .sequence) ∧ m.top.wait = .ready ∨
    m.below = [] ∧ m.top.stage = .done

/-- All frames refer to what is there, and those below the top wait. -/
structure Sound (strict : Bool) (m : FrameStack) (st : Store) : Prop where
  tidy : st.Tidy strict
  top : m.top.Within strict st
  below : ∀ f ∈ m.below, f.Within strict st
  suspended : ∀ f ∈ m.below, f.Suspended

/-- The whole evaluation has ended and left its result. -/
structure Ended (m : FrameStack) : Prop where
  below : m.below = []
  stage : m.top.stage = .done
  wait : m.top.wait = .ready
  result : m.top.result.isSome

theorem Ended.halted (h : m.Ended) : m.Halted := by
  refine ⟨?_, h.wait⟩
  rw [isDone, h.below, Frame.isDone, h.stage]
  rfl

theorem sound_start {x : Value} {s : ScopeRef} (ht : st.Tidy strict) (hx : x.Within strict st)
    (hs : s.index < st.scopes.size) : (start x s).Sound strict st where
  tidy := ht
  top := Frame.within_start hx hs
  below _ hf := absurd hf List.not_mem_nil
  suspended _ hf := absurd hf List.not_mem_nil

/-- A handler of the top frame leaves the frames below alone. -/
theorem gives_dispatchTop (h : m.Sound strict st) (hm : m.top.Met) :
    dispatchTop.Gives m st fun flow m₁ st₁ => m₁.Sound strict st₁ ∧ m₁.below = m.below ∧
      flow.Within strict st₁ ∧ (Pauses flow m₁.top ∨ flow = .again ∧ m₁.top.Met) := by
  unfold Step.Gives
  rcases hd : dispatchTop m st with ⟨⟨r, m₁⟩, st₁⟩
  have hdf := dispatch_of_dispatchTop hd
  have hb := below_of_dispatchTop hd
  have hf : Frame.Within strict st { m.top with steps := m.top.steps + 1 } := { h.top with }
  have hmet : Frame.Met { m.top with steps := m.top.steps + 1 } := by
    rcases hm with ⟨hs, hw, hi⟩ | ⟨hs, hw, hi⟩
    · exact .ready hs hw hi
    · exact .ended hs hw hi
  have hg := Handler.goes_dispatch st hmet
  obtain ⟨ht, hgr, hf₁, hfl⟩ := Frame.tidy_dispatch h.tidy hf hdf
  rcases r with e | flow
  · exact hg.of_error hdf
  · refine ⟨⟨ht, hf₁, hb ▸ fun f hm => (h.below f hm).mono hgr, hb ▸ h.suspended⟩, hb, hfl flow rfl, ?_⟩
    exact (hg.of_ok hdf).imp_right fun ha => ⟨ha.1, ha.2.1⟩

/-- The work of the top frame ends with a pause. -/
theorem gives_runTop : ∀ (n : Nat) {m : FrameStack} {st : Store}, m.Sound strict st → m.top.Met →
    Settles n m.top st → (runTop n).Gives m st fun flow m₁ st₁ => m₁.Sound strict st₁ ∧
      m₁.below = m.below ∧ flow.Within strict st₁ ∧ Pauses flow m₁.top
  | 0, _, _, _, _, h => h.elim
  | n + 1, m, st, h, hm, hn => by
    refine (gives_dispatchTop h hm).bind fun {flow m₁ st₁} hd hq => ?_
    obtain ⟨h₁, hb, hw, hp⟩ := hq
    have hn₁ : flow = .again → Settles n m₁.top st₁ := fun he =>
      hn m₁.top st₁ (by rw [dispatch_of_dispatchTop hd, he])
    rcases hp with hp | ⟨rfl, hm₁⟩
    · cases hp with
      | done hs hwt hr => exact ⟨h₁, hb, hw, .done hs hwt hr⟩
      | stay hs hwt hi => exact ⟨h₁, hb, hw, .stay hs hwt hi⟩
      | spawn hs hi => exact ⟨h₁, hb, hw, .spawn hs hi⟩
    · refine (gives_runTop n h₁ hm₁ (hn₁ rfl)).imp fun hq => ?_
      exact ⟨hq.1, hq.2.1.trans hb, hq.2.2⟩

theorem gives_advanceTop (h : m.Sound strict st) (hm : m.top.Met) :
    advanceTop.Gives m st fun flow m₁ st₁ => m₁.Sound strict st₁ ∧ m₁.below = m.below ∧
      flow.Within strict st₁ ∧ Pauses flow m₁.top := by
  have hg := gives_runTop (handlerBound st) h hm (Frame.settles_of_met h.tidy h.top hm)
  have ha : advanceTop m st = runTop (handlerBound st) m st := rfl
  unfold Step.Gives at *
  rwa [ha]

/-- A new frame on top, and the one below it waits. -/
theorem Sound.push (h : m.Sound strict st) {x : Value} {s : ScopeRef} (hx : x.Within strict st)
    (hs : s.index < st.scopes.size) (hw : m.top.stage.Waits) (hi : m.top.incoming = none) :
    (m.push x s).Sound strict st where
  tidy := h.tidy
  top := Frame.within_start hx hs
  below f hf := by
    rcases List.mem_cons.mp hf with rfl | hf
    · exact { h.top with }
    · exact h.below f hf
  suspended f hf := by
    rcases List.mem_cons.mp hf with rfl | hf
    · exact ⟨rfl, hw, hi⟩
    · exact h.suspended f hf

/-- The result of an ended frame is handed to the one below, which has been waiting. -/
theorem Sound.pop (h : m.Sound strict st) (hb : m.below ≠ []) {v : Value}
    (hv : m.top.result = some v) : m.pop.Sound strict st ∧ m.pop.top.Met := by
  obtain ⟨parent, rest, hb⟩ := List.exists_cons_of_ne_nil hb
  obtain ⟨htop, hrest⟩ := pop_of_below hb
  have hpm : parent ∈ m.below := hb ▸ List.mem_cons_self ..
  have hp := h.suspended parent hpm
  refine ⟨⟨h.tidy, ?_, ?_, ?_⟩, ?_⟩
  · rw [htop]
    exact { h.below parent hpm with incoming := h.top.result }
  · rw [hrest]
    exact fun f hf => h.below f (hb ▸ List.mem_cons_of_mem _ hf)
  · rw [hrest]
    exact fun f hf => h.suspended f (hb ▸ List.mem_cons_of_mem _ hf)
  · rw [htop]
    exact .ended hp.stage rfl hv

/-- Between two steps. -/
inductive Rests (m : FrameStack) : Prop
  | enter (hs : m.top.stage = .enter) (hw : m.top.wait = .ready) (hi : m.top.incoming = none)
  | sequence (hs : m.top.stage = .sequence) (hw : m.top.wait = .ready) (hi : m.top.incoming = none)
  | ended (h : m.Ended)

theorem Rests.met (h : m.Rests) : m.top.Met ∨ m.Ended := by
  rcases h with ⟨hs, hw, hi⟩ | ⟨hs, hw, hi⟩ | h
  · exact .inl (.ready (by rw [hs]; trivial) hw hi)
  · exact .inl (.ready (by rw [hs]; trivial) hw hi)
  · exact .inr h

/-- What the pause of a frame leads to. -/
theorem gives_settle : ∀ (n : Nat) {flow : Flow} {m : FrameStack} {st : Store},
    m.below.length = n → m.Sound strict st → flow.Within strict st → Pauses flow m.top →
    (settle n flow).Gives m st fun _ m₁ st₁ => m₁.Sound strict st₁ ∧ m₁.Rests := by
  intro n
  induction n with
  | zero =>
    intro flow m st hn h hw hp
    cases hp with
    | done hs hwt hr =>
      exact ⟨h, .ended ⟨List.eq_nil_of_length_eq_zero hn, hs, hwt, by rw [hr]; rfl⟩⟩
    | stay hs hwt hi => exact ⟨h, .sequence hs hwt hi⟩
    | spawn hs hi => exact ⟨h.push hw.1 hw.2 hs hi, .enter rfl rfl rfl⟩
  | succ n ih =>
    intro flow m st hn h hw hp
    cases hp with
    | stay hs hwt hi => exact ⟨h, .sequence hs hwt hi⟩
    | spawn hs hi => exact ⟨h.push hw.1 hw.2 hs hi, .enter rfl rfl rfl⟩
    | done hs hwt hr =>
      have hb : m.below ≠ [] := fun he => by rw [he] at hn; cases hn
      obtain ⟨hpop, hmet⟩ := h.pop hb hr
      have hl : m.pop.below.length = n := by have := length_pop hb; omega
      have he : settle (n + 1) .done m st = (advanceTop >>= settle n) m.pop st := by
        rw [settle, Step.modify_bind]
      unfold Step.Gives
      rw [he]
      refine (gives_advanceTop hpop hmet).bind fun _ hq => ?_
      exact ih (hq.2.1 ▸ hl) hq.1 hq.2.2.1 hq.2.2.2

/-- A step leaves the stack resting, or fails for a reason that the language knows. -/
theorem gives_step (h : m.Sound strict st) (hr : m.Rests) :
    step.Gives m st fun _ m₁ st₁ => m₁.Sound strict st₁ ∧ m₁.Rests := by
  unfold Step.Gives
  rw [step, Step.get_bind]
  cases hd : m.isDone with
  | true => exact ⟨h, hr⟩
  | false =>
    rw [if_neg Bool.false_ne_true, Step.get_bind]
    have hm : m.top.Met := hr.met.resolve_right fun he => by
      rw [he.halted.1] at hd
      cases hd
    refine (gives_advanceTop h hm).bind fun _ hq => ?_
    exact gives_settle _ (by rw [hq.2.1, m.depth_eq, Nat.add_sub_cancel]) hq.1 hq.2.2.1 hq.2.2.2

theorem sound_steps (hs : StepsTo k m st m₁ st₁) (h : m.Sound strict st) (hr : m.Rests) :
    m₁.Sound strict st₁ ∧ m₁.Rests := by
  induction hs with
  | refl => exact ⟨h, hr⟩
  | tail _ hs ih =>
    obtain ⟨h₁, hr₁⟩ := ih h hr
    exact (gives_step h₁ hr₁).of_ok hs

/-- Within a step as well, a frame that is not done is met by a handler. -/
theorem sound_turns (ht : Turns k m st m₁ st₁) : m.Sound strict st → m.top.Met ∨ m.Ended →
    m₁.Sound strict st₁ ∧ (m₁.top.Met ∨ m₁.Ended) := by
  induction ht with
  | refl => exact fun h hm => ⟨h, hm⟩
  | @head k m m₁ m₂ st st₁ st₂ hm h _ ih =>
    intro hs hmet
    have hmet : m.top.Met := hmet.resolve_right fun he => hm he.halted
    have hg := gives_dispatchTop hs hmet
    rcases hd : dispatchTop m st with ⟨⟨e | flow, m'⟩, st'⟩
    · rw [turn_error hd] at h
      cases h
    have heq := (turn_ok hd).symm.trans h
    obtain ⟨rfl, rfl⟩ : m'.after flow = m₁ ∧ st' = st₁ :=
      ⟨congrArg (fun o => o.1.2) heq, congrArg Prod.snd heq⟩
    obtain ⟨hs', hb, hw, hp⟩ := hg.of_ok hd
    suffices (m'.after flow).Sound strict st' ∧ ((m'.after flow).top.Met ∨ (m'.after flow).Ended) from
      ih this.1 this.2
    rcases hp with hp | ⟨rfl, hm'⟩
    · cases hp with
      | stay hst hwt hi =>
        have hm' : m'.top.Met := .ready (by rw [hst]; trivial) hwt hi
        exact ⟨hs', .inl hm'⟩
      | spawn hst hi => exact ⟨hs'.push hw.1 hw.2 hst hi, .inl (.ready trivial rfl rfl)⟩
      | done hst hwt hr =>
        by_cases hbn : m'.below = []
        · rw [after, pop_of_nil hbn]
          exact ⟨hs', .inr ⟨hbn, hst, hwt, by rw [hr]; rfl⟩⟩
        · exact (hs'.pop hbn hr).imp_right .inl
    · exact ⟨hs', .inl hm'⟩

theorem Rests.orderly (h : m.Sound strict st) (hr : m.Rests) : m.Orderly := by
  refine ⟨h.suspended, ?_⟩
  rcases hr with ⟨hs, hw, -⟩ | ⟨hs, hw, -⟩ | hr
  · exact .inl ⟨.inl hs, hw⟩
  · exact .inl ⟨.inr hs, hw⟩
  · exact .inr ⟨hr.below, hr.stage⟩

/-- There is a result if and only if the frame of the whole evaluation is done. -/
theorem isSome_value?_iff (h : m.Sound strict st) (hr : m.Rests) :
    (Task.frame m).value?.isSome = true ↔ m.root.isDone = true := by
  have hv : (Task.frame m).value? = if m.isDone then m.root.result else none := rfl
  rw [hv]
  rcases hb : m.below with _ | ⟨f, rest⟩
  · have hroot : m.root = m.top := by rw [root, hb]; rfl
    have hdone : m.isDone = m.top.isDone := by rw [isDone, hb]; rfl
    rw [hroot, hdone]
    cases hd : m.top.isDone with
    | false => simp
    | true =>
      rcases hr with ⟨hs, -, -⟩ | ⟨hs, -, -⟩ | he
      · rw [Frame.isDone, hs] at hd
        cases hd
      · rw [Frame.isDone, hs] at hd
        cases hd
      · simpa using he.result
  · have hdone : m.isDone = false := by rw [isDone, hb]; rfl
    have hroot : m.root ∈ m.below := by
      rw [root, hb, List.getLastD_cons]
      exact List.getLastD_mem_cons ..
    have hne : m.root.isDone = false := by
      have hw := (h.suspended _ hroot).stage
      cases hs : m.root.stage <;> rw [hs] at hw <;> first | exact hw.elim | rw [Frame.isDone, hs] ; rfl
    rw [hdone, hne]
    simp

/-- After any number of steps of an evaluation, the frames are in order and a result is there
if and only if the whole evaluation is done; and from there on every handler that takes a
value finds one, and no step comes to a phase without a handler.

That no list contains itself is part of `Tidy`, and matters for `runTop`.  A frame goes on with the
last form of a sequence within the same step.  On a sequence whose only form is the sequence itself
it would never pause, and `runTop` is cut off after `handlerBound` handlers, which leaves the frame
in the middle of a step. -/
theorem orderly_of_steps {x : Value} {s : ScopeRef} {st st' : Store} {n : Nat} {m : FrameStack}
    (ht : st.Tidy false) (hx : x.Within false st) (hs : s.index < st.scopes.size)
    (h : StepsTo n (start x s) st m st') :
    m.Orderly ∧ ((Task.frame m).value?.isSome = true ↔ m.root.isDone = true) ∧
      (∀ k m₁ st₁, Turns k m st' m₁ st₁ → ¬ m₁.Halted → m₁.top.wait = .ended →
        m₁.top.incoming.isSome = true) ∧
      ∀ e m₁ st₁, step m st' = ((.error e, m₁), st₁) → ∀ phase, e ≠ .noHandler phase := by
  obtain ⟨hm, hr⟩ := sound_steps h (sound_start ht hx hs) (.enter rfl rfl rfl)
  refine ⟨hr.orderly hm, isSome_value?_iff hm hr, fun k m₁ st₁ hk hn hw => ?_, fun e m₁ st₁ he => ?_⟩
  · rcases (sound_turns hk hm hr.met).2 with hm₁ | he
    · rcases hm₁ with ⟨-, hw', -⟩ | ⟨-, -, hi⟩
      · rw [hw] at hw'
        cases hw'
      · rw [hi]
        rfl
    · exact absurd he.halted hn
  · rintro phase rfl
    exact (gives_step hm hr).of_error he

/-- A store with a scope and the list `(begin 1 2)`. -/
def twoFormStore : Store :=
  ((({} : Store).newScope none).2.newList [.symbol "begin", .number 1, .number 2]).2

/-- After the first step of `(begin 1 2)`, one frame waits for another. -/
theorem orderly_in_sequence :
    ∃ m, StepsTo 1 (start (.list ⟨0⟩) ⟨0⟩) twoFormStore m twoFormStore ∧ m.below.length = 1 ∧
      m.Orderly := by
  have ht : twoFormStore.Tidy false := by
    refine .newList (.newScope (.empty {}) fun _ hp => by cases hp) fun v hv => ?_
    simp only [List.mem_cons, List.not_mem_nil, or_false] at hv
    rcases hv with rfl | rfl | rfl <;> exact Value.within_of_none rfl rfl
  have h : StepsTo 1 (start (.list ⟨0⟩) ⟨0⟩) twoFormStore _ twoFormStore := .tail .refl rfl
  exact ⟨_, h, rfl,
    (orderly_of_steps ht (Value.within_list (by decide)) (by decide) h).1⟩

end FrameStack

end LispEngines
