import LispEngines.Proofs.Frame.Invariant
import Mathlib

/-!
# Steps come to an end

A step of a stack of frames consists of two loops, one in the other.  The inner one runs handlers
of the top frame until one of them does not ask to go on at once (`Works`).  The outer one hands
the result of a frame that has ended to the frame below and has that one work, until there is no
frame below or a frame pauses (`Unwinds`).  Neither loop counts: `step` does, under bounds that
this file shows never to be used up.  So the loops end, and what they come to is what `step`
computes (`step_terminates`).

The outer loop runs once for every frame at most.  The inner one ends because a frame looks into
lists of falling rank until it calls a procedure, and it does not call a second one without
waiting (`Frame.settles_of_met`).  What is left is what a failure leaves behind.  A handler that
fails may have taken its value already, and the next step then finds a frame that waits for
nothing in a stage in which only waiting frames have a handler; it fails again, at once.  All
other failures leave a frame that a handler can be run on.  In both cases the frame is `Free`.

* `Frame.Free`: the frame waits for nothing.  `Frame.free_dispatch`: handlers leave frames free.
* `Works`, `Unwinds`, `Dispatches`: the loops of a step, with the number of handlers they run.
* `Stepped`: the stacks that come of an evaluation by steps that may fail.
-/

namespace LispEngines

namespace Frame

open Handler

variable {strict : Bool} {f : Frame} {st : Store}

/-! ## Frames that wait for nothing -/

/-- The frame waits for nothing, and no value is there for it to take. -/
structure Free (f : Frame) : Prop where
  wait : f.wait = .ready
  incoming : f.incoming = none

theorem Free.counted (h : f.Free) (n : Nat) : Free { f with steps := n } := ⟨h.wait, h.incoming⟩

theorem Met.counted (h : f.Met) (n : Nat) : Met { f with steps := n } := by
  rcases h with ⟨hs, hw, hi⟩ | ⟨hs, hw, hi⟩
  · exact .ready hs hw hi
  · exact .ended hs hw hi

namespace Handler

/-- Work that leaves a free frame free, whether it succeeds or not. -/
def Frees {α : Type} (x : Handler α) : Prop := ∀ f st, f.Free → (x f st).1.2.Free

namespace Frees

variable {α β : Type}

theorem bind {x : Handler α} {k : α → Handler β} (hx : Frees x) (hk : ∀ v, Frees (k v)) :
    Frees (x >>= k) := by
  intro f st hf
  have h := hx f st hf
  rw [Step.bind_apply]
  rcases hr : x f st with ⟨⟨e | v, f₁⟩, st₁⟩ <;> rw [hr] at h
  · exact h
  · exact hk v f₁ st₁ h

theorem pure (v : α) : Frees (pure v) := fun _ _ hf => hf

theorem throw (e : Failure) : Frees (throw e : Handler α) := fun _ _ hf => hf

theorem get : Frees get := fun _ _ hf => hf

theorem items : Frees items := fun _ _ hf => hf

theorem act (a : Action α) : Frees (Step.act a) := fun _ _ hf => hf

theorem modify {u : Frame → Frame} (h : ∀ f : Frame, f.Free → (u f).Free) : Frees (modify u) :=
  fun f _ hf => h f hf

theorem orNil (o : Option Value) : Frees (orNil o) := by
  cases o with
  | none => exact act _
  | some v => exact pure v

theorem finish (v : Value) : Frees (finish v) :=
  bind (modify fun _ hf => ⟨rfl, hf.incoming⟩) fun _ => pure _

theorem act_finish (a : Action Value) : Frees (do Handler.finish (← Step.act a)) :=
  bind (act a) finish

theorem restart (x : Value) (t : Option ScopeRef) : Frees (restart x t) :=
  bind (modify fun _ hf => ⟨rfl, hf.incoming⟩) fun _ => pure _

theorem goOn (stage : Stage) : Frees (goOn stage) :=
  bind (modify fun _ hf => ⟨hf.wait, hf.incoming⟩) fun _ => pure _

theorem spawn (x : Value) : Frees (spawn x) := bind get fun _ => pure _

end Frees

theorem frees_enter : Frees enter := by
  refine .bind .get fun f => ?_
  split
  · exact .act_finish _
  · refine .bind .items fun xs => ?_
    split
    · exact .act_finish _
    · exact .goOn _
  · exact .finish _

theorem frees_binding (form : SpecialForm) (xs : List Value) :
    Frees (do
      discard (Step.act (form.boundName xs))
      let v ← Step.act (form.operand xs 2)
      modify fun f : Frame => { f with stage := .define }
      Handler.spawn v) := by
  rw [discard_bind]
  exact .bind (.act _) fun _ => .bind (.act _) fun _ =>
    .bind (.modify fun _ hf => ⟨hf.wait, hf.incoming⟩) fun _ => .spawn _

theorem frees_builtin : Frees builtin := by
  refine .bind .get fun f => .bind .items fun xs => ?_
  rcases SpecialForm.ofItems? xs with _ | (_ | _ | _ | _ | _ | _ | _) <;> dsimp only
  case none => exact .goOn _
  case some.quote => exact .act_finish _
  case some.lambda => exact .act_finish _
  case some.expander => exact .act_finish _
  case some.branch =>
    exact .bind (.act _) fun _ =>
      .bind (.modify fun _ hf => ⟨hf.wait, hf.incoming⟩) fun _ => .spawn _
  case some.define => exact frees_binding .define xs
  case some.assign => exact frees_binding .assign xs
  case some.sequence =>
    exact .bind (.modify fun _ hf => ⟨hf.wait, hf.incoming⟩) fun _ => .goOn _

theorem frees_sequence : Frees sequence := by
  refine .bind .get fun f => ?_
  split
  · exact .bind .get fun _ => .bind (.modify fun _ hf => ⟨hf.wait, hf.incoming⟩) fun _ =>
      .bind (.orNil _) .finish
  · exact .bind (.modify fun _ hf => ⟨hf.wait, hf.incoming⟩) fun _ => .restart _ _
  · exact .bind (.modify fun _ hf => ⟨hf.wait, hf.incoming⟩) fun _ => .spawn _

theorem frees_operator : Frees operator := by
  refine .bind .items fun xs => ?_
  split
  · exact .spawn _
  · exact .bind (.act _) .spawn

theorem frees_operands : Frees operands := by
  refine .bind .get fun f => ?_
  split
  · exact .bind (.modify fun _ hf => ⟨hf.wait, hf.incoming⟩) fun _ => .spawn _
  · exact .goOn _

theorem frees_apply : Frees apply := by
  refine .bind .get fun f => .bind (.modify fun _ hf => ⟨hf.wait, hf.incoming⟩) fun _ =>
    .bind .get fun f' => ?_
  split
  · exact .act_finish _
  · exact .bind .get fun _ => .act_finish _
  · exact .bind (.act _) fun _ => .bind (.act _) fun _ => .restart _ _
  · exact .bind (.act _) fun _ => .bind (.modify fun _ hf => ⟨hf.wait, hf.incoming⟩) fun _ =>
      .bind (.act _) fun _ => .pure _
  · exact .bind (.orNil _) fun _ => .act _

/-! ### Handlers that take a value -/

/-- A handler that takes a value leaves the frame free, whatever it finds. -/
theorem free_of_takeIncoming {k : Value → Handler Flow} (hk : ∀ v, Frees (k v)) (f : Frame)
    (st : Store) : ((takeIncoming >>= k) f st).1.2.Free := by
  have h : Frees (orNil f.incoming >>= k) := .bind (.orNil _) hk
  exact h { f with wait := .ready, incoming := none } st ⟨rfl, rfl⟩

theorem free_sequenceEnded (f : Frame) (st : Store) : (sequenceEnded f st).1.2.Free := by
  refine free_of_takeIncoming (fun v => ?_) f st
  exact .bind (.modify fun _ hf => ⟨hf.wait, hf.incoming⟩) fun _ => .pure _

theorem free_branchEnded (f : Frame) (st : Store) : (branchEnded f st).1.2.Free := by
  refine free_of_takeIncoming (fun test => ?_) f st
  exact .bind .items fun _ => .bind (.act _) fun _ => .restart _ _

theorem free_defineEnded (f : Frame) (st : Store) : (defineEnded f st).1.2.Free := by
  refine free_of_takeIncoming (fun v => ?_) f st
  exact .bind .items fun _ => .bind (.act _) fun _ => .bind .get fun _ => .act_finish _

theorem free_operatorEnded (f : Frame) (st : Store) : (operatorEnded f st).1.2.Free := by
  refine free_of_takeIncoming (fun callee => .bind .items fun _ => ?_) f st
  dsimp only
  split
  · exact .bind (.modify fun _ hf => ⟨hf.wait, hf.incoming⟩) fun _ => .pure _
  · exact .bind (.modify fun _ hf => ⟨hf.wait, hf.incoming⟩) fun _ => .pure _

theorem free_operandEnded (f : Frame) (st : Store) : (operandEnded f st).1.2.Free := by
  refine free_of_takeIncoming (fun v => ?_) f st
  exact .bind (.modify fun _ hf => ⟨hf.wait, hf.incoming⟩) fun _ => .pure _

theorem free_expansionEnded (f : Frame) (st : Store) : (expansionEnded f st).1.2.Free :=
  free_of_takeIncoming (fun _ => .restart _ _) f st

/-! ### All of them -/

/-- The handler of a free frame leaves it free. -/
theorem frees_dispatch : Frees dispatch := by
  refine .bind .get fun f₀ => ?_
  cases f₀.stage <;> cases f₀.wait <;> dsimp only
  case enter.ready => exact frees_enter
  case builtin.ready => exact frees_builtin
  case sequence.ready => exact frees_sequence
  case sequence.ended => exact fun f st _ => free_sequenceEnded f st
  case branchTest.ended => exact fun f st _ => free_branchEnded f st
  case define.ended => exact fun f st _ => free_defineEnded f st
  case operator.ready => exact frees_operator
  case operator.ended => exact fun f st _ => free_operatorEnded f st
  case operands.ready => exact frees_operands
  case operands.ended => exact fun f st _ => free_operandEnded f st
  case apply.ready => exact frees_apply
  case expand.ended => exact fun f st _ => free_expansionEnded f st
  all_goals exact .throw _

/-- The handler of a frame that has been given what it waits for leaves it free as well. -/
theorem free_dispatch (h : f.Free ∨ f.Met) (st : Store) : (dispatch f st).1.2.Free := by
  rcases h with h | ⟨-, hw, hi⟩ | ⟨hs, hw, -⟩
  · exact frees_dispatch f st h
  · exact frees_dispatch f st ⟨hw, hi⟩
  · rw [dispatch, Step.get_bind, hw]
    cases hg : f.stage <;> rw [hg] at hs <;> try exact hs.elim
    case sequence => exact free_sequenceEnded f st
    case branchTest => exact free_branchEnded f st
    case define => exact free_defineEnded f st
    case operator => exact free_operatorEnded f st
    case operands => exact free_operandEnded f st
    case expand => exact free_expansionEnded f st

end Handler

/-- A free frame that no handler can be run on is left as it is. -/
theorem dispatch_of_not_met (h : f.Free) (hm : ¬ f.Met) (n : Nat) (st : Store) :
    dispatch { f with steps := n } st =
      ((.error (.noHandler f.phase), { f with steps := n }), st) := by
  have hg : ¬ f.stage.Goes := fun hs => hm (.ready hs h.wait h.incoming)
  obtain ⟨stage, wait, expr, scope, result, incoming, body, callee, pending, args, steps⟩ := f
  obtain rfl : wait = .ready := h.wait
  cases stage <;> first | exact absurd trivial hg | rfl

/-- A frame between two steps, even if the last one has failed, and a frame within a step come to
a stop under the bound of a step. -/
theorem settles_of_free (ht : st.Tidy strict) (hf : f.Within strict st) (h : f.Free ∨ f.Met) :
    Settles (FrameStack.handlerBound st) f st := by
  by_cases hm : f.Met
  · exact settles_of_met ht hf hm
  · have hfree := h.resolve_right hm
    refine Settles.mono (n := 1) (fun f₁ st₁ hd => ?_) (by rw [FrameStack.handlerBound]; omega)
    cases hd.symm.trans (dispatch_of_not_met hfree hm _ st)

end Frame

/-! ## The loops of a step -/

namespace FrameStack

open LispEngines.Frame (Flow Handler Pauses Settles)

variable {strict : Bool} {m m₁ : FrameStack} {st st₁ : Store} {n n' k : Nat}

/-- What a step of a stack comes to. -/
abbrev Outcome (α : Type) := (Except Failure α × FrameStack) × Store

/-- The inner loop: handlers of the top frame, until one does not ask to go on at once. -/
inductive Works : Nat → FrameStack → Store → Outcome Flow → Prop
  | last {m m₁ : FrameStack} {st st₁ : Store} {r : Except Failure Flow}
      (h : dispatchTop m st = ((r, m₁), st₁)) (hr : r ≠ .ok .again) : Works 1 m st ((r, m₁), st₁)
  | again {n : Nat} {m m₁ : FrameStack} {st st₁ : Store} {out : Outcome Flow}
      (h : dispatchTop m st = ((.ok .again, m₁), st₁)) (hw : Works n m₁ st₁ out) :
      Works (n + 1) m st out

/-- The outer loop, from what the top frame's work came to: frames that have ended hand over
their results. -/
inductive Unwinds : Nat → Outcome Flow → Outcome Unit → Prop
  | failed {e : Failure} {m : FrameStack} {st : Store} :
      Unwinds 0 ((.error e, m), st) ((.error e, m), st)
  | again {m : FrameStack} {st : Store} : Unwinds 0 ((.ok .again, m), st) ((.ok (), m), st)
  | stay {m : FrameStack} {st : Store} : Unwinds 0 ((.ok .stay, m), st) ((.ok (), m), st)
  | spawn {x : Value} {s : ScopeRef} {m : FrameStack} {st : Store} :
      Unwinds 0 ((.ok (.spawn x s), m), st) ((.ok (), m.push x s), st)
  | ended {m : FrameStack} {st : Store} (h : m.below = []) :
      Unwinds 0 ((.ok .done, m), st) ((.ok (), m), st)
  | handed {n k : Nat} {m : FrameStack} {st : Store} {out : Outcome Flow} {out' : Outcome Unit}
      (h : m.below ≠ []) (hw : Works n m.pop st out) (hu : Unwinds k out out') :
      Unwinds (n + k) ((.ok .done, m), st) out'

/-- A step, with the number of handlers that its loops run. -/
inductive Dispatches : Nat → FrameStack → Store → Outcome Unit → Prop
  | idle {m : FrameStack} {st : Store} (h : m.isDone = true) : Dispatches 0 m st ((.ok (), m), st)
  | works {n k : Nat} {m : FrameStack} {st : Store} {out : Outcome Flow} {out' : Outcome Unit}
      (h : m.isDone = false) (hw : Works n m st out) (hu : Unwinds k out out') :
      Dispatches (n + k) m st out'

/-! ### The loops come to one thing at most -/

theorem Works.unique {out out' : Outcome Flow} (h : Works n m st out) :
    ∀ {n'}, Works n' m st out' → n' = n ∧ out' = out := by
  induction h with
  | last h hr =>
    intro n' h'
    cases h' with
    | last h' _ => exact ⟨rfl, h'.symm.trans h⟩
    | again h' _ =>
      cases h'.symm.trans h
      exact absurd rfl hr
  | again h _ ih =>
    intro n' h'
    cases h' with
    | last h' hr =>
      cases h'.symm.trans h
      exact absurd rfl hr
    | again h' hw =>
      cases h'.symm.trans h
      obtain ⟨rfl, rfl⟩ := ih hw
      exact ⟨rfl, rfl⟩

theorem Unwinds.unique {out : Outcome Flow} {out₁ out₂ : Outcome Unit} (h : Unwinds n out out₁) :
    ∀ {n'}, Unwinds n' out out₂ → n' = n ∧ out₂ = out₁ := by
  induction h with
  | failed | again | stay | spawn =>
    intro n' h'
    cases h'
    exact ⟨rfl, rfl⟩
  | ended h =>
    intro n' h'
    cases h' with
    | ended _ => exact ⟨rfl, rfl⟩
    | handed hn => exact absurd h hn
  | handed h hw _ ih =>
    intro n' h'
    cases h' with
    | ended hn => exact absurd hn h
    | handed _ hw' hu' =>
      obtain ⟨rfl, rfl⟩ := hw.unique hw'
      obtain ⟨rfl, rfl⟩ := ih hu'
      exact ⟨rfl, rfl⟩

theorem Dispatches.unique {out out' : Outcome Unit} (h : Dispatches n m st out)
    (h' : Dispatches n' m st out') : n' = n ∧ out' = out := by
  cases h with
  | idle hd =>
    cases h' with
    | idle _ => exact ⟨rfl, rfl⟩
    | works hn => exact absurd (hd.symm.trans hn) nofun
  | works hd hw hu =>
    cases h' with
    | idle hn => exact absurd (hn.symm.trans hd) nofun
    | works _ hw' hu' =>
      obtain ⟨rfl, rfl⟩ := hw.unique hw'
      obtain ⟨rfl, rfl⟩ := hu.unique hu'
      exact ⟨rfl, rfl⟩

/-! ### Every handler is counted -/

theorem steps_of_dispatchTop {r : Except Failure Flow} (h : dispatchTop m st = ((r, m₁), st₁)) :
    m₁.steps = m.steps + 1 := by
  cases h
  rfl

@[simp] theorem steps_pop (m : FrameStack) : m.pop.steps = m.steps := by
  obtain ⟨top, _ | ⟨parent, below⟩, depth, steps, most, hd⟩ := m <;> rfl

theorem Works.steps {out : Outcome Flow} (h : Works n m st out) :
    out.1.2.steps = m.steps + n := by
  induction h with
  | last h _ => exact steps_of_dispatchTop h
  | again h _ ih =>
    rw [ih, steps_of_dispatchTop h]
    omega

theorem Unwinds.steps {out : Outcome Flow} {out' : Outcome Unit} (h : Unwinds n out out') :
    out'.1.2.steps = out.1.2.steps + n := by
  induction h with
  | failed | again | stay | spawn | ended _ => rfl
  | @handed n k m st _ _ _ hw _ ih =>
    rw [ih, hw.steps, steps_pop]
    exact Nat.add_assoc ..

theorem Dispatches.steps {out : Outcome Unit} (h : Dispatches n m st out) :
    out.1.2.steps = m.steps + n := by
  cases h with
  | idle _ => rfl
  | works _ hw hu =>
    rw [hu.steps, hw.steps]
    exact Nat.add_assoc ..

/-! ## What the loops leave -/

/-- What the work of the top frame leaves. -/
structure Leaves (strict : Bool) (m : FrameStack) (st : Store) (out : Outcome Flow) : Prop where
  sound : out.1.2.Sound strict out.2
  below : out.1.2.below = m.below
  free : out.1.2.top.Free
  grows : st.Grows out.2
  flow : ∀ flow, out.1.1 = .ok flow →
    flow.Within strict out.2 ∧ (Pauses flow out.1.2.top ∨ flow = .again ∧ out.1.2.top.Met)

/-- A stack is as good after a handler of its top frame, even if the handler fails. -/
theorem leaves_dispatchTop (h : m.Sound strict st) (hm : m.top.Free ∨ m.top.Met) :
    Leaves strict m st (dispatchTop m st) := by
  rcases hd : dispatchTop m st with ⟨⟨r, m₁⟩, st₁⟩
  have hdf := dispatch_of_dispatchTop hd
  have hb := below_of_dispatchTop hd
  have hf : Frame.Within strict st { m.top with steps := m.top.steps + 1 } := { h.top with }
  obtain ⟨ht, hg, hf₁, hfl⟩ := Frame.tidy_dispatch h.tidy hf hdf
  have hfree := Handler.free_dispatch (hm.imp (·.counted (m.top.steps + 1)) (·.counted _)) st
  rw [hdf] at hfree
  refine ⟨⟨ht, hf₁, hb ▸ fun f hm => (h.below f hm).mono hg, hb ▸ h.suspended⟩, hb, hfree, hg, ?_⟩
  rintro flow rfl
  refine ⟨hfl flow rfl, ?_⟩
  by_cases hmet : m.top.Met
  · exact ((gives_dispatchTop h hmet).of_ok hd).2.2.2
  · cases hdf.symm.trans (Frame.dispatch_of_not_met (hm.resolve_right hmet) hmet _ st)

/-- What the work of the top frame leaves, if it is not to go on at once. -/
theorem Works.leaves {out : Outcome Flow} (hw : Works n m st out) (h : m.Sound strict st)
    (hm : m.top.Free ∨ m.top.Met) :
    Leaves strict m st out ∧ ∀ flow, out.1.1 = .ok flow → Pauses flow out.1.2.top := by
  induction hw with
  | last hd hr =>
    have hl := leaves_dispatchTop h hm
    rw [hd] at hl
    refine ⟨hl, fun flow he => (hl.flow flow he).2.resolve_right fun ha => hr ?_⟩
    rw [← ha.1, ← he]
  | again hd _ ih =>
    have hl := leaves_dispatchTop h hm
    rw [hd] at hl
    obtain ⟨hl', hp⟩ := ih hl.sound (.inl hl.free)
    exact ⟨⟨hl'.sound, hl'.below.trans hl.below, hl'.free, hl.grows.trans hl'.grows, hl'.flow⟩, hp⟩

/-- The loop of the top frame ends, and `runTop` computes what it comes to. -/
theorem works_runTop : ∀ (n : Nat) {m : FrameStack} {st : Store}, Settles n m.top st →
    ∃ k ≤ n, Works k m st (runTop n m st)
  | 0, _, _, h => h.elim
  | n + 1, m, st, h => by
    rw [runTop_succ]
    rcases hd : dispatchTop m st with ⟨⟨e | flow, m₁⟩, st₁⟩
    · exact ⟨1, by omega, .last hd nofun⟩
    · cases flow with
      | again =>
        obtain ⟨k, hk, hw⟩ := works_runTop n (h m₁.top st₁ (dispatch_of_dispatchTop hd))
        exact ⟨k + 1, by omega, .again hd hw⟩
      | _ => exact ⟨1, by omega, .last hd nofun⟩

theorem works_advanceTop (h : m.Sound strict st) (hm : m.top.Free ∨ m.top.Met) :
    ∃ k ≤ handlerBound st, Works k m st (advanceTop m st) :=
  works_runTop _ (Frame.settles_of_free h.tidy h.top hm)

/-- What the rest of a step does with what the top frame's work came to. -/
def settled (below : Nat) : Outcome Flow → Outcome Unit
  | ((.ok flow, m), st) => settle below flow m st
  | ((.error e, m), st) => ((.error e, m), st)

theorem advanceTop_settle (below : Nat) (m : FrameStack) (st : Store) :
    (advanceTop >>= settle below) m st = settled below (advanceTop m st) := by
  rw [Step.bind_apply]
  rcases advanceTop m st with ⟨⟨e | flow, m₁⟩, st₁⟩ <;> rfl

theorem handlerBound_le (h : st.Grows st₁) : handlerBound st ≤ handlerBound st₁ := by
  have := h.lists.size_le
  rw [handlerBound, handlerBound]
  omega

/-- A stack between two steps, even if the last one has failed. -/
structure Calm (strict : Bool) (m : FrameStack) (st : Store) : Prop where
  sound : m.Sound strict st
  free : m.top.Free

/-- What the outer loop leaves, and that it ends: `settle` computes what it comes to. -/
structure Settled (strict : Bool) (frames : Nat) (out : Outcome Flow) (out' : Outcome Unit) :
    Prop where
  calm : Calm strict out'.1.2 out'.2
  grows : out.2.Grows out'.2
  unwinds : ∃ k ≤ frames * handlerBound out'.2, Unwinds k out out'

theorem settled_settle : ∀ (n : Nat) {m : FrameStack} {st : Store} {out : Outcome Flow},
    out.1.2.below.length = n → Leaves strict m st out →
    (∀ flow, out.1.1 = .ok flow → Pauses flow out.1.2.top) →
    Settled strict n out (settled n out) := by
  intro n
  induction n with
  | zero =>
    rintro m st ⟨⟨e | flow, m₁⟩, st₁⟩ hn hl hp
    · exact ⟨⟨hl.sound, hl.free⟩, .refl _, 0, Nat.zero_le _, .failed⟩
    have hw := (hl.flow flow rfl).1
    cases hp flow rfl with
    | done hs hwt hr =>
      exact ⟨⟨hl.sound, hl.free⟩, .refl _, 0, Nat.zero_le _,
        .ended (List.eq_nil_of_length_eq_zero hn)⟩
    | stay hs hwt hi => exact ⟨⟨hl.sound, hl.free⟩, .refl _, 0, Nat.zero_le _, .stay⟩
    | spawn hs hi =>
      exact ⟨⟨hl.sound.push hw.1 hw.2 hs hi, ⟨rfl, rfl⟩⟩, .refl _, 0, Nat.zero_le _, .spawn⟩
  | succ n ih =>
    rintro m st ⟨⟨e | flow, m₁⟩, st₁⟩ hn hl hp
    · exact ⟨⟨hl.sound, hl.free⟩, .refl _, 0, Nat.zero_le _, .failed⟩
    have hw := (hl.flow flow rfl).1
    cases hp flow rfl with
    | stay hs hwt hi => exact ⟨⟨hl.sound, hl.free⟩, .refl _, 0, Nat.zero_le _, .stay⟩
    | spawn hs hi =>
      exact ⟨⟨hl.sound.push hw.1 hw.2 hs hi, ⟨rfl, rfl⟩⟩, .refl _, 0, Nat.zero_le _, .spawn⟩
    | done hs hwt hr =>
      have hb : m₁.below ≠ [] := fun he => by
        dsimp only at hn
        rw [he] at hn
        cases hn
      have hlen : m₁.pop.below.length = n := by
        have := length_pop hb
        dsimp only at hn
        omega
      obtain ⟨hpop, hmet⟩ := hl.sound.pop hb hr
      obtain ⟨j, hj, hwork⟩ := works_advanceTop hpop (.inr hmet)
      obtain ⟨hl', hp'⟩ := hwork.leaves hpop (.inr hmet)
      have he : settled (n + 1) ((.ok .done, m₁), st₁) = settled n (advanceTop m₁.pop st₁) := by
        rw [← advanceTop_settle]
        show settle (n + 1) .done m₁ st₁ = _
        rw [settle, Step.modify_bind]
      obtain ⟨hc, hg, k, hk, hu⟩ := ih (hl'.below ▸ hlen) hl' hp'
      rw [he]
      refine ⟨hc, hl'.grows.trans hg, j + k, ?_, .handed hb hwork hu⟩
      rw [Nat.succ_mul, Nat.add_comm]
      exact Nat.add_le_add hk (hj.trans (handlerBound_le (hl'.grows.trans hg)))

/-! ## Every step ends -/

/-- A step from a calm stack ends, and leaves it calm over a store that has only grown. -/
theorem settled_step (h : Calm strict m st) :
    (Calm strict (step m st).1.2 (step m st).2 ∧ st.Grows (step m st).2) ∧
      ∃ n ≤ m.depth * handlerBound (step m st).2, Dispatches n m st (step m st) := by
  rw [step, Step.get_bind]
  cases hd : m.isDone with
  | true => exact ⟨⟨h, .refl st⟩, 0, Nat.zero_le _, .idle hd⟩
  | false =>
    rw [if_neg Bool.false_ne_true, Step.get_bind, advanceTop_settle]
    obtain ⟨j, hj, hwork⟩ := works_advanceTop h.sound (.inl h.free)
    obtain ⟨hl, hp⟩ := hwork.leaves h.sound (.inl h.free)
    have hlen : (advanceTop m st).1.2.below.length = m.depth - 1 := by
      rw [hl.below, m.depth_eq, Nat.add_sub_cancel]
    obtain ⟨hc, hg, k, hk, hu⟩ := settled_settle _ hlen hl hp
    refine ⟨⟨hc, hl.grows.trans hg⟩, j + k, ?_, .works hd hwork hu⟩
    have hdepth : m.depth = m.depth - 1 + 1 := by rw [m.depth_eq, Nat.add_sub_cancel]
    rw [hdepth, Nat.succ_mul, Nat.add_comm j]
    exact Nat.add_le_add hk (hj.trans (handlerBound_le (hl.grows.trans hg)))

/-- The stacks that come of an evaluation by any number of steps, some of which may have
failed. -/
inductive Stepped (m₀ : FrameStack) (st₀ : Store) : FrameStack → Store → Prop
  | start : Stepped m₀ st₀ m₀ st₀
  | step {m m₁ : FrameStack} {st st₁ : Store} {r : Except Failure Unit}
      (h : Stepped m₀ st₀ m st) (hs : FrameStack.step m st = ((r, m₁), st₁)) : Stepped m₀ st₀ m₁ st₁

theorem Stepped.calm {m₀ : FrameStack} {st₀ : Store} (h : Stepped m₀ st₀ m st)
    (h₀ : Calm strict m₀ st₀) : Calm strict m st := by
  induction h with
  | start => exact h₀
  | step _ hs ih =>
    have hc := (settled_step ih).1.1
    rwa [hs] at hc

/-- **Every step ends.**  Take an evaluation over a tidy store, and the stack after any number of
its steps, whether they have succeeded or failed.  Then the loops of the next step end, and in
what `step` computes.  The number of handlers they run is at most so many for every frame, and it
is what the step adds to the count of the stack. -/
theorem step_terminates {x : Value} {s : ScopeRef} {st₀ : Store} (ht : st₀.Tidy false)
    (hx : x.Within false st₀) (hs : s.index < st₀.scopes.size)
    (h : Stepped (start x s) st₀ m st) :
    ∃ n, Dispatches n m st (step m st) ∧
      (∀ n' out, Dispatches n' m st out → n' = n ∧ out = step m st) ∧
      n ≤ m.depth * handlerBound (step m st).2 ∧ (step m st).1.2.steps = m.steps + n := by
  have hc := h.calm ⟨sound_start ht hx hs, ⟨rfl, rfl⟩⟩
  obtain ⟨-, n, hn, hd⟩ := settled_step hc
  exact ⟨n, hd, fun _ _ hd' => hd.unique hd', hn, hd.steps⟩

/-- A store in which `f` is a procedure without parameters and with the body `(begin (f))`, and
the call `(f)`. -/
def endlessStore : Store where
  lists := #[[.symbol "f"], [], [.symbol "begin", .list ⟨0⟩],
    [.symbol "lambda", .list ⟨1⟩, .list ⟨2⟩]]
  scopes := #[{ bindings := [("f", .lambda ⟨⟨3⟩, ⟨0⟩⟩)] }]

theorem endlessStore_tidy : endlessStore.Tidy false := by
  have h₀ : (({} : Store).newScope none).2.Tidy false := .newScope (.empty {}) nofun
  have hword (name : String) (st : Store) : (Value.symbol name).Within false st :=
    Value.within_of_none rfl rfl
  have hlist {n : Nat} {st : Store} (h : n < st.lists.size) : (Value.list ⟨n⟩).Within false st :=
    Value.within_list h
  have h₁ := h₀.newList (List.forall_mem_singleton.mpr (hword "f" _))
  have h₂ := h₁.newList (List.forall_mem_nil _)
  have h₃ := h₂.newList (List.forall_mem_cons.mpr
    ⟨hword "begin" _, List.forall_mem_singleton.mpr (hlist (Nat.zero_lt_succ 1))⟩)
  have h₄ := h₃.newList (List.forall_mem_cons.mpr ⟨hword "lambda" _, List.forall_mem_cons.mpr
    ⟨hlist (by decide : 1 < 3), List.forall_mem_singleton.mpr (hlist (by decide : 2 < 3))⟩⟩)
  have hf := h₄.sealed.define ⟨0⟩ "f" (v := .lambda ⟨⟨3⟩, ⟨0⟩⟩)
    ⟨⟨fun r hr => by cases hr; decide, fun s hs => by cases hs; decide⟩, nofun⟩
  exact hf.tidy h₄.acyclic

/-- The program `(f)` never ends, but its second step does.  In this step the frame for `f` ends,
and the one for the call goes through the body of the procedure and the last form of the body to
the next call: ten handlers. -/
theorem second_step_terminates :
    ∃ m, step (start (.list ⟨0⟩) ⟨0⟩) endlessStore = ((.ok (), m), endlessStore) ∧
      Dispatches 10 m endlessStore (step m endlessStore) := by
  let m : FrameStack :=
    { top := { expr := .symbol "f", scope := ⟨0⟩ }
      below :=
        [{ stage := .operator, wait := .running, expr := .list ⟨0⟩, scope := ⟨0⟩, steps := 3 }]
      depth := 2
      steps := 3
      maxDepth := 2 }
  have h : step (start (.list ⟨0⟩) ⟨0⟩) endlessStore = ((.ok (), m), endlessStore) := by cbv
  have hsteps : (step m endlessStore).1.2.steps = 13 := by cbv
  obtain ⟨n, hd, -, -, hn⟩ := step_terminates endlessStore_tidy
    (Value.within_list (by decide)) (by decide) (.step .start h)
  obtain rfl : n = 10 := by
    have hcount : 3 + n = 13 := hn.symm.trans hsteps
    omega
  exact ⟨m, h, hd⟩

end FrameStack

end LispEngines
