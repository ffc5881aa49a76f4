import LispEngines.Proofs.Frame.Following

/-!
# The phases of frames

Of the pairs of a stage and a wait state, twelve have a handler.  A frame that a handler is
run on is in one of these, and when it waits for a value the value is there (`Frame.Met`);
what the handler leaves behind is again in such a phase, or pauses, or waits for a frame
above it (`Frame.goes_dispatch`).

A step runs handlers of a frame as long as they ask to go on at once.  In a tidy store they
do not go on for long: each handler that starts the frame over does so with an expression of
smaller rank, except for the one that calls a procedure (`Frame.settles_of_met`).
-/

namespace LispEngines

/-- The step succeeds with something that is as `Q` says, or fails for a reason that the
language knows. -/
def Step.Gives {σ α : Type} (x : Step σ α) (s : σ) (st : Store) (Q : α → σ → Store → Prop) :
    Prop :=
  match x s st with
  | ((.ok v, s₁), st₁) => Q v s₁ st₁
  | ((.error e, _), _) => e.OfLanguage

namespace Step.Gives

variable {σ α β : Type} {x : Step σ α} {s : σ} {st : Store} {Q : α → σ → Store → Prop}
  {R : β → σ → Store → Prop}

theorem bind {f : α → Step σ β} (h : x.Gives s st Q)
    (hf : ∀ {v s₁ st₁}, x s st = ((.ok v, s₁), st₁) → Q v s₁ st₁ → (f v).Gives s₁ st₁ R) :
    (x >>= f).Gives s st R := by
  unfold Gives at h
  rcases hx : x s st with ⟨⟨e | v, s₁⟩, st₁⟩ <;> rw [hx] at h
  · unfold Gives
    rw [bind_error hx]
    exact h
  · have hr := hf hx h
    unfold Gives at hr ⊢
    rwa [bind_ok hx]

theorem imp {Q' : α → σ → Store → Prop} (h : x.Gives s st Q)
    (hq : ∀ {v s₁ st₁}, Q v s₁ st₁ → Q' v s₁ st₁) : x.Gives s st Q' := by
  unfold Gives at *
  rcases hx : x s st with ⟨⟨e | v, s₁⟩, st₁⟩ <;> rw [hx] at h
  · exact h
  · exact hq h

theorem of_ok {v : α} {s₁ : σ} {st₁ : Store} (h : x.Gives s st Q)
    (hx : x s st = ((.ok v, s₁), st₁)) : Q v s₁ st₁ := by
  unfold Gives at h
  rwa [hx] at h

theorem of_error {e : Failure} {s₁ : σ} {st₁ : Store} (h : x.Gives s st Q)
    (hx : x s st = ((.error e, s₁), st₁)) : e.OfLanguage := by
  unfold Gives at h
  rwa [hx] at h

end Step.Gives

namespace Frame

open Handler

/-- The stages in which a frame waits for another one. -/
def Stage.Waits : Stage → Prop
  | .sequence | .branchTest | .define | .operator | .operands | .expand => True
  | .enter | .builtin | .apply | .done => False

/-- The stages in which a frame goes on by itself. -/
def Stage.Goes : Stage → Prop
  | .enter | .builtin | .sequence | .operator | .operands | .apply => True
  | .branchTest | .define | .expand | .done => False

/-- A handler can be run on the frame.  It has a value if it has been waiting for one. -/
inductive Met (f : Frame) : Prop
  | ready (hs : f.stage.Goes) (hw : f.wait = .ready) (hi : f.incoming = none)
  | ended (hs : f.stage.Waits) (hw : f.wait = .ended) {v : Value} (hi : f.incoming = some v)

/-- The frame waits for the one above it. -/
structure Suspended (f : Frame) : Prop where
  wait : f.wait = .running
  stage : f.stage.Waits
  incoming : f.incoming = none

/-- The frame after a handler that does not ask to go on at once. -/
inductive Pauses : Flow → Frame → Prop
  | done {f : Frame} {v : Value} (hs : f.stage = .done) (hw : f.wait = .ready)
      (hr : f.result = some v) : Pauses .done f
  | stay {f : Frame} (hs : f.stage = .sequence) (hw : f.wait = .ready) (hi : f.incoming = none) :
      Pauses .stay f
  | spawn {f : Frame} {x : Value} {s : ScopeRef} (hs : f.stage.Waits) (hi : f.incoming = none) :
      Pauses (.spawn x s) f

theorem Pauses.ne_again {flow : Flow} {f : Frame} (h : Pauses flow f) : flow ≠ .again := by
  cases h <;> nofun

namespace Handler

variable {α : Type} {f : Frame} {st : Store} {A : Frame → Store → Prop}

/-- The handler leaves the frame pausing, or asks to go on with a frame that is as `A` says,
or fails for a reason that the language knows. -/
def Goes (x : Handler Flow) (f : Frame) (st : Store) (A : Frame → Store → Prop) : Prop :=
  x.Gives f st fun flow f₁ st₁ => Pauses flow f₁ ∨ flow = .again ∧ A f₁ st₁

namespace Goes

theorem get {k : Frame → Handler Flow} (h : Goes (k f) f st A) : Goes (get >>= k) f st A := h

theorem modify {u : Frame → Frame} {k : Unit → Handler Flow} (h : Goes (k ()) (u f) st A) :
    Goes (modify u >>= k) f st A := h

theorem items {k : List Value → Handler Flow} (h : Goes (k (f.expr.items st)) f st A) :
    Goes (items >>= k) f st A := h

/-- An action, and what is done with its result. -/
theorem act {a : Action α} {k : α → Handler Flow} (ha : a.Plain)
    (hk : ∀ {v st₁}, a st = (.ok v, st₁) → Goes (k v) f st₁ A) :
    Goes (Step.act a >>= k) f st A := by
  unfold Goes Step.Gives
  rcases h : a st with ⟨e | v, st₁⟩
  · rw [Step.act_bind_error f h]
    exact ha.ofLanguage h
  · rw [Step.act_bind_ok f h]
    exact hk h

theorem pause {flow : Flow} (h : Pauses flow f) : Goes (pure flow) f st A := Or.inl h

theorem spawn (hs : f.stage.Waits) (hi : f.incoming = none) (x : Value) :
    Goes (spawn x) f st A := Or.inl (.spawn hs hi)

theorem again (h : A f st) : Goes (pure .again) f st A := Or.inr ⟨rfl, h⟩

theorem finish (v : Value) : Goes (finish v) f st A := Or.inl (.done rfl rfl rfl)

/-- A value that an action finds ends the frame. -/
theorem finish_act {a : Action Value} (ha : a.Plain) :
    Goes (do Handler.finish (← Step.act a)) f st A := act ha fun _ => finish _

theorem orNil {k : Value → Handler Flow} {o : Option Value}
    (hk : ∀ v st₁, Goes (k v) f st₁ A) : Goes (orNil o >>= k) f st A := by
  cases o with
  | none => exact act .newNil fun _ => hk _ _
  | some v => exact hk v st

theorem takeIncoming {v : Value} (hv : f.incoming = some v) {k : Value → Handler Flow}
    (hk : Goes (k v) f.taken st A) : Goes (takeIncoming >>= k) f st A := by
  unfold Goes Step.Gives
  rw [takeIncoming_bind hv]
  exact hk

end Goes

/-! ## What each handler leaves behind -/

theorem goes_enter (hA : ∀ r, f.expr = .list r → st.items r ≠ [] → A { f with stage := .builtin } st) :
    Goes enter f st A := by
  refine .get ?_
  split
  · exact .finish_act (.lookup ..)
  · rename_i r hx
    refine .items ?_
    split
    · exact .finish_act .newNil
    · rename_i hn
      refine .modify (.again (hA r hx fun hi => hn ?_))
      rw [items_of_list hx, hi]
      rfl
  · exact .finish _

theorem goes_binding (form : SpecialForm) (xs : List Value) (hi : f.incoming = none) :
    Goes (do
        discard (Step.act (form.boundName xs))
        let v ← Step.act (form.operand xs 2)
        modify fun f : Frame => { f with stage := .define }
        Handler.spawn v) f st A := by
  rw [discard_bind]
  exact .act (form.plain_boundName xs) fun _ => .act (form.plain_operand xs 2) fun _ =>
    .modify (.spawn (f := { f with stage := .define }) trivial hi _)

theorem goes_builtin (hi : f.incoming = none) (ho : A { f with stage := .operator } st)
    (hq : A { f with body := (f.expr.items st).drop 1, stage := .sequence } st) :
    Goes builtin f st A := by
  refine .get (.items ?_)
  rcases SpecialForm.ofItems? (f.expr.items st) with _ | (_ | _ | _ | _ | _ | _ | _) <;> dsimp only
  case none => exact .modify (.again ho)
  case some.quote => exact .finish_act (SpecialForm.plain_operand .quote _ 1)
  case some.lambda => exact .finish_act (SpecialForm.plain_close .lambda _ _)
  case some.expander => exact .finish_act (SpecialForm.plain_close .expander _ _)
  case some.branch =>
    exact .act (SpecialForm.plain_operand .branch _ 1) fun _ =>
      .modify (.spawn (f := { f with stage := .branchTest }) trivial hi _)
  case some.define => exact goes_binding .define _ hi
  case some.assign => exact goes_binding .assign _ hi
  case some.sequence => exact .modify (.modify (.again hq))

theorem goes_sequence (hs : f.stage = .sequence) (hi : f.incoming = none)
    (hA : ∀ x ∈ f.body, A (({ f with body := [] } : Frame).restart x none) st) :
    Goes Handler.sequence f st A := by
  have hw : f.stage.Waits := by rw [hs]; trivial
  refine .get ?_
  split
  · exact .get (.modify (.orNil fun _ _ => .finish _))
  · rename_i hb
    exact .modify (.modify (.again (hA _ (by rw [hb]; exact List.mem_cons_self ..))))
  · rename_i rest _ _
    exact .modify (.spawn (f := { f with body := rest }) hw hi _)

theorem goes_operator (hs : f.stage = .operator) (hi : f.incoming = none) :
    Goes operator f st A := by
  have hw : f.stage.Waits := by rw [hs]; trivial
  refine .items ?_
  split
  · exact .spawn hw hi _
  · exact .act .newNil fun _ => .spawn hw hi _

theorem goes_operands (hs : f.stage = .operands) (hi : f.incoming = none)
    (hA : A { f with stage := .apply } st) : Goes operands f st A := by
  have hw : f.stage.Waits := by rw [hs]; trivial
  refine .get ?_
  split
  · rename_i rest _
    exact .modify (.spawn (f := { f with pending := rest }) hw hi _)
  · exact .modify (.again hA)

/-- A procedure goes on with its body in the scope of the call. -/
theorem goes_apply (hi : f.incoming = none)
    (hA : ∀ {c args t x st₁ st₂}, Classic.callScope c args st = (.ok t, st₁) →
      c.body st₁ = (.ok x, st₂) →
      A (({ f with args := [] } : Frame).restart x (some t)) st₂) :
    Goes apply f st A := by
  unfold Goes Step.Gives
  rw [apply_eq]
  show Goes (applied f.callee f.args) _ st A
  rw [applied.eq_def]
  split
  · exact .finish_act (Native.plain_call ..)
  · exact .get (.finish_act (ScopeNative.plain_call ..))
  · exact .act (Classic.plain_callScope ..) fun ht => .act (Closure.plain_part ..) fun hx =>
      .modify (.again (hA ht hx))
  · exact .act (Classic.plain_callScope ..) fun ht => .modify (.act (Closure.plain_part ..) fun hx =>
      .pause (.spawn trivial hi))
  · exact .orNil fun _ _ => by exact trivial

/-! ### Handlers that take a value -/

variable {v : Value}

theorem goes_sequenceEnded (hs : f.stage = .sequence) (hv : f.incoming = some v) :
    Goes sequenceEnded f st A :=
  .takeIncoming hv (.modify (.pause (.stay hs rfl rfl)))

theorem goes_branchEnded (hv : f.incoming = some v)
    (hA : ∀ {x st₁}, SpecialForm.selected (f.expr.items st) v st = (.ok x, st₁) →
      A (f.taken.restart x none) st₁) : Goes branchEnded f st A :=
  .takeIncoming hv (.items (.act (SpecialForm.plain_selected ..) fun hx => .modify (.again (hA hx))))

theorem goes_defineEnded (hv : f.incoming = some v) : Goes defineEnded f st A :=
  .takeIncoming hv (.items (.act (SpecialForm.plain_boundName ..) fun _ =>
    .get (.finish_act (SpecialForm.plain_bind ..))))

theorem goes_operatorEnded (hv : f.incoming = some v)
    (hA : ∀ f₁ : Frame, f₁.stage = .apply ∨ f₁.stage = .operands → f₁.wait = .ready →
      f₁.incoming = none → A f₁ st) : Goes operatorEnded f st A := by
  refine .takeIncoming hv (.items ?_)
  split
  · exact .modify (.again (hA _ (.inl rfl) rfl rfl))
  · exact .modify (.again (hA _ (.inr rfl) rfl rfl))

theorem goes_operandEnded (hv : f.incoming = some v)
    (hA : A { f.taken with args := f.args ++ [v] } st) : Goes operandEnded f st A :=
  .takeIncoming hv (.modify (.again hA))

theorem goes_expansionEnded (hv : f.incoming = some v) (hA : A (f.taken.restart v none) st) :
    Goes expansionEnded f st A :=
  .takeIncoming hv (.modify (.again hA))

/-- The handler of a frame that is met leaves it pausing, or ready to be met again. -/
theorem goes_dispatch (st : Store) (hf : f.Met) : Goes dispatch f st fun f₁ _ => f₁.Met ∧ f₁.wait = .ready := by
  have hr : ∀ f₁ : Frame, f₁.stage.Goes → f₁.wait = .ready → f₁.incoming = none →
      f₁.Met ∧ f₁.wait = .ready := fun f₁ hs hw hi => ⟨.ready hs hw hi, hw⟩
  refine .get ?_
  rcases hf with ⟨hs, hw, hi⟩ | ⟨hs, hw, hi⟩ <;> rw [hw] <;> cases hg : f.stage <;> rw [hg] at hs <;>
    try exact hs.elim
  case ready.enter => exact goes_enter fun _ _ _ => hr _ trivial hw hi
  case ready.builtin => exact goes_builtin hi (hr _ trivial hw hi) (hr _ trivial hw hi)
  case ready.sequence => exact goes_sequence hg hi fun _ _ => hr _ trivial rfl hi
  case ready.operator => exact goes_operator hg hi
  case ready.operands => exact goes_operands hg hi (hr _ trivial hw hi)
  case ready.apply => exact goes_apply hi fun _ _ => hr _ trivial rfl hi
  case ended.sequence => exact goes_sequenceEnded hg hi
  case ended.branchTest => exact goes_branchEnded hi fun _ => hr _ trivial rfl rfl
  case ended.define => exact goes_defineEnded hi
  case ended.operator =>
    refine goes_operatorEnded hi fun f₁ hs hw hi => hr f₁ ?_ hw hi
    rcases hs with hs | hs <;> rw [hs] <;> trivial
  case ended.operands =>
    exact goes_operandEnded hi (hr _ (by show f.stage.Goes; rw [hg]; trivial) rfl rfl)
  case ended.expand => exact goes_expansionEnded hi (hr _ trivial rfl rfl)

end Handler

end Frame

end LispEngines
