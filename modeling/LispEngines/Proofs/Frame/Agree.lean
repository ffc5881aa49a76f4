import LispEngines.Proofs.Frame.Stack

/-!
# Frames that agree in what handlers read

A handler reads some fields of its frame and not others.  `Frame.Agree` compares frames by
the fields that are read, and `Frame.dispatch_alike` says that agreeing frames do the same.
The result is left out: the only handler that looks into it is the one at the end of a
sequence.
-/

namespace LispEngines

namespace Frame

open Handler

/-- The frames have the same in all the fields that handlers read, the result apart. -/
structure Agree (f g : Frame) : Prop where
  stage : g.stage = f.stage
  wait : g.wait = f.wait
  expr : g.expr = f.expr
  scope : g.scope = f.scope
  body : g.body = f.body
  callee : g.callee = f.callee
  pending : g.pending = f.pending
  args : g.args = f.args
  /-- The result of a frame above is read only after it has been handed down. -/
  incoming : f.wait = .ended → g.incoming = f.incoming

/-- The frame is at the end of a sequence, and its result is the value of the sequence. -/
def AtSequenceEnd (f : Frame) : Prop :=
  f.stage = .sequence ∧ f.wait = .ready ∧ f.body = []

/-- Two handlers have done the same to agreeing frames, with the results `r` and `r'`.
Either both frames have a new result, and the same, or both have still the one they had and
neither has ended. -/
inductive Alike (r r' : Option Value) :
    (Except Failure Flow × Frame) × Store → (Except Failure Flow × Frame) × Store → Prop
  | fails {e : Failure} {f g : Frame} {st : Store} :
      Alike r r' ((.error e, f), st) ((.error e, g), st)
  | finds {flow : Flow} {f g : Frame} {st : Store} {v : Value} (ha : Agree f g)
      (hf : f.result = some v) (hg : g.result = some v) :
      Alike r r' ((.ok flow, f), st) ((.ok flow, g), st)
  | keeps {flow : Flow} {f g : Frame} {st : Store} (hd : flow ≠ .done) (ha : Agree f g)
      (hf : f.result = r) (hg : g.result = r') :
      Alike r r' ((.ok flow, f), st) ((.ok flow, g), st)

variable {f g : Frame} {r r' : Option Value}

/-- Both frames end with the value that an action finds. -/
theorem finish_alike (ha : Agree f g) (a : Action Value) (st : Store) :
    Alike r r' ((do Handler.finish (← Step.act a)) f st)
      ((do Handler.finish (← Step.act a)) g st) := by
  rcases h : a st with ⟨e | v, st'⟩
  · rw [Step.act_bind_error f h, Step.act_bind_error g h]
    exact .fails
  · rw [Step.act_bind_ok f h, Step.act_bind_ok g h]
    exact .finds { ha with stage := rfl, wait := rfl, incoming := nofun } rfl rfl

/-- An action is the same to both. -/
theorem act_alike {α : Type} (a : Action α) (k : α → Handler Flow) (st : Store)
    (hk : ∀ v st, Alike r r' (k v f st) (k v g st)) :
    Alike r r' ((Step.act a >>= k) f st) ((Step.act a >>= k) g st) := by
  rcases h : a st with ⟨e | v, st'⟩
  · rw [Step.act_bind_error f h, Step.act_bind_error g h]
    exact .fails
  · rw [Step.act_bind_ok f h, Step.act_bind_ok g h]
    exact hk v st'

theorem goOn_alike (ha : Agree f g) (stage : Stage) (st : Store) :
    Alike f.result g.result (goOn stage f st) (goOn stage g st) :=
  .keeps (by simp) { ha with stage := rfl, incoming := ha.incoming } rfl rfl

theorem restart_alike (ha : Agree f g) (x : Value) (t : Option ScopeRef) (st : Store) :
    Alike f.result g.result (Handler.restart x t f st) (Handler.restart x t g st) :=
  .keeps (by simp) ⟨rfl, rfl, rfl, congrArg t.getD ha.scope, rfl, rfl, rfl, rfl, nofun⟩ rfl rfl

theorem spawn_alike (ha : Agree f g) (x : Value) (st : Store) :
    Alike f.result g.result (Handler.spawn x f st) (Handler.spawn x g st) := by
  rw [spawn_apply, spawn_apply, ha.scope]
  exact .keeps (by simp) ha rfl rfl

theorem Agree.goOn (ha : Agree f g) (stage : Stage) :
    Agree { f with stage } { g with stage } :=
  { ha with stage := rfl, incoming := ha.incoming }

theorem Agree.used (ha : Agree f g) : Agree { f with args := [] } { g with args := [] } :=
  { ha with args := rfl, incoming := ha.incoming }

theorem stage_spawn_alike (ha : Agree f g) (stage : Stage) (x : Value) (st : Store) :
    Alike f.result g.result
      ((do
        modify (fun h : Frame => { h with stage })
        Handler.spawn x) f st)
      ((do
        modify (fun h : Frame => { h with stage })
        Handler.spawn x) g st) :=
  spawn_alike (ha.goOn stage) x st

theorem enter_alike (ha : Agree f g) (st : Store) :
    Alike f.result g.result (enter f st) (enter g st) := by
  simp only [enter, Step.get_bind, ha.expr]
  cases f.expr with
  | symbol name =>
    rw [ha.scope]
    exact finish_alike ha _ st
  | list r =>
    simp only [items_bind, ha.expr]
    split
    · exact finish_alike ha _ st
    · exact goOn_alike ha .builtin st
  | _ => exact finish_alike ha (pure _) st

theorem binding_alike (ha : Agree f g) (form : SpecialForm) (xs : List Value) (st : Store) :
    Alike f.result g.result
      ((do
        discard (Step.act (form.boundName xs))
        let v ← Step.act (form.operand xs 2)
        modify (fun g : Frame => { g with stage := .define })
        Handler.spawn v) f st)
      ((do
        discard (Step.act (form.boundName xs))
        let v ← Step.act (form.operand xs 2)
        modify (fun g : Frame => { g with stage := .define })
        Handler.spawn v) g st) := by
  rw [discard_bind]
  exact act_alike _ _ st fun _ st => act_alike _ _ st fun v st =>
    stage_spawn_alike ha .define v st

theorem builtin_alike (ha : Agree f g) (st : Store) :
    Alike f.result g.result (builtin f st) (builtin g st) := by
  simp only [builtin, Step.get_bind, items_bind, ha.expr, ha.scope]
  rcases SpecialForm.ofItems? (f.expr.items st) with _ | (_ | _ | _ | _ | _ | _ | _)
  · exact goOn_alike ha .operator st
  · exact finish_alike ha _ st
  · exact act_alike _ _ st fun v st => stage_spawn_alike ha .branchTest v st
  · exact binding_alike ha .define _ st
  · exact binding_alike ha .assign _ st
  · exact finish_alike ha _ st
  · exact finish_alike ha _ st
  · exact .keeps (by simp) { ha with stage := rfl, body := rfl, incoming := ha.incoming } rfl rfl

theorem sequence_alike (ha : Agree f g) (hb : f.body ≠ []) (st : Store) :
    Alike f.result g.result (Handler.sequence f st) (Handler.sequence g st) := by
  obtain ⟨e, rest, hbody⟩ := List.exists_cons_of_ne_nil hb
  have ha' (body : List Value) : Agree { f with body } { g with body } :=
    { ha with body := rfl, incoming := ha.incoming }
  rcases rest with _ | ⟨e', rest⟩
  · simp only [Handler.sequence, Step.get_bind, ha.body, hbody, Step.modify_bind]
    exact restart_alike (ha' []) e none st
  · simp only [Handler.sequence, Step.get_bind, ha.body, hbody, Step.modify_bind]
    exact spawn_alike (ha' (e' :: rest)) e st

theorem operator_alike (ha : Agree f g) (st : Store) :
    Alike f.result g.result (operator f st) (operator g st) := by
  simp only [operator, items_bind, ha.expr]
  rcases f.expr.items st with _ | ⟨head, operands⟩
  · exact act_alike _ _ st fun v st => spawn_alike ha v st
  · exact spawn_alike ha head st

theorem operands_alike (ha : Agree f g) (st : Store) :
    Alike f.result g.result (operands f st) (operands g st) := by
  have ha' (pending : List Value) : Agree { f with pending } { g with pending } :=
    { ha with pending := rfl, incoming := ha.incoming }
  rcases hp : f.pending with _ | ⟨x, rest⟩
  · have ho : operands f st = goOn .apply f st := by simp only [operands, Step.get_bind, hp]
    have ho' : operands g st = goOn .apply g st := by
      simp only [operands, Step.get_bind, ha.pending, hp]
    rw [ho, ho']
    exact goOn_alike ha .apply st
  · simp only [operands, Step.get_bind, ha.pending, hp, Step.modify_bind]
    exact spawn_alike (ha' rest) x st

theorem apply_alike (ha : Agree f g) (st : Store) :
    Alike f.result g.result (Handler.apply f st) (Handler.apply g st) := by
  obtain ⟨stage, wait, x, s, result, incoming, body, callee, pending, args, steps⟩ := f
  obtain ⟨stage', wait', x', s', result', incoming', body', callee', pending', args', steps'⟩ := g
  have hs := ha.scope
  have hc := ha.callee
  have hargs := ha.args
  dsimp only at hs hc hargs
  subst hs hc hargs
  rcases callee' with _ | callee
  · exact .fails
  cases callee with
  | native p => exact finish_alike ha.used _ st
  | scopeNative p => exact finish_alike ha.used (p.call args' s') st
  | lambda c =>
    refine act_alike (Classic.callScope c args') _ st fun t st => ?_
    exact act_alike c.body _ st fun x st => restart_alike ha.used x (some t) st
  | expander c =>
    refine act_alike (Classic.callScope c args') _ st fun t st => ?_
    exact act_alike c.body _ st fun x st => .keeps (by simp) (ha.used.goOn .expand) rfl rfl
  | _ => exact .fails

/-! ### Handlers that take a value -/

theorem taken_agree (ha : Agree f g) : Agree f.taken g.taken :=
  { ha with wait := rfl, incoming := nofun }

/-- Both frames take the same value. -/
theorem takeIncoming_alike (ha : Agree f g) (hw : f.wait = .ended) (k : Value → Handler Flow)
    (st : Store) (hk : ∀ v st, Alike r r' (k v f.taken st) (k v g.taken st)) :
    Alike r r' ((takeIncoming >>= k) f st) ((takeIncoming >>= k) g st) := by
  cases hv : f.incoming with
  | some v =>
    rw [takeIncoming_bind hv, takeIncoming_bind ((ha.incoming hw).trans hv)]
    exact hk v st
  | none =>
    have hg : g.incoming = none := (ha.incoming hw).trans hv
    simp only [takeIncoming, bind_assoc, Step.get_bind, Step.modify_bind, hv, hg, orNil]
    exact act_alike _ _ st hk

theorem sequenceEnded_alike (ha : Agree f g) (hw : f.wait = .ended) (st : Store) :
    Alike f.result g.result (sequenceEnded f st) (sequenceEnded g st) :=
  takeIncoming_alike ha hw _ st fun v _ =>
    .finds (v := v) { taken_agree ha with incoming := nofun } rfl rfl

theorem branchEnded_alike (ha : Agree f g) (hw : f.wait = .ended) (st : Store) :
    Alike f.result g.result (branchEnded f st) (branchEnded g st) := by
  refine takeIncoming_alike ha hw _ st fun v st => ?_
  rw [items_bind, items_bind, taken_expr, taken_expr, ha.expr]
  exact act_alike _ _ st fun x st => restart_alike (taken_agree ha) x none st

theorem defineEnded_alike (ha : Agree f g) (hw : f.wait = .ended) (st : Store) :
    Alike f.result g.result (defineEnded f st) (defineEnded g st) := by
  refine takeIncoming_alike ha hw _ st fun v st => ?_
  rw [items_bind, items_bind, taken_expr, taken_expr, ha.expr]
  refine act_alike _ _ st fun name st => ?_
  rw [Step.get_bind, Step.get_bind, taken_scope, taken_scope, ha.scope]
  exact finish_alike (taken_agree ha) _ st

theorem operatorEnded_alike (ha : Agree f g) (hw : f.wait = .ended) (st : Store) :
    Alike f.result g.result (operatorEnded f st) (operatorEnded g st) := by
  refine takeIncoming_alike ha hw _ st fun v st => ?_
  rw [items_bind, items_bind, taken_expr, taken_expr, ha.expr]
  have ht := taken_agree ha
  cases v with
  | expander c =>
    exact .keeps (by simp) { ht with stage := rfl, callee := rfl, args := rfl, incoming := nofun }
      rfl rfl
  | _ =>
    exact .keeps (by simp)
      { ht with stage := rfl, callee := rfl, args := rfl, pending := rfl, incoming := nofun }
      rfl rfl

theorem operandEnded_alike (ha : Agree f g) (hw : f.wait = .ended) (st : Store) :
    Alike f.result g.result (operandEnded f st) (operandEnded g st) :=
  takeIncoming_alike ha hw _ st fun v _ =>
    .keeps (by simp)
      { taken_agree ha with args := congrArg (· ++ [v]) ha.args, incoming := nofun } rfl rfl

theorem expansionEnded_alike (ha : Agree f g) (hw : f.wait = .ended) (st : Store) :
    Alike f.result g.result (expansionEnded f st) (expansionEnded g st) :=
  takeIncoming_alike ha hw _ st fun v st => restart_alike (taken_agree ha) v none st

/-- Agreeing frames do the same, unless they are at the end of a sequence. -/
theorem dispatch_alike (ha : Agree f g) (he : ¬ f.AtSequenceEnd) (st : Store) :
    Alike f.result g.result (dispatch f st) (dispatch g st) := by
  cases hs : f.stage <;> cases hw : f.wait <;>
    simp only [dispatch, Step.get_bind, ha.stage, ha.wait, hs, hw]
  case enter.ready => exact enter_alike ha st
  case builtin.ready => exact builtin_alike ha st
  case sequence.ready => exact sequence_alike ha (fun hb => he ⟨hs, hw, hb⟩) st
  case sequence.ended => exact sequenceEnded_alike ha hw st
  case branchTest.ended => exact branchEnded_alike ha hw st
  case define.ended => exact defineEnded_alike ha hw st
  case operator.ready => exact operator_alike ha st
  case operator.ended => exact operatorEnded_alike ha hw st
  case operands.ready => exact operands_alike ha st
  case operands.ended => exact operandEnded_alike ha hw st
  case apply.ready => exact apply_alike ha st
  case expand.ended => exact expansionEnded_alike ha hw st
  all_goals
    have hp : g.phase = f.phase := by rw [phase, phase, ha.stage, ha.wait]
    rw [hp]
    exact .fails

end Frame

end LispEngines
