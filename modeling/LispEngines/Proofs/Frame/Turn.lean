import LispEngines.Frame.Run
import LispEngines.Proofs.Course.Basic

/-!
# What a frame is about to do

A frame keeps in its fields what the recursive engine keeps on the stack of its host.
`Frame.Waits` reads from a frame what it will do with the value it waits for, and
`Frame.Performs` what the next turn of its evaluation comes to.  A frame may need
several handlers for one turn; the number in `Frame.Performs` goes down with each of
them, and the last one carries the turn out (`Frame.dispatch_does`).
-/

namespace LispEngines

/-! ## Composite steps -/

namespace Step

variable {σ α β : Type}

theorem bind_apply (x : Step σ α) (f : α → Step σ β) (s : σ) (st : Store) :
    (x >>= f) s st =
      match x s st with
      | ((.ok v, s'), st') => f v s' st'
      | ((.error e, s'), st') => ((.error e, s'), st') := by
  have h : (x >>= f) s st = (ExceptT.bindCont f (x s st).1.1) (x s st).1.2 (x s st).2 := rfl
  rw [h]
  rcases x s st with ⟨⟨_ | _, _⟩, _⟩ <;> rfl

theorem bind_ok {x : Step σ α} {f : α → Step σ β} {s s' : σ} {st st' : Store} {v : α}
    (h : x s st = ((.ok v, s'), st')) : (x >>= f) s st = f v s' st' := by
  rw [bind_apply, h]

theorem bind_error {x : Step σ α} {f : α → Step σ β} {s s' : σ} {st st' : Store} {e : Failure}
    (h : x s st = ((.error e, s'), st')) : (x >>= f) s st = ((.error e, s'), st') := by
  rw [bind_apply, h]

theorem act_apply (a : Action α) (s : σ) (st : Store) :
    (act a : Step σ α) s st = (((a st).1, s), (a st).2) := rfl

@[simp] theorem get_bind (f : σ → Step σ β) (s : σ) (st : Store) :
    ((get : Step σ σ) >>= f) s st = f s s st := rfl

@[simp] theorem getThe_store_bind (f : Store → Step σ β) (s : σ) (st : Store) :
    ((getThe Store : Step σ Store) >>= f) s st = f st s st := rfl

@[simp] theorem modify_bind (g : σ → σ) (f : Unit → Step σ β) (s : σ) (st : Store) :
    ((modify g : Step σ Unit) >>= f) s st = f () (g s) st := rfl

theorem act_bind_ok {a : Action α} {f : α → Step σ β} {st st' : Store} {v : α} (s : σ)
    (h : a st = (.ok v, st')) : (act a >>= f) s st = f v s st' :=
  bind_ok (by rw [act_apply, h])

theorem act_bind_error {a : Action α} {f : α → Step σ β} {st st' : Store} {e : Failure} (s : σ)
    (h : a st = (.error e, st')) : (act a >>= f) s st = ((.error e, s), st') :=
  bind_error (by rw [act_apply, h])

end Step

namespace Frame

open Classic (Pending Next)
open Handler

/-- What a frame will do with the value that it waits for. -/
inductive Waits (st : Store) (f : Frame) : Pending → Prop
  | sequence (hs : f.stage = .sequence) (hb : f.body ≠ []) : Waits st f (.sequence f.body)
  | branch (hs : f.stage = .branchTest) (hi : f.expr.items st ≠ []) :
      Waits st f (.branch (f.expr.items st))
  | bind {form : SpecialForm} {name : Value} (hs : f.stage = .define)
      (hf : SpecialForm.ofItems? (f.expr.items st) = some form)
      (hn : (f.expr.items st)[1]? = some name) : Waits st f (.bind form name)
  | operator {head : Value} {operands : List Value} (hs : f.stage = .operator)
      (hi : f.expr.items st = head :: operands) : Waits st f (.operator operands)
  | operand {callee : Value} (hs : f.stage = .operands) (hc : f.callee = some callee)
      (he : ∀ c, callee ≠ .expander c) : Waits st f (.operand callee f.args f.pending)
  | expansion (hs : f.stage = .expand) : Waits st f .expansion

/-- What the next turn of a frame comes to, and the store after it.  The number bounds the
handlers that the frame runs before the one that carries the turn out. -/
inductive Performs (st : Store) (f : Frame) : Nat → Except Failure Next × Store → Prop
  | enter (hs : f.stage = .enter) (hw : f.wait = .ready)
      (hb : ∀ r, f.expr = .list r → st.items r ≠ [.symbol "begin"]) :
      Performs st f 2 (Classic.enter .beforeValue f.expr f.scope st)
  | builtin {r : ListRef} (hs : f.stage = .builtin) (hw : f.wait = .ready)
      (hx : f.expr = .list r) (hi : st.items r ≠ []) (hb : st.items r ≠ [.symbol "begin"]) :
      Performs st f 1 (Classic.enter .beforeValue f.expr f.scope st)
  | sequence (hs : f.stage = .sequence) (hw : f.wait = .ready) (hb : f.body ≠ []) :
      Performs st f 0 (Classic.sequence f.scope f.body st)
  | operator {head : Value} {operands : List Value} (hs : f.stage = .operator)
      (hw : f.wait = .ready) (hi : f.expr.items st = head :: operands) :
      Performs st f 0 (.ok (.nested head f.scope (.operator operands)), st)
  | operands {callee : Value} (hs : f.stage = .operands) (hw : f.wait = .ready)
      (hc : f.callee = some callee) (he : ∀ c, callee ≠ .expander c) :
      Performs st f 1 (Classic.arguments callee f.args f.scope f.pending st)
  | apply {callee : Value} (hs : f.stage = .apply) (hw : f.wait = .ready)
      (hc : f.callee = some callee) (he : ∀ c, callee ≠ .expander c) :
      Performs st f 0 (Classic.call callee f.args f.scope st)
  | expand {c : Closure} (hs : f.stage = .apply) (hw : f.wait = .ready)
      (hc : f.callee = some (.expander c)) :
      Performs st f 0 (Pending.resume (.operator f.args) f.scope (.expander c) st)
  | resume {p : Pending} {v : Value} (hw : f.wait = .ended) (hv : f.incoming = some v)
      (hp : Waits st f p) : Performs st f 2 (p.resume f.scope v st)

/-- A frame after the turn that the recursive engine ends in this way, and what it asks for. -/
inductive Carries (st : Store) (s : ScopeRef) : Next → Flow → Frame → Prop
  | value {f : Frame} {v : Value} (hs : f.stage = .done) (hw : f.wait = .ready)
      (hr : f.result = some v) : Carries st s (.value v) .done f
  | tail {f : Frame} {x : Value} {t : ScopeRef} (hs : f.stage = .enter) (hw : f.wait = .ready)
      (hx : f.expr = x) (ht : f.scope = t) : Carries st s (.tail x t) .again f
  | nested {f : Frame} {x : Value} {t : ScopeRef} {p : Pending} (hf : f.scope = s)
      (hp : Waits st f p) : Carries st s (.nested x t p) (.spawn x t) f

/-- What a handler does for a turn: it fails as the turn does, it brings the frame nearer to
the turn, or it carries the turn out. -/
inductive Does (st : Store) (s : ScopeRef) (rank : Nat) (out : Except Failure Next × Store) :
    (Except Failure Flow × Frame) × Store → Prop
  | fails {e : Failure} {f : Frame} {st' : Store} (h : out = (.error e, st')) :
      Does st s rank out ((.error e, f), st')
  | nears {flow : Flow} {f : Frame} {rank' : Nat} (hf : flow = .again ∨ flow = .stay)
      (hs : f.scope = s) (hr : rank' < rank) (hp : Performs st f rank' out) :
      Does st s rank out ((.ok flow, f), st)
  | carries {flow : Flow} {f : Frame} {next : Next} {st' : Store} (h : out = (.ok next, st'))
      (hc : Carries st' s next flow f) : Does st s rank out ((.ok flow, f), st')

variable {st st₀ : Store} {f : Frame} {s : ScopeRef} {rank : Nat}
  {out : Except Failure Next × Store}

/-- A value that an action finds ends the frame. -/
theorem does_finish (a : Action Value) (f : Frame) (hw : Next.ofValue a st = out) :
    Does st₀ s rank out ((do Handler.finish (← Step.act a)) f st) := by
  subst hw
  rcases h : a st with ⟨e | v, st'⟩
  · rw [Step.act_bind_error f h]
    exact .fails (by rw [Next.ofValue, Action.bind_error h])
  · rw [Step.act_bind_ok f h]
    exact .carries (by rw [Next.ofValue, Action.bind_ok h]; rfl) (.value rfl rfl rfl)

@[simp] theorem items_bind {α : Type} (k : List Value → Handler α) (f : Frame) (st : Store) :
    (Handler.items >>= k) f st = k (f.expr.items st) f st := rfl

@[simp] theorem goOn_apply (stage : Stage) (f : Frame) (st : Store) :
    goOn stage f st = ((.ok .again, { f with stage }), st) := rfl

@[simp] theorem spawn_apply (x : Value) (f : Frame) (st : Store) :
    Handler.spawn x f st = ((.ok (.spawn x f.scope), f), st) := rfl

@[simp] theorem restart_apply (x : Value) (t : Option ScopeRef) (f : Frame) (st : Store) :
    Handler.restart x t f st = ((.ok .again, f.restart x t), st) := rfl

theorem items_of_list {x : Value} {r : ListRef} (h : x = .list r) : x.items st = st.items r := by
  rw [h]
  rfl

theorem enter_does (hw : f.wait = .ready)
    (hb : ∀ r, f.expr = .list r → st.items r ≠ [.symbol "begin"]) :
    Does st f.scope 2 (Classic.enter .beforeValue f.expr f.scope st) (enter f st) := by
  cases hx : f.expr with
  | symbol name =>
    have he : enter f st = (do Handler.finish (← Step.act (Action.lookup f.scope name))) f st := by
      simp only [enter, Step.get_bind, hx]
    rw [he]
    exact does_finish _ _ rfl
  | list r =>
    have he : enter f st = (if (st.items r).isEmpty then
        (do Handler.finish (← Step.act Action.newNil)) else goOn .builtin) f st := by
      simp only [enter, Step.get_bind, hx, items_bind]
      rfl
    rw [he]
    rcases hi : st.items r with _ | ⟨head, operands⟩
    · refine does_finish Action.newNil f ?_
      rw [Classic.enter, Action.bind_apply, Action.get_apply]
      dsimp only
      rw [hi]
      rfl
    · rw [← hx]
      exact .nears (.inl rfl) rfl (Nat.lt_succ_self 1)
        (.builtin (f := { f with stage := .builtin }) rfl hw hx (by simp [hi]) (hb r hx))
  | _ =>
    simp only [enter, Step.get_bind, hx]
    exact .carries rfl (.value rfl rfl rfl)

/-- A definition or an assignment is looked over before its value is evaluated. -/
theorem does_binding {form : SpecialForm} {xs : List Value} (hi : f.expr.items st = xs)
    (hf : SpecialForm.ofItems? xs = some form) :
    Does st f.scope rank (Classic.binding .beforeValue form xs f.scope st)
      ((do
        discard (Step.act (form.boundName xs))
        let v ← Step.act (form.operand xs 2)
        modify (fun g : Frame => { g with stage := .define })
        Handler.spawn v) f st) := by
  rw [discard_bind, Classic.binding, discard_bind]
  rcases hn : form.boundName xs st with ⟨e | name, st₁⟩
  · rw [Step.act_bind_error f hn, Action.bind_error hn]
    exact .fails rfl
  obtain ⟨v, hv, -, rfl⟩ := SpecialForm.boundName_ok hn
  have hv' : form.operand xs 1 st₁ = (.ok v, st₁) := by
    rw [SpecialForm.operand, hv]
    rfl
  rw [Step.act_bind_ok f hn, Action.bind_ok hn]
  rcases ho : form.operand xs 2 st₁ with ⟨e | x, st₂⟩
  · rw [Step.act_bind_error f ho, Action.bind_error ho]
    exact .fails rfl
  obtain ⟨-, rfl⟩ := SpecialForm.operand_ok ho
  rw [Step.act_bind_ok f ho, Action.bind_ok ho, Action.bind_ok hv', Step.modify_bind, spawn_apply]
  subst hi
  exact .carries rfl (.nested rfl (.bind (f := { f with stage := .define }) rfl hf hv))

theorem builtin_does {r : ListRef} (hw : f.wait = .ready)
    (hx : f.expr = .list r) (hi : st.items r ≠ []) (hb : st.items r ≠ [.symbol "begin"]) :
    Does st f.scope 1 (Classic.enter .beforeValue f.expr f.scope st) (builtin f st) := by
  obtain ⟨head, operands, hxs⟩ := List.exists_cons_of_ne_nil hi
  have hfi : f.expr.items st = head :: operands := (items_of_list hx).trans hxs
  have he : Classic.enter .beforeValue f.expr f.scope st =
      Classic.form .beforeValue f.expr f.scope (head :: operands) st := by
    rw [hx, Classic.enter, Action.bind_apply, Action.get_apply, ← hxs]
  rw [he]
  simp only [builtin, Step.get_bind, items_bind, items_of_list hx, hxs, Classic.form]
  rcases hform : SpecialForm.ofItems? (head :: operands) with _ | (_ | _ | _ | _ | _ | _ | _) <;>
    dsimp only
  case none =>
    exact .nears (.inl rfl) rfl Nat.one_pos
      (.operator (f := { f with stage := .operator }) rfl hw hfi)
  case some.quote => exact does_finish _ f rfl
  case some.lambda => exact does_finish _ f rfl
  case some.expander => exact does_finish _ f rfl
  case some.define => exact does_binding hfi hform
  case some.assign => exact does_binding hfi hform
  case some.branch =>
    rcases ho : SpecialForm.operand .branch (head :: operands) 1 st with ⟨e | test, st₁⟩
    · rw [Step.act_bind_error f ho, Action.bind_error ho]
      exact .fails rfl
    obtain ⟨-, rfl⟩ := SpecialForm.operand_ok ho
    rw [Step.act_bind_ok f ho, Action.bind_ok ho, Step.modify_bind, spawn_apply, ← hfi]
    exact .carries rfl (.nested rfl
      (.branch (f := { f with stage := .branchTest }) rfl (by rw [hfi]; simp)))
  case some.sequence =>
    have ho : operands ≠ [] := by
      rintro rfl
      exact hb (hxs.trans (congrArg (· :: []) (SpecialForm.head_eq_keyword hform)))
    exact .nears (.inl rfl) rfl Nat.one_pos
      (.sequence (f := { f with stage := .sequence, body := operands }) rfl hw ho)

theorem sequence_does (hs : f.stage = .sequence) (hb : f.body ≠ []) :
    Does st f.scope 0 (Classic.sequence f.scope f.body st) (Handler.sequence f st) := by
  obtain ⟨e, rest, hbody⟩ := List.exists_cons_of_ne_nil hb
  rcases rest with _ | ⟨e', rest⟩
  · simp only [Handler.sequence, Step.get_bind, hbody, Step.modify_bind, restart_apply]
    exact .carries rfl (.tail rfl rfl rfl rfl)
  · simp only [Handler.sequence, Step.get_bind, hbody, Step.modify_bind, spawn_apply]
    exact .carries rfl (.nested rfl
      (.sequence (f := { f with body := e' :: rest }) hs (List.cons_ne_nil e' rest)))

theorem operator_does {head : Value} {operands : List Value} (hs : f.stage = .operator)
    (hi : f.expr.items st = head :: operands) :
    Does st f.scope 0 (.ok (.nested head f.scope (.operator operands)), st) (operator f st) := by
  simp only [operator, items_bind, hi, spawn_apply]
  exact .carries rfl (.nested rfl (.operator hs hi))

theorem operands_does {callee : Value} (hs : f.stage = .operands) (hw : f.wait = .ready)
    (hc : f.callee = some callee) (he : ∀ c, callee ≠ .expander c) :
    Does st f.scope 1 (Classic.arguments callee f.args f.scope f.pending st)
      (operands f st) := by
  rcases hp : f.pending with _ | ⟨x, rest⟩
  · have ho : operands f st = goOn .apply f st := by simp only [operands, Step.get_bind, hp]
    rw [ho, goOn_apply]
    exact .nears (.inl rfl) rfl Nat.one_pos (.apply (f := { f with stage := .apply }) rfl hw hc he)
  · have ho : operands f st = Handler.spawn x { f with pending := rest } st := by
      simp only [operands, Step.get_bind, hp, Step.modify_bind]
    rw [ho, spawn_apply]
    exact .carries rfl (.nested rfl (.operand (f := { f with pending := rest }) hs hc he))

/-- A call of a closure goes on with its body in a scope of its own. -/
theorem apply_does {callee : Value} (hc : f.callee = some callee)
    (he : ∀ c, callee ≠ .expander c) :
    Does st f.scope 0 (Classic.call callee f.args f.scope st) (Handler.apply f st) := by
  cases callee with
  | lambda c =>
    have ha : Handler.apply f st = (do
        let t ← Step.act (Classic.callScope c f.args)
        Handler.restart (← Step.act c.body) (some t)) { f with args := [] } st := by
      simp only [Handler.apply, Step.get_bind, Step.modify_bind, hc]
      rfl
    rw [ha, Classic.call]
    rcases ht : Classic.callScope c f.args st with ⟨e | t, st₁⟩
    · rw [Step.act_bind_error _ ht, Action.bind_error ht]
      exact .fails rfl
    rw [Step.act_bind_ok _ ht, Action.bind_ok ht]
    rcases hx : c.body st₁ with ⟨e | x, st₂⟩
    · rw [Step.act_bind_error _ hx, Action.bind_error hx]
      exact .fails rfl
    rw [Step.act_bind_ok _ hx, Action.bind_ok hx, restart_apply]
    exact .carries rfl (.tail rfl rfl rfl rfl)
  | expander c => exact absurd rfl (he c)
  | native p =>
    simp only [Handler.apply, Step.get_bind, Step.modify_bind, hc]
    exact does_finish _ _ rfl
  | scopeNative p =>
    simp only [Handler.apply, Step.get_bind, Step.modify_bind, hc]
    exact does_finish _ _ rfl
  | _ =>
    simp only [Handler.apply, Step.get_bind, Step.modify_bind, hc]
    exact .fails rfl

theorem expand_does {c : Closure} (hc : f.callee = some (.expander c)) :
    Does st f.scope 0 (Pending.resume (.operator f.args) f.scope (.expander c) st)
      (Handler.apply f st) := by
  have ha : Handler.apply f st = (do
      let t ← Step.act (Classic.callScope c f.args)
      modify (fun g : Frame => { g with stage := .expand })
      return Flow.spawn (← Step.act c.body) t) { f with args := [] } st := by
    simp only [Handler.apply, Step.get_bind, Step.modify_bind, hc]
    rfl
  rw [ha, Pending.resume]
  rcases ht : Classic.callScope c f.args st with ⟨e | t, st₁⟩
  · rw [Step.act_bind_error _ ht, Action.bind_error ht]
    exact .fails rfl
  rw [Step.act_bind_ok _ ht, Action.bind_ok ht, Step.modify_bind]
  rcases hx : c.body st₁ with ⟨e | x, st₂⟩
  · rw [Step.act_bind_error _ hx, Action.bind_error hx]
    exact .fails rfl
  rw [Step.act_bind_ok _ hx, Action.bind_ok hx]
  exact .carries rfl (.nested rfl (.expansion rfl))

/-! ### Handlers that take a value -/

/-- A frame that has taken the value it waited for. -/
def taken (f : Frame) : Frame := { f with wait := .ready, incoming := none }

@[simp] theorem taken_expr (f : Frame) : f.taken.expr = f.expr := rfl

@[simp] theorem taken_scope (f : Frame) : f.taken.scope = f.scope := rfl

theorem takeIncoming_bind {α : Type} {v : Value} (hv : f.incoming = some v)
    (k : Value → Handler α) : (takeIncoming >>= k) f st = k v f.taken st := by
  simp only [takeIncoming, bind_assoc, Step.get_bind, Step.modify_bind, hv, orNil, pure_bind]
  rfl

theorem sequenceEnded_does {v : Value} (hv : f.incoming = some v) (hs : f.stage = .sequence)
    (hb : f.body ≠ []) :
    Does st f.scope 2 (Pending.resume (.sequence f.body) f.scope v st) (sequenceEnded f st) := by
  rw [sequenceEnded, takeIncoming_bind hv, Step.modify_bind]
  exact .nears (.inr rfl) rfl Nat.two_pos
    (.sequence (f := { f.taken with result := some v }) hs rfl hb)

theorem branchEnded_does {v : Value} (hv : f.incoming = some v) :
    Does st f.scope 2 (Pending.resume (.branch (f.expr.items st)) f.scope v st)
      (branchEnded f st) := by
  rw [branchEnded, takeIncoming_bind hv, items_bind, Pending.resume, taken_expr]
  rcases hx : SpecialForm.selected (f.expr.items st) v st with ⟨e | x, st₁⟩
  · rw [Step.act_bind_error _ hx, Action.bind_error hx]
    exact .fails rfl
  · rw [Step.act_bind_ok _ hx, Action.bind_ok hx, restart_apply]
    exact .carries rfl (.tail rfl rfl rfl rfl)

theorem defineEnded_does {v name : Value} {form : SpecialForm} (hv : f.incoming = some v)
    (hf : SpecialForm.ofItems? (f.expr.items st) = some form)
    (hn : (f.expr.items st)[1]? = some name) :
    Does st f.scope 2 (Pending.resume (.bind form name) f.scope v st) (defineEnded f st) := by
  have hb : form.boundName (f.expr.items st) = Action.keyText name := by
    rw [SpecialForm.boundName, SpecialForm.operand, hn]
    rfl
  rw [defineEnded, takeIncoming_bind hv, items_bind, taken_expr, hf, Option.getD_some, hb,
    Pending.resume]
  rcases hk : Action.keyText name st with ⟨e | key, st₁⟩
  · rw [Step.act_bind_error _ hk, Action.bind_error hk]
    exact .fails rfl
  · rw [Step.act_bind_ok _ hk, Action.bind_ok hk, Step.get_bind, taken_scope]
    exact does_finish _ _ rfl

theorem operatorEnded_does {v head : Value} {rest : List Value} (hv : f.incoming = some v)
    (hi : f.expr.items st = head :: rest) :
    Does st f.scope 2 (Pending.resume (.operator rest) f.scope v st) (operatorEnded f st) := by
  rw [operatorEnded, takeIncoming_bind hv, items_bind, taken_expr, hi, List.drop_one, List.tail_cons]
  cases v with
  | expander c =>
    exact .nears (.inl rfl) rfl Nat.two_pos
      (.expand (f := { f.taken with callee := some (.expander c), args := rest, stage := .apply })
        rfl rfl rfl)
  | _ =>
    exact .nears (.inl rfl) rfl Nat.one_lt_two
      (.operands (f := { f.taken with callee := some _, args := [], pending := rest, stage := .operands })
        rfl rfl rfl (by simp))

theorem operandEnded_does {v callee : Value} (hv : f.incoming = some v) (hs : f.stage = .operands)
    (hc : f.callee = some callee) (he : ∀ c, callee ≠ .expander c) :
    Does st f.scope 2 (Pending.resume (.operand callee f.args f.pending) f.scope v st)
      (operandEnded f st) := by
  rw [operandEnded, takeIncoming_bind hv]
  exact .nears (.inl rfl) rfl Nat.one_lt_two
    (.operands (f := { f.taken with args := f.args ++ [v] }) hs rfl hc he)

theorem expansionEnded_does {v : Value} (hv : f.incoming = some v) :
    Does st f.scope 2 (Pending.resume .expansion f.scope v st) (expansionEnded f st) := by
  rw [expansionEnded, takeIncoming_bind hv]
  exact .carries rfl (.tail rfl rfl rfl rfl)

/-- The handler of a frame does what the frame is about to do. -/
theorem dispatch_does (h : Performs st f rank out) :
    Does st f.scope rank out (dispatch f st) := by
  cases h with
  | enter hs hw hb =>
    simp only [dispatch, Step.get_bind, hs, hw]
    exact enter_does hw hb
  | builtin hs hw hx hi hb =>
    simp only [dispatch, Step.get_bind, hs, hw]
    exact builtin_does hw hx hi hb
  | sequence hs hw hb =>
    simp only [dispatch, Step.get_bind, hs, hw]
    exact sequence_does hs hb
  | operator hs hw hi =>
    simp only [dispatch, Step.get_bind, hs, hw]
    exact operator_does hs hi
  | operands hs hw hc he =>
    simp only [dispatch, Step.get_bind, hs, hw]
    exact operands_does hs hw hc he
  | apply hs hw hc he =>
    simp only [dispatch, Step.get_bind, hs, hw]
    exact apply_does hc he
  | expand hs hw hc =>
    simp only [dispatch, Step.get_bind, hs, hw]
    exact expand_does hc
  | resume hw hv hp =>
    cases hp with
    | sequence hs hb =>
      simp only [dispatch, Step.get_bind, hs, hw]
      exact sequenceEnded_does hv hs hb
    | branch hs hi =>
      simp only [dispatch, Step.get_bind, hs, hw]
      exact branchEnded_does hv
    | bind hs hf hn =>
      simp only [dispatch, Step.get_bind, hs, hw]
      exact defineEnded_does hv hf hn
    | operator hs hi =>
      simp only [dispatch, Step.get_bind, hs, hw]
      exact operatorEnded_does hv hi
    | operand hs hc he =>
      simp only [dispatch, Step.get_bind, hs, hw]
      exact operandEnded_does hv hs hc he
    | expansion hs =>
      simp only [dispatch, Step.get_bind, hs, hw]
      exact expansionEnded_does hv

end Frame

end LispEngines
