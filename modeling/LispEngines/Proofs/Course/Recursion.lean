import LispEngines.Classic
import LispEngines.Proofs.Course.Basic

/-!
# The recursive engine runs courses

The recursive engine, told by its definition as a walk with fuel and a depth limit, and
the course of an evaluation, told step by step, are two accounts of the same thing.
-/

namespace LispEngines

/-! ## Composite runs -/

namespace Run

variable {σ α β : Type}

theorem bind_apply (x : Run σ α) (f : α → Run σ β) (s : σ) (st : Store) :
    (x >>= f) s st =
      (x s st).bind fun p =>
        match p.1.1 with
        | .ok v => f v p.1.2 p.2
        | .error e => some ((.error e, p.1.2), p.2) := by
  show Option.bind (x s st) _ = _
  rcases x s st with _ | ⟨⟨_ | _, _⟩, _⟩ <;> rfl

theorem bind_ok {x : Run σ α} {f : α → Run σ β} {s s' : σ} {st st' : Store} {v : α}
    (h : x s st = some ((.ok v, s'), st')) : (x >>= f) s st = f v s' st' := by
  rw [bind_apply, h]
  rfl

theorem bind_error {x : Run σ α} {f : α → Run σ β} {s s' : σ} {st st' : Store} {e : Failure}
    (h : x s st = some ((.error e, s'), st')) :
    (x >>= f) s st = some ((.error e, s'), st') := by
  rw [bind_apply, h]
  rfl

theorem act_apply (a : Action α) (s : σ) (st : Store) :
    (act a : Run σ α) s st = some (((a st).1, s), (a st).2) := rfl

theorem act_bind_ok {a : Action α} {f : α → Run σ β} {st st' : Store} {v : α} (s : σ)
    (h : a st = (.ok v, st')) : (act a >>= f) s st = f v s st' :=
  bind_ok (by rw [act_apply, h])

theorem act_bind_error {a : Action α} {f : α → Run σ β} {st st' : Store} {e : Failure} (s : σ)
    (h : a st = (.error e, st')) : (act a >>= f) s st = some ((.error e, s), st') :=
  bind_error (by rw [act_apply, h])

theorem act_pure (a : α) : (act (pure a) : Run σ α) = pure a := rfl

theorem act_bind (a : Action α) (f : α → Action β) :
    (act (a >>= f) : Run σ β) = act a >>= fun v => act (f v) := by
  funext s st
  rw [bind_apply, act_apply, act_apply, Action.bind_apply]
  rcases a st with ⟨_ | _, _⟩ <;> rfl

theorem act_map (a : Action α) (f : α → β) :
    (act (f <$> a) : Run σ β) = f <$> act a := by
  rw [← bind_pure_comp, act_bind, ← bind_pure_comp]
  rfl

/-- Where the first run has an answer, the second one has the same. -/
def Below (x y : Run σ α) : Prop := ∀ s st p, x s st = some p → y s st = some p

theorem Below.refl (x : Run σ α) : x.Below x := fun _ _ _ h => h

theorem Below.bind {x y : Run σ α} {f g : α → Run σ β} (h : x.Below y)
    (hf : ∀ a, (f a).Below (g a)) : (x >>= f).Below (y >>= g) := by
  intro s st p hp
  rw [bind_apply] at hp
  obtain ⟨⟨⟨r, s₁⟩, st₁⟩, hx, hp⟩ := Option.bind_eq_some_iff.mp hp
  rw [bind_apply, h _ _ _ hx]
  cases r with
  | ok a => exact hf a _ _ _ hp
  | error e => exact hp

end Run

namespace Classic

open Run Walk

/-! ## One turn of the loop -/

/-- Evaluate an expression one level further down. -/
def nested (limit fuel left : Nat) (x : Value) (s : ScopeRef) : Walk Value :=
  match left with
  | 0 => throw (.tooDeep limit)
  | left + 1 => walk limit fuel left x s

/-- Carry out what a turn of the loop came to, and the turns after it at the same level,
at most `turns` nested evaluations. -/
def unwind (limit fuel left : Nat) (s : ScopeRef) : (turns : Nat) → Next → Walk Value
  | _, .value v => pure v
  | _, .tail x t => walk limit fuel left x t
  | 0, .nested _ _ _ => outOfFuel
  | turns + 1, .nested x t p => do
    let v ← nested limit fuel left x t
    act (p.resume s v) >>= unwind limit fuel left s turns

/-- A bound on the nested evaluations that come after one. -/
def Pending.turns : Pending → Nat
  | .branch _ | .bind _ _ | .expansion => 0
  | .sequence rest => rest.length
  | .operator operands => operands.length + 1
  | .operand _ _ rest => rest.length

/-- A bound on the nested evaluations of a turn and of those after it. -/
def Next.turns : Next → Nat
  | .value _ | .tail _ _ => 0
  | .nested _ _ p => p.turns + 1

variable (limit fuel left : Nat) (s : ScopeRef)

@[simp] theorem unwind_value (turns : Nat) (v : Value) :
    unwind limit fuel left s turns (.value v) = pure v := by
  cases turns <;> rfl

@[simp] theorem unwind_tail (turns : Nat) (x : Value) (t : ScopeRef) :
    unwind limit fuel left s turns (.tail x t) = walk limit fuel left x t := by
  cases turns <;> rfl

@[simp] theorem unwind_nested (turns : Nat) (x : Value) (t : ScopeRef) (p : Pending) :
    unwind limit fuel left s (turns + 1) (.nested x t p) = (do
        let v ← nested limit fuel left x t
        act (p.resume s v) >>= unwind limit fuel left s turns) := rfl

theorem unwind_ofValue (turns : Nat) (a : Action Value) :
    act (Next.ofValue a) >>= unwind limit fuel left s turns = act a := by
  simp [Next.ofValue, act_map]

theorem unwind_sequence (turns : Nat) : ∀ (xs : List Value) (last : Value),
    xs.length ≤ turns →
    act (sequence s (xs ++ [last])) >>= unwind limit fuel left s turns = (do
      xs.forM fun e => discard (nested limit fuel left e s)
      walk limit fuel left last s) := by
  induction turns with
  | zero =>
    intro xs last h
    rw [List.length_eq_zero_iff.mp (Nat.le_zero.mp h)]
    simp [sequence, act_pure]
  | succ turns ih =>
    intro xs last h
    rcases xs with _ | ⟨e, xs⟩
    · simp [sequence, act_pure]
    · have hs : sequence s (e :: xs ++ [last]) = pure (.nested e s (.sequence (xs ++ [last]))) := by
        cases xs <;> rfl
      rw [hs, act_pure, pure_bind, unwind_nested]
      simp only [Pending.resume, ih xs last (Nat.le_of_succ_le_succ h), List.forM_eq_forM,
        List.forM_cons, bind_assoc, discard_bind]

/-- What a call comes to once its arguments have been evaluated. -/
theorem unwind_call (turns : Nat) (callee : Value) (args : List Value) :
    act (call callee args s) >>= unwind limit fuel left s turns =
      match callee with
      | .lambda c => do
        let t ← act (do Action.bindParameters (← c.params) args c.scope)
        walk limit fuel left (← act c.body) t
      | .native p => act (p.call args)
      | .scopeNative p => act (p.call args s)
      | other => act (do throw (.notCallable (other.shown (← get)))) := by
  cases callee with
  | lambda c =>
    simp only [call, callScope, act_bind, act_map, bind_pure_comp, bind_assoc, bind_map_left,
      unwind_tail]
  | native p => exact unwind_ofValue limit fuel left s turns _
  | scopeNative p => exact unwind_ofValue limit fuel left s turns _
  | _ => rfl

theorem unwind_arguments (callee : Value) : ∀ (operands args : List Value) (turns : Nat),
    operands.length ≤ turns →
    act (arguments callee args s operands) >>= unwind limit fuel left s turns = (do
      let vs ← operands.mapM fun e => nested limit fuel left e s
      act (call callee (args ++ vs) s) >>= unwind limit fuel left s 0) := by
  intro operands
  induction operands with
  | nil => intro args turns _; simp [arguments, unwind_call]
  | cons e operands ih =>
    intro args turns h
    obtain ⟨turns, rfl⟩ : ∃ k, turns = k + 1 := ⟨turns - 1, by simp at h; omega⟩
    rw [arguments, act_pure, pure_bind, unwind_nested]
    simp only [Pending.resume, ih _ turns (Nat.le_of_succ_le_succ h), List.mapM_cons, bind_assoc,
      pure_bind, List.append_assoc, List.singleton_append]

theorem unwind_binding (form : SpecialForm) (items : List Value) :
    (act (binding .beforeValue form items s) >>= fun n => unwind limit fuel left s n.turns n) =
      (do
        let name ← act (form.boundName items)
        let v ← nested limit fuel left (← act (form.operand items 2)) s
        act (form.bind name v s)) := by
  simp only [binding, SpecialForm.boundName, SpecialForm.operand]
  rcases items[1]? with _ | name
  · rfl
  rcases items[2]? with _ | x <;> rcases hk : name.keyText? with _ | k
  · simp only [Action.keyText_of_none hk, discard_bind, act_bind, pure_bind, bind_assoc]
    rfl
  · simp only [Action.keyText_of_some hk, discard_bind, act_bind, pure_bind, bind_assoc]
    rfl
  · simp only [Action.keyText_of_none hk, discard_bind, act_bind, pure_bind, bind_assoc]
    rfl
  · simp only [Action.keyText_of_some hk, discard_bind, pure_bind, act_pure, Next.turns,
      Pending.turns, unwind_nested, Pending.resume, unwind_ofValue]

/-- The walk takes a turn and then those that the turn leads to. -/
theorem walk_succ (x : Value) :
    walk limit (fuel + 1) left x s = (do
      countStep
      let n ← act (enter .beforeValue x s)
      unwind limit fuel left s n.turns n) := by
  have hv (a : Action Value) :
      (act (Next.ofValue a) >>= fun n => unwind limit fuel left s n.turns n) = act a := by
    simp [Next.ofValue, act_map]
  rw [walk]
  refine bind_congr fun _ => ?_
  cases x with
  | symbol name => exact (hv _).symm
  | list r =>
    simp only [enter, act_bind, act_pure, bind_assoc, pure_bind]
    refine bind_congr fun st => ?_
    rcases st.items r with _ | ⟨head, operands⟩
    · exact (hv _).symm
    rw [form]
    dsimp only
    rcases SpecialForm.ofItems? (head :: operands) with _ | (_ | _ | _ | _ | _ | _ | _) <;>
      dsimp only
    case some.quote => exact (hv _).symm
    case some.lambda => exact (hv _).symm
    case some.expander => exact (hv _).symm
    case some.branch =>
      simp only [act_bind, bind_assoc, act_pure, pure_bind, Next.turns, Pending.turns,
        unwind_nested, Pending.resume, unwind_tail]
      rfl
    case some.define => exact (unwind_binding limit fuel left s .define _).symm
    case some.assign => exact (unwind_binding limit fuel left s .assign _).symm
    case some.sequence =>
      rcases operands.eq_nil_or_concat' with rfl | ⟨xs, last, rfl⟩
      · exact (hv _).symm
      · rw [List.getLast?_concat, List.dropLast_concat]
        rcases xs with _ | ⟨e, xs⟩
        · simp [sequence, act_pure, Next.turns]
        · have hs : sequence s (e :: xs ++ [last]) =
              pure (.nested e s (.sequence (xs ++ [last]))) := by cases xs <;> rfl
          have hu := unwind_sequence limit fuel left s ((xs ++ [last]).length + 1) (e :: xs) last
            (by simp)
          rw [hs, act_pure, pure_bind] at hu ⊢
          exact hu.symm
    case none =>
      simp only [act_pure, pure_bind, Next.turns, Pending.turns, unwind_nested]
      refine bind_congr fun callee => ?_
      have ha := unwind_arguments limit fuel left s callee operands [] (operands.length + 1)
        (Nat.le_succ _)
      simp only [unwind_call, List.nil_append] at ha
      cases callee
      case expander c =>
        simp only [Pending.resume, callScope, act_bind, act_pure, bind_assoc, pure_bind,
          unwind_nested, unwind_tail]
        rfl
      all_goals
        simp only [Pending.resume, act_bind, bind_assoc] at ha ⊢
        exact ha.symm
  | _ => simp [enter, act_pure, Next.turns]

/-! ## More fuel -/

theorem unwind_below {fuel fuel' : Nat}
    (h : ∀ left x t, (walk limit fuel left x t).Below (walk limit fuel' left x t)) :
    ∀ (turns : Nat) (next : Next),
      (unwind limit fuel left s turns next).Below (unwind limit fuel' left s turns next) := by
  intro turns
  induction turns with
  | zero =>
    rintro (v | ⟨x, t⟩ | ⟨x, t, p⟩)
    · exact .refl _
    · exact h left x t
    · exact .refl _
  | succ turns ih =>
    rintro (v | ⟨x, t⟩ | ⟨x, t, p⟩)
    · exact .refl _
    · exact h left x t
    · refine Below.bind ?_ fun v => Below.bind (.refl _) ih
      cases left with
      | zero => exact .refl _
      | succ left => exact h left x t

theorem walk_below {fuel fuel' : Nat} (hf : fuel ≤ fuel') (left : Nat) (x : Value) (s : ScopeRef) :
    (walk limit fuel left x s).Below (walk limit fuel' left x s) := by
  induction fuel generalizing fuel' left x s with
  | zero =>
    intro n st p h
    cases h
  | succ fuel ih =>
    obtain ⟨fuel', rfl⟩ : ∃ k, fuel' = k + 1 := ⟨fuel' - 1, by omega⟩
    rw [walk_succ, walk_succ]
    refine Below.bind (.refl _) fun _ => Below.bind (.refl _) fun next => ?_
    exact unwind_below _ _ _ (fun left x t => ih (Nat.le_of_succ_le_succ hf) left x t) _ next

/-- More fuel changes no answer. -/
theorem evaluate_below {fuel fuel' : Nat} (hf : fuel ≤ fuel') (x : Value) (s : ScopeRef) :
    (evaluate limit fuel x s).Below (evaluate limit fuel' x s) := by
  cases limit with
  | zero => exact .refl _
  | succ left => exact walk_below _ hf left x s

/-! ## How many nested evaluations a turn leads to -/

variable {limit fuel left s}
variable {st st' : Store} {n n' : Nat} {r : Except Failure Value}

theorem Next.ofValue_turns {a : Action Value} {next : Next}
    (h : Next.ofValue a st = (.ok next, st')) : next.turns = 0 := by
  rw [Next.ofValue, Action.bind_apply] at h
  split at h <;> cases h
  rfl

theorem call_turns {callee : Value} {args : List Value} {next : Next}
    (h : call callee args s st = (.ok next, st')) : next.turns = 0 := by
  cases callee with
  | lambda c =>
    simp only [call, Action.bind_apply] at h
    split at h
    · split at h <;> cases h
      rfl
    · cases h
  | native p => exact Next.ofValue_turns h
  | scopeNative p => exact Next.ofValue_turns h
  | _ => cases h

theorem arguments_turns {callee : Value} {args operands : List Value} {next : Next}
    (h : arguments callee args s operands st = (.ok next, st')) :
    next.turns ≤ operands.length := by
  rcases operands with _ | ⟨e, rest⟩
  · exact Nat.le_of_eq (call_turns h)
  · cases h
    exact Nat.le_refl _

theorem sequence_turns {xs : List Value} {next : Next}
    (h : sequence s xs st = (.ok next, st')) : next.turns ≤ xs.length := by
  rcases xs with _ | ⟨e, _ | ⟨e', rest⟩⟩
  · exact Nat.le_of_eq (Next.ofValue_turns h)
  · cases h
    exact Nat.zero_le _
  · cases h
    exact Nat.le_refl _

/-- The bound on what comes after a nested evaluation holds. -/
theorem Pending.resume_turns {p : Pending} {v : Value} {next : Next}
    (h : p.resume s v st = (.ok next, st')) : next.turns ≤ p.turns := by
  cases p with
  | branch items =>
    rw [resume, Action.bind_apply] at h
    split at h <;> cases h
    exact Nat.le_refl _
  | bind form name =>
    rw [resume, Action.bind_apply] at h
    split at h
    · exact Nat.le_of_eq (Next.ofValue_turns h)
    · cases h
  | sequence rest => exact sequence_turns h
  | operator operands =>
    cases v with
    | expander c =>
      simp only [resume, Action.bind_apply] at h
      split at h
      · split at h <;> cases h
        exact Nat.le_add_left 1 _
      · cases h
    | _ => exact Nat.le_succ_of_le (arguments_turns h)
  | operand callee args rest => exact arguments_turns h
  | expansion =>
    cases h
    exact Nat.le_refl _

/-! ## Where the engine is, the course is -/

open Course

/-- What the engine comes to at a level of the course, with so much fuel, the course comes
to: it hands a value to the levels around, it fails, it gets deeper than `bound`, or it takes
as many steps as there is fuel. -/
inductive ComesTo (limit bound fuel : Nat) (levels : List Level) (c : Course) (st : Store) :
    Option ((Except Failure Value × Nat) × Store) → Prop
  | value {k n : Nat} {v : Value} {st' : Store}
      (h : Leads .beforeValue bound k c st ⟨.value v, levels⟩ st') :
      ComesTo limit bound fuel levels c st (some ((.ok v, n), st'))
  | failure {k n : Nat} {c' : Course} {e : Failure} {st₁ st' : Store}
      (h : Leads .beforeValue bound k c st c' st₁) (hv : c'.value? = none)
      (hf : c'.step .beforeValue st₁ = (.error e, st')) :
      ComesTo limit bound fuel levels c st (some ((.error e, n), st'))
  | tooDeep {k n : Nat} {st' : Store} (h : Outgrows .beforeValue bound k c st st') :
      ComesTo limit bound fuel levels c st (some ((.error (.tooDeep limit), n), st'))
  | outOfFuel {k : Nat} {c' : Course} {st' : Store}
      (h : Leads .beforeValue bound k c st c' st') (hk : fuel ≤ k) :
      ComesTo limit bound fuel levels c st none

variable {bound : Nat} {levels : List Level} {c c₁ : Course} {st₁ : Store}
  {o : Option ((Except Failure Value × Nat) × Store)}

theorem ComesTo.head (hd : c.depth ≤ bound) (hv : c.value? = none)
    (hs : c.step .beforeValue st = (.ok c₁, st₁)) (h : ComesTo limit bound fuel levels c₁ st₁ o) :
    ComesTo limit bound (fuel + 1) levels c st o := by
  cases h with
  | value h => exact .value (.head hd hv hs h)
  | failure h hv' hf => exact .failure (.head hd hv hs h) hv' hf
  | tooDeep h => exact .tooDeep (.head hd hv hs h)
  | outOfFuel h hk => exact .outOfFuel (.head hd hv hs h) (Nat.succ_le_succ hk)

theorem ComesTo.prepend {k : Nat} (hl : Leads .beforeValue bound k c st c₁ st₁)
    (h : ComesTo limit bound fuel levels c₁ st₁ o) :
    ComesTo limit bound (k + fuel) levels c st o := by
  cases h with
  | value h => exact .value (hl.trans h)
  | failure h hv hf => exact .failure (hl.trans h) hv hf
  | tooDeep h => exact .tooDeep (h.prepend hl)
  | outOfFuel h hk => exact .outOfFuel (hl.trans h) (Nat.add_le_add_left hk k)

theorem ComesTo.mono {fuel' : Nat} (hf : fuel' ≤ fuel)
    (h : ComesTo limit bound fuel levels c st o) : ComesTo limit bound fuel' levels c st o := by
  cases h with
  | value h => exact .value h
  | failure h hv hf => exact .failure h hv hf
  | tooDeep h => exact .tooDeep h
  | outOfFuel h hk => exact .outOfFuel h (Nat.le_trans hf hk)

theorem unwind_comesTo (hb : levels.length + left + 1 = bound)
    (ih : ∀ {left x s n st} (levels : List Level), levels.length + left + 1 = bound →
      ComesTo limit bound fuel levels ⟨.eval x s, levels⟩ st (walk limit fuel left x s n st)) :
    ∀ (turns : Nat) (next : Next) (n : Nat) (st : Store), next.turns ≤ turns →
      ComesTo limit bound fuel levels (follow s levels next) st
        (unwind limit fuel left s turns next n st) := by
  have hd : levels.length + 1 ≤ bound := by omega
  intro turns
  induction turns with
  | zero =>
    rintro (v | ⟨x, t⟩ | ⟨x, t, p⟩) n st hn
    · exact .value (.refl hd)
    · exact ih levels hb
    · exact absurd hn (Nat.not_succ_le_zero _)
  | succ turns iht =>
    rintro (v | ⟨x, t⟩ | ⟨x, t, p⟩) n st hn
    · exact .value (.refl hd)
    · exact ih levels hb
    · rw [unwind_nested]
      rcases left with _ | left
      · exact .tooDeep (.here (congrArg (· + 1) hb))
      change ComesTo _ _ _ _ _ _ ((walk limit fuel left x t >>= _) n st)
      have hw := @ih left x t n st (⟨p, s⟩ :: levels) (by rw [List.length_cons]; omega)
      rcases h : walk limit fuel left x t n st with _ | ⟨⟨e | v, n₁⟩, st₁⟩ <;> rw [h] at hw
      · rw [bind_apply, h]
        cases hw with
        | outOfFuel h hk => exact .outOfFuel h hk
      · rw [bind_error h]
        cases hw with
        | failure h hv hf => exact .failure h hv hf
        | tooDeep h => exact .tooDeep h
      · rw [bind_ok h]
        cases hw with
        | value hl =>
        rcases hp : p.resume s v st₁ with ⟨e | next, st₂⟩
        · rw [act_bind_error n₁ hp]
          exact .failure hl rfl (step_value_error hp)
        · rw [act_bind_ok n₁ hp]
          have ht := Nat.le_trans (Pending.resume_turns hp) (Nat.le_of_succ_le_succ hn)
          have hr := (iht next n₁ st₂ ht).head hl.depth_le_last rfl (step_value_ok hp)
          exact (hr.prepend hl).mono (by omega)

theorem walk_comesTo : ∀ (fuel : Nat) {left x s n st} (levels : List Level),
    levels.length + left + 1 = bound →
    ComesTo limit bound fuel levels ⟨.eval x s, levels⟩ st (walk limit fuel left x s n st) := by
  intro fuel
  induction fuel with
  | zero =>
    intro left x s n st levels hb
    have hd : levels.length + 1 ≤ bound := by omega
    exact .outOfFuel (.refl hd) (Nat.zero_le _)
  | succ fuel ih =>
    intro left x s n st levels hb
    have hd : levels.length + 1 ≤ bound := by omega
    rw [walk_succ]
    change ComesTo _ _ _ _ _ _ ((act (enter .beforeValue x s) >>= _) (n + 1) st)
    rcases he : enter .beforeValue x s st with ⟨e | next, st₁⟩
    · rw [act_bind_error _ he]
      exact .failure (.refl hd) rfl (step_eval_error he)
    · rw [act_bind_ok _ he]
      exact (unwind_comesTo hb ih _ next _ st₁ (Nat.le_refl _)).head hd rfl (step_eval_ok he)

theorem evaluate_comesTo (limit fuel n : Nat) (x : Value) (s : ScopeRef) (st : Store) :
    ComesTo limit limit fuel [] (Course.start x s) st (evaluate limit fuel x s n st) := by
  rcases limit with _ | left
  · exact .tooDeep (.here rfl)
  · exact walk_comesTo fuel [] (by simp)

variable {x : Value}

/-- When the recursive engine ends, and not for the sake of its depth limit, then the course
of the evaluation comes to the same end within that depth. -/
theorem evaluate_ends (h : evaluate limit fuel x s n st = some ((r, n'), st'))
    (hr : r ≠ .error (.tooDeep limit)) :
    Course.Ends .beforeValue limit (.start x s) st r st' := by
  have hc := evaluate_comesTo limit fuel n x s st
  rw [h] at hc
  cases hc with
  | value hl => exact ⟨_, .value hl⟩
  | failure hl _ hf => exact ⟨_, .failure hl hf⟩
  | tooDeep _ => exact absurd rfl hr

/-- When it ends for the sake of its depth limit, then the course gets too deep there. -/
theorem evaluate_outgrows
    (h : evaluate limit fuel x s n st = some ((.error (.tooDeep limit), n'), st')) :
    ∃ k, Outgrows .beforeValue limit k (.start x s) st st' := by
  have hc := evaluate_comesTo limit fuel n x s st
  rw [h] at hc
  cases hc with
  | failure _ _ hf => exact ((Course.plain_step .beforeValue _).ofLanguage hf).elim
  | tooDeep h => exact ⟨_, h⟩

/-- When the course of an evaluation ends, then the recursive engine comes to the same end
under every limit that the course keeps, with fuel enough. -/
theorem ends_evaluate (h : Course.Ends .beforeValue bound (.start x s) st r st') :
    ∃ least, ∀ limit fuel n, bound ≤ limit → least ≤ fuel →
      ∃ n', evaluate limit fuel x s n st = some ((r, n'), st') := by
  obtain ⟨k, hk⟩ := h
  refine ⟨k + 1, fun limit fuel n hl hf => ?_⟩
  have hc := evaluate_comesTo limit fuel n x s st
  generalize evaluate limit fuel x s n st = o at hc ⊢
  cases hc with
  | value h =>
    obtain ⟨j, -, hj⟩ := EndsIn.after h hk
    obtain ⟨rfl, rfl⟩ := hj.of_value
    exact ⟨_, rfl⟩
  | failure h hv he =>
    obtain ⟨j, -, hj⟩ := EndsIn.after h hk
    obtain ⟨-, ⟨e', hs, rfl⟩ | ⟨_, _, _, _, hs, _⟩⟩ := hj.cases_head hv <;> cases he.symm.trans hs
    exact ⟨_, rfl⟩
  | tooDeep h => exact absurd hk (h.not_endsIn hl)
  | outOfFuel h hk' =>
    obtain ⟨j, rfl, -⟩ := EndsIn.after h hk
    omega

/-- When the course of an evaluation gets too deep, then so does the recursive engine. -/
theorem outgrows_evaluate {k : Nat}
    (h : Outgrows .beforeValue limit k (.start x s) st st') (n : Nat) :
    ∃ n', evaluate limit (k + 1) x s n st = some ((.error (.tooDeep limit), n'), st') := by
  have hc := evaluate_comesTo limit (k + 1) n x s st
  generalize evaluate limit (k + 1) x s n st = o at hc ⊢
  cases hc with
  | value hl => exact absurd (EndsIn.value hl) (h.not_endsIn (Nat.le_refl _))
  | failure hl _ he => exact absurd (EndsIn.failure hl he) (h.not_endsIn (Nat.le_refl _))
  | tooDeep h' =>
    cases h.unique h'
    exact ⟨_, rfl⟩
  | outOfFuel hl hk =>
    obtain ⟨j, rfl, -⟩ := h.after hl
    omega

end Classic

end LispEngines
