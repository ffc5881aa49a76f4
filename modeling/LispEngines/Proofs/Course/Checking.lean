import LispEngines.Proofs.Course.Basic

/-!
# When names are checked

The recursive engine looks at both operands of a definition or an assignment before it
evaluates the value.  The evaluator program counts them, evaluates the value, and looks at the
name when it binds it.  As long as the operands are as they should be, this makes no
difference, so a course that comes to no bad binding is the same for both.

* `SpecialForm.Rejects`: the operands of a definition or an assignment are bad.
* `Course.AtBadBinding`, `Course.AvoidsBadBinding`: a course comes to such a form, or never.
* `Course.leads_afterValue`, `Course.endsIn_afterValue`: it does not matter then when the name
  is looked at.
-/

namespace LispEngines

/-- A definition or an assignment has no name, or something else in its place, or no value. -/
def SpecialForm.Rejects (form : SpecialForm) (items : List Value) (st : Store) : Prop :=
  (∃ e, (form.boundName items st).1 = .error e) ∨ ∃ e, (form.operand items 2 st).1 = .error e

/-- The name and the value of a definition or an assignment that is not rejected. -/
theorem SpecialForm.operands_of_not_rejects {form : SpecialForm} {items : List Value} {st : Store}
    (h : ¬ form.Rejects items st) :
    ∃ name v key, items[1]? = some name ∧ items[2]? = some v ∧ name.keyText? = some key := by
  rcases hn : form.boundName items st with ⟨e | key, st₁⟩
  · exact absurd (.inl ⟨e, congrArg Prod.fst hn⟩) h
  rcases hv : form.operand items 2 st with ⟨e | v, st₂⟩
  · exact absurd (.inr ⟨e, congrArg Prod.fst hv⟩) h
  obtain ⟨name, hi, hk, -⟩ := SpecialForm.boundName_ok hn
  exact ⟨name, v, key, hi, (SpecialForm.operand_ok hv).1, hk⟩

namespace Classic

theorem binding_check {form : SpecialForm} {items : List Value} {s : ScopeRef} {st : Store}
    (h : ¬ form.Rejects items st) :
    binding .beforeValue form items s st = binding .afterValue form items s st := by
  obtain ⟨name, v, key, hn, hv, hk⟩ := SpecialForm.operands_of_not_rejects h
  have ho (i : Nat) {w : Value} (hw : items[i]? = some w) : form.operand items i = pure w := by
    rw [SpecialForm.operand, hw]
  rw [binding, binding, SpecialForm.boundName, ho 1 hn, ho 2 hv, pure_bind,
    Action.keyText_of_some hk, discard_bind, hn, hv]
  rfl

end Classic

namespace Course

open Classic (NameCheck)

variable {bound k : Nat} {c c₁ : Course} {st st₁ : Store} {r : Except Failure Value}
  {levels : List Level}

/-- The course is about to evaluate a definition or an assignment with bad operands. -/
def AtBadBinding (c : Course) (st : Store) : Prop :=
  ∃ r s form, c.control = .eval (.list r) s ∧
    SpecialForm.ofItems? (st.items r) = some form ∧ (form = .define ∨ form = .assign) ∧
    form.Rejects (st.items r) st

/-- The course never comes to a definition or an assignment with bad operands. -/
def AvoidsBadBinding (c : Course) (st : Store) : Prop :=
  ∀ bound k c' st', Leads .beforeValue bound k c st c' st' → ¬ c'.AtBadBinding st'

theorem AvoidsBadBinding.tail (h : AvoidsBadBinding c st) (hv : c.value? = none)
    (hs : c.step .beforeValue st = (.ok c₁, st₁)) : AvoidsBadBinding c₁ st₁ := by
  intro bound k c' st' hl
  exact h (max c.depth bound) (k + 1) c' st'
    (.head (Nat.le_max_left _ _) hv hs (hl.mono (Nat.le_max_right _ _)))

theorem AvoidsBadBinding.not_here (h : AvoidsBadBinding c st) : ¬ c.AtBadBinding st :=
  h c.depth 0 c st (.refl (Nat.le_refl _))

/-- The next step is the same whenever the name is looked at. -/
theorem step_check (h : ¬ c.AtBadBinding st) :
    c.step .beforeValue st = c.step .afterValue st := by
  obtain ⟨⟨x, s⟩ | v, levels⟩ := c
  · have he : Classic.enter .beforeValue x s st = Classic.enter .afterValue x s st := by
      cases x with
      | list r =>
        show Classic.form .beforeValue (.list r) s (st.items r) st =
          Classic.form .afterValue (.list r) s (st.items r) st
        rcases hi : st.items r with _ | ⟨head, operands⟩
        · rfl
        rw [Classic.form, Classic.form]
        have hb {form : SpecialForm} (hf : SpecialForm.ofItems? (head :: operands) = some form)
            (hd : form = .define ∨ form = .assign) :
            Classic.binding .beforeValue form (head :: operands) s st =
              Classic.binding .afterValue form (head :: operands) s st :=
          Classic.binding_check fun hr => h ⟨r, s, form, rfl, hi ▸ hf, hd, hi ▸ hr⟩
        rcases hf : SpecialForm.ofItems? (head :: operands) with _ | (_ | _ | _ | _ | _ | _ | _)
        case some.define => exact hb hf (.inl rfl)
        case some.assign => exact hb hf (.inr rfl)
        all_goals rfl
      | _ => rfl
    rw [step_eval, step_eval, he]
  · rcases levels with _ | ⟨⟨p, s⟩, levels⟩ <;> rfl

theorem leads_afterValue (hl : Leads .beforeValue bound k c st c₁ st₁)
    (h : AvoidsBadBinding c st) : Leads .afterValue bound k c st c₁ st₁ := by
  induction hl with
  | refl hb => exact .refl hb
  | head hb hv hs _ ih => exact .head hb hv (step_check h.not_here ▸ hs) (ih (h.tail hv hs))

theorem AvoidsBadBinding.leads (h : AvoidsBadBinding c st)
    (hl : Leads .beforeValue bound k c st c₁ st₁) : AvoidsBadBinding c₁ st₁ := by
  induction hl with
  | refl => exact h
  | head _ hv hs _ ih => exact ih (h.tail hv hs)

/-- A course that comes to no bad binding ends in the same way whenever names are looked at. -/
theorem endsIn_afterValue (he : EndsIn .beforeValue bound levels k c st r st₁)
    (h : AvoidsBadBinding c st) : EndsIn .afterValue bound levels k c st r st₁ := by
  cases he with
  | value hl => exact .value (leads_afterValue hl h)
  | failure hl hf =>
    exact .failure (leads_afterValue hl h) (step_check (h.leads hl).not_here ▸ hf)

/-- Whether a course is seen to end within a number of steps, and something is true of every
moment before. -/
def holdsUntilEnd (check : NameCheck) (p : Course → Store → Bool) :
    (steps : Nat) → Course → Store → Bool
  | 0, _, _ => false
  | steps + 1, c, st =>
    p c st &&
      (c.value?.isSome ||
        match c.step check st with
        | (.ok c', st') => holdsUntilEnd check p steps c' st'
        | (.error _, _) => true)

theorem holds_of_holdsUntilEnd {check : NameCheck} {p : Course → Store → Bool} {steps : Nat}
    (h : holdsUntilEnd check p steps c st = true) (hl : Leads check bound k c st c₁ st₁) :
    p c₁ st₁ = true := by
  induction steps generalizing k c st with
  | zero => cases h
  | succ steps ih =>
    rw [holdsUntilEnd, Bool.and_eq_true] at h
    cases hl with
    | refl => exact h.1
    | head _ hv hs hl =>
      have hrest := h.2
      rw [hv, hs] at hrest
      exact ih hrest hl

/-- Whether no special form is to be evaluated now. -/
def evaluatesNoForm (c : Course) (st : Store) : Bool :=
  match c.control with
  | .eval (.list r) _ => SpecialForm.ofItems? (st.items r) == none
  | _ => true

/-- A course that is seen to end without any special form comes to no bad binding. -/
theorem avoidsBadBinding_of_noForm {steps : Nat}
    (h : holdsUntilEnd .beforeValue evaluatesNoForm steps c st = true) : AvoidsBadBinding c st := by
  rintro bound k c' st' hl ⟨r, s, form, hctl, hform, -⟩
  have hno : evaluatesNoForm c' st' = true := holds_of_holdsUntilEnd h hl
  simp [evaluatesNoForm, hctl, hform] at hno

end Course

end LispEngines
