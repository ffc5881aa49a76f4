import LispEngines.Proofs.Course.Basic

/-!
# Courses within more levels

What an evaluation does has nothing to do with the evaluations around it.  With more levels
around, its course is the same, and deeper by as many levels.

* `Course.within`: a course with more levels around.
* `Course.Leads.within`, `Course.EndsIn.within`: it takes the same steps.
-/

namespace LispEngines.Course

open Classic (NameCheck)

variable {check : NameCheck} {bound k : Nat} {c c₁ : Course} {st st₁ : Store}
  {r : Except Failure Value} {levels : List Level}

/-- The course with more levels around. -/
def within (c : Course) (outer : List Level) : Course := ⟨c.control, c.levels ++ outer⟩

@[simp] theorem within_depth (c : Course) (outer : List Level) :
    (c.within outer).depth = c.depth + outer.length := by
  rw [depth, depth, within, List.length_append, Nat.add_right_comm]

theorem within_value? (hv : c.value? = none) (outer : List Level) :
    (c.within outer).value? = none := by
  obtain ⟨x | v, _ | ⟨l, levels⟩⟩ := c <;> first | rfl | cases hv

theorem follow_within (s : ScopeRef) (levels outer : List Level) (next : Classic.Next) :
    follow s (levels ++ outer) next = (follow s levels next).within outer := by
  cases next <;> rfl

/-- The next step is the same with more levels around. -/
theorem step_within (hv : c.value? = none) (outer : List Level) :
    (c.within outer).step check st =
      ((c.step check st).1.map (·.within outer), (c.step check st).2) := by
  obtain ⟨⟨x, s⟩ | v, levels⟩ := c
  · show step check ⟨.eval x s, levels ++ outer⟩ st = _
    rw [step_eval, step_eval]
    rcases Classic.enter check x s st with ⟨_ | next, st'⟩
    · rfl
    · exact congrArg (fun c => (Except.ok c, st')) (follow_within s levels outer next)
  · rcases levels with _ | ⟨⟨p, s⟩, levels⟩
    · cases hv
    · show step check ⟨.value v, ⟨p, s⟩ :: (levels ++ outer)⟩ st = _
      rw [step_value, step_value]
      rcases p.resume s v st with ⟨_ | next, st'⟩
      · rfl
      · exact congrArg (fun c => (Except.ok c, st')) (follow_within s levels outer next)

theorem Leads.within (h : Leads check bound k c st c₁ st₁) (outer : List Level) :
    Leads check (bound + outer.length) k (c.within outer) st (c₁.within outer) st₁ := by
  induction h with
  | refl hd => exact .refl (by rw [within_depth]; omega)
  | head hd hv hs _ ih =>
    refine .head (by rw [within_depth]; omega) (within_value? hv outer) ?_ ih
    rw [step_within hv, hs]
    rfl

theorem EndsIn.within (h : EndsIn check bound [] k c st r st₁) (outer : List Level) :
    EndsIn check (bound + outer.length) outer k (c.within outer) st r st₁ := by
  cases h with
  | value hl => exact .value (hl.within outer)
  | failure hl hf =>
    refine .failure (hl.within outer) ?_
    rw [step_within (value?_of_error hf), hf]
    rfl

end LispEngines.Course
