import LispEngines.Engine
import LispEngines.Proofs.Course.Recursion

/-!
# What an engine comes to

An engine is given fuel, and with too little of it there is no answer.  `Engine.Ends` says
what the answer is when there is one.  For the recursive engine the answer is the end of
the course of the evaluation (`Engine.classic_ends_iff`).
-/

namespace LispEngines

namespace Engine

/-- With some fuel the engine ends, with this result and this store. -/
def Ends (engine : Engine) (x : Value) (s : ScopeRef) (st : Store) (r : Except Failure Value)
    (st' : Store) : Prop :=
  ∃ fuel engine', evaluate fuel x s engine st = some ((r, engine'), st')

variable {x : Value} {s : ScopeRef} {st st' : Store} {r : Except Failure Value}

theorem classic_ends_iff_evaluate {limit n : Nat} :
    Ends (.classic limit n) x s st r st' ↔
      ∃ fuel n', Classic.evaluate limit fuel x s n st = some ((r, n'), st') := by
  constructor
  · rintro ⟨fuel, engine, h⟩
    rcases he : Classic.evaluate limit fuel x s n st with _ | ⟨⟨r', n'⟩, st₁⟩
    · simp [evaluate, he] at h
    · simp [evaluate, he] at h
      obtain ⟨⟨rfl, -⟩, rfl⟩ := h
      exact ⟨fuel, n', he⟩
  · rintro ⟨fuel, n', h⟩
    exact ⟨fuel, .classic limit n', by simp [evaluate, h]⟩

theorem frame_ends_iff_run {n depth : Nat} :
    Ends (.frame n depth) x s st r st' ↔
      ∃ fuel m, FrameStack.run fuel (.start x s) st = some ((r, m), st') := by
  constructor
  · rintro ⟨fuel, engine, h⟩
    rcases he : FrameStack.run fuel (.start x s) st with _ | ⟨⟨r', m⟩, st₁⟩
    · simp [evaluate, he] at h
    · simp [evaluate, he] at h
      obtain ⟨⟨rfl, -⟩, rfl⟩ := h
      exact ⟨fuel, m, he⟩
  · rintro ⟨fuel, m, h⟩
    exact ⟨fuel, .frame (n + m.steps) m.maxDepth, by simp [evaluate, h]⟩

/-- When the recursive engine ends, and not for the sake of its depth limit, the course of
the evaluation keeps the limit and comes to the same end. -/
theorem course_of_classic {limit n : Nat} (h : Ends (.classic limit n) x s st r st')
    (hr : r ≠ .error (.tooDeep limit)) :
    Course.Ends .beforeValue limit (.start x s) st r st' := by
  obtain ⟨fuel, n', h⟩ := classic_ends_iff_evaluate.mp h
  exact Classic.evaluate_ends h hr

theorem classic_of_course {bound limit n : Nat}
    (h : Course.Ends .beforeValue bound (.start x s) st r st') (hl : bound ≤ limit) :
    Ends (.classic limit n) x s st r st' := by
  obtain ⟨least, hw⟩ := Classic.ends_evaluate h
  obtain ⟨n', hn⟩ := hw limit least n hl (Nat.le_refl _)
  exact classic_ends_iff_evaluate.mpr ⟨least, n', hn⟩

/-- The recursive engine hits its depth limit when the course gets too deep for it. -/
theorem classic_tooDeep_iff {limit n : Nat} :
    Ends (.classic limit n) x s st (.error (.tooDeep limit)) st' ↔
      ∃ k, Course.Outgrows .beforeValue limit k (.start x s) st st' := by
  rw [classic_ends_iff_evaluate]
  constructor
  · rintro ⟨fuel, n', h⟩
    exact Classic.evaluate_outgrows h
  · rintro ⟨k, h⟩
    obtain ⟨n', h⟩ := Classic.outgrows_evaluate h n
    exact ⟨k + 1, n', h⟩

/-- The recursive engine ends as the course does within the depth limit, or it hits the
limit. -/
theorem classic_ends_iff {limit n : Nat} :
    Ends (.classic limit n) x s st r st' ↔
      Course.Ends .beforeValue limit (.start x s) st r st' ∨
        r = .error (.tooDeep limit) ∧
          ∃ k, Course.Outgrows .beforeValue limit k (.start x s) st st' := by
  constructor
  · intro h
    by_cases hr : r = .error (.tooDeep limit)
    · subst hr
      exact .inr ⟨rfl, classic_tooDeep_iff.mp h⟩
    · exact .inl (course_of_classic h hr)
  · rintro (h | ⟨rfl, h⟩)
    · exact classic_of_course h (Nat.le_refl _)
    · exact classic_tooDeep_iff.mpr h

end Engine

end LispEngines
