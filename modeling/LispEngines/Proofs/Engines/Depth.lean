import LispEngines.Proofs.Engines.FrameAgreement
import Mathlib

/-!
# The depth limit counts frames

The recursive engine counts how deep it has called itself, and the resumable engine has a
stack of frames.  Both numbers are the depth of the course, so the recursive engine hits
the limit `d` exactly when the stack comes to have `d + 1` frames, and then the two have
done the same to the store (`FrameStack.reaches_iff_outgrows`).  A tail call leaves the
levels of the course as they are, so however many follow one another, neither engine gets
deeper for it.
-/

namespace LispEngines

namespace FrameStack

open Course (EndsIn Outgrows SparesBareSequence)

/-- After a number of steps the stack has so many frames, for the first time; the second
store is the one at that moment. -/
inductive Reaches (depth : Nat) : FrameStack → Store → Store → Prop
  | here {m : FrameStack} {st : Store} (h : m.depth = depth) : Reaches depth m st st
  | step {m m₁ : FrameStack} {st st₁ st' : Store} (h : m.depth < depth)
      (hs : step m st = ((.ok (), m₁), st₁)) (hr : Reaches depth m₁ st₁ st') :
      Reaches depth m st st'

variable {m m' : FrameStack} {st st' : Store} {rank d : Nat} {c : Course}
  {r : Except Failure Value}

theorem step_of_isDone (h : m.isDone = true) : step m st = ((.ok (), m), st) := by
  simp only [step, Step.get_bind, h]
  rfl

theorem outgrows_of_reaches (h : Reaches (d + 1) m st st') :
    ∀ {rank : Nat} {c : Course}, Represents m st rank c → m.depth ≤ d → m.maxDepth ≤ d →
      c.depth ≤ d → c.SparesBareSequence .beforeValue d st →
      ∃ k, c.Outgrows .beforeValue d k st st' := by
  induction h with
  | here h => intro rank c _ hd; omega
  | @step m m₁ st st₁ st' _ hs hr ih =>
    intro rank c hc hd hmax hcd hn
    rcases hdone : m.isDone with _ | _
    · have hk := step_keeps hdone hc hd hmax hcd hn
      rw [hs] at hk
      cases hk with
      | goes hl hr₁ hd₁ hm₁ _ =>
        obtain ⟨k, hk⟩ := ih hr₁ hd₁ hm₁ hl.depth_le_last (hn.leads hl)
        exact ⟨_, hk.prepend hl⟩
      | outgrows h hd₁ _ =>
        cases hr with
        | here _ => exact ⟨_, h⟩
        | step h' _ _ => omega
    · rw [step_of_isDone hdone] at hs
      cases hs
      exact ih hc hd hmax hcd hn

theorem reaches_of_outgrows : ∀ (fuel : Nat) {k rank : Nat} {m : FrameStack} {st : Store}
    {c : Course}, Represents m st rank c → m.depth ≤ d → m.maxDepth ≤ d → c.depth ≤ d →
    c.SparesBareSequence .beforeValue d st → c.Outgrows .beforeValue d k st st' →
    rank + 3 * k < fuel → Reaches (d + 1) m st st' := by
  intro fuel
  induction fuel with
  | zero => intro _ _ _ _ _ _ _ _ _ _ _ hf; exact absurd hf (Nat.not_lt_zero _)
  | succ fuel ih =>
    intro k rank m st c hc hd hmax hcd hn ho hf
    have hdone : m.isDone = false := by
      by_contra hdone
      obtain ⟨v, rfl, -⟩ := hc.of_isDone (Bool.not_eq_false _ ▸ hdone)
      cases ho with
      | here h => omega
      | head _ hv _ _ => cases hv
    have hk := step_keeps hdone hc hd hmax hcd hn
    rcases hs : step m st with ⟨⟨e | _, m₁⟩, st₁⟩ <;> rw [hs] at hk
    · cases hk with
      | fails hl _ he _ =>
        have hle := hl.depth_le_last
        obtain ⟨j, -, hj⟩ := ho.after hl
        cases hj with
        | here h => omega
        | head _ _ hs' _ => cases he.symm.trans hs'
    · refine .step (Nat.lt_succ_of_le hd) hs ?_
      cases hk with
      | goes hl hr₁ hd₁ hm₁ hlt =>
        obtain ⟨j, rfl, hj⟩ := ho.after hl
        exact ih hr₁ hd₁ hm₁ hl.depth_le_last (hn.leads hl) hj (by omega)
      | outgrows h hd₁ _ =>
        rw [ho.unique h]
        exact .here hd₁

/-- The stack comes to have more than `d` frames where the course gets deeper than `d`. -/
theorem reaches_iff_outgrows {x : Value} {s : ScopeRef}
    (hn : (Course.start x s).SparesBareSequence .beforeValue d st) :
    Reaches (d + 1) (start x s) st st' ↔
      ∃ k, (Course.start x s).Outgrows .beforeValue d k st st' := by
  rcases d with _ | d
  · constructor
    · intro h
      cases h with
      | here _ => exact ⟨0, .here rfl⟩
      | step h _ _ => exact absurd h (Nat.lt_irrefl 1)
    · rintro ⟨k, h⟩
      cases h with
      | here _ => exact .here rfl
      | head h _ _ _ => exact absurd h (Nat.not_succ_le_zero 0)
  · have hd : 1 ≤ d + 1 := Nat.le_add_left 1 d
    have hs := start_represents x s st (hn 0 _ st (.refl hd))
    exact ⟨fun h => outgrows_of_reaches h hs hd hd hd hn, fun ⟨k, h⟩ =>
      reaches_of_outgrows (2 + 3 * k + 1) hs hd hd hd hn h (Nat.lt_succ_self _)⟩

/-! ## The greatest number of frames -/

theorem runFor_done {k : Nat} (hd : m.isDone = true) :
    runFor k m st = ((.ok true, m), st) := by
  rcases k with _ | k
  · simp only [runFor, Step.get_bind, hd]
    rfl
  · simp only [runFor, Step.get_bind, hd]
    rfl

theorem runFor_ok {k : Nat} (hd : m.isDone = false) (hs : step m st = ((.ok (), m'), st')) :
    runFor (k + 1) m st = runFor k m' st' := by
  simp only [runFor, Step.get_bind, hd]
  exact Step.bind_ok hs

theorem runFor_error {k : Nat} {e : Failure} (hd : m.isDone = false)
    (hs : step m st = ((.error e, m'), st')) :
    runFor (k + 1) m st = ((.error e, m'), st') := by
  simp only [runFor, Step.get_bind, hd]
  exact Step.bind_error hs

/-- The stack has had more than `d` frames after some number of steps if it comes to have
`d + 1`. -/
theorem maxDepth_of_reaches (h : Reaches (d + 1) m st st') :
    ∀ {rank : Nat} {c : Course}, Represents m st rank c → m.depth ≤ d → m.maxDepth ≤ d →
      c.depth ≤ d → c.SparesBareSequence .beforeValue d st →
      ∃ k, d < (runFor k m st).1.2.maxDepth := by
  induction h with
  | here h => intro rank c _ hd; omega
  | @step m m₁ st st₁ st' _ hs hr ih =>
    intro rank c hc hd hmax hcd hn
    rcases hdone : m.isDone with _ | _
    · have hk := step_keeps hdone hc hd hmax hcd hn
      rw [hs] at hk
      cases hk with
      | goes hl hr₁ hd₁ hm₁ _ =>
        obtain ⟨k, hk⟩ := ih hr₁ hd₁ hm₁ hl.depth_le_last (hn.leads hl)
        exact ⟨k + 1, by rwa [runFor_ok hdone hs]⟩
      | outgrows _ _ hm₁ => exact ⟨1, by rw [runFor_ok hdone hs]; exact hm₁⟩
    · rw [step_of_isDone hdone] at hs
      cases hs
      exact ih hc hd hmax hcd hn

theorem maxDepth_runFor : ∀ (k : Nat) {rank : Nat} {m : FrameStack} {st : Store} {c : Course},
    Represents m st rank c → m.depth ≤ d → m.maxDepth ≤ d → c.depth ≤ d →
    c.SparesBareSequence .beforeValue d st →
    (runFor k m st).1.2.maxDepth ≤ d ∨ ∃ st', Reaches (d + 1) m st st' := by
  intro k
  induction k with
  | zero => exact fun _ _ hmax _ _ => .inl hmax
  | succ k ih =>
    intro rank m st c hc hd hmax hcd hn
    rcases hdone : m.isDone with _ | _
    · have hk := step_keeps hdone hc hd hmax hcd hn
      rcases hs : step m st with ⟨⟨e | _, m₁⟩, st₁⟩ <;> rw [hs] at hk
      · cases hk with
        | fails _ _ _ hm₁ => exact .inl (by rwa [runFor_error hdone hs])
      · rw [runFor_ok hdone hs]
        cases hk with
        | goes hl hr₁ hd₁ hm₁ _ =>
          exact (ih hr₁ hd₁ hm₁ hl.depth_le_last (hn.leads hl)).imp_right fun ⟨st', h⟩ =>
            ⟨st', .step (Nat.lt_succ_of_le hd) hs h⟩
        | outgrows _ hd₁ _ => exact .inr ⟨st₁, .step (Nat.lt_succ_of_le hd) hs (.here hd₁)⟩
    · rw [runFor_done hdone]
      exact .inl hmax

theorem maxDepth_le_step (st : Store) (hd : m.isDone = false) :
    m.maxDepth ≤ (step m st).1.2.maxDepth := by
  have ht := step_turns st hd
  rcases hs : step m st with ⟨⟨e | _, m₁⟩, st₁⟩ <;> rw [hs] at ht
  · cases ht with
    | error _ hm _ hf => exact Nat.le_of_eq ((maxDepth_of_turn_error hf).trans hm).symm
  · cases ht with
    | ok _ hm _ hf => exact hm ▸ (turn_maxDepth hf).1

/-- A run of a stack that is done does nothing to it. -/
theorem eq_of_run_done {fuel : Nat} (hd : m.isDone = true)
    (h : run (fuel + 1) m st = some ((r, m'), st')) : m' = m := by
  rw [run_of_isDone hd] at h
  rcases hr : m.top.result with _ | v <;> rw [hr] at h <;> cases h <;> rfl

theorem maxDepth_le_run : ∀ (fuel : Nat) {m : FrameStack} {st : Store},
    run fuel m st = some ((r, m'), st') → m.maxDepth ≤ m'.maxDepth := by
  intro fuel
  induction fuel with
  | zero => intro m st h; cases h
  | succ fuel ih =>
    intro m st h
    rcases hd : m.isDone with _ | _
    · have hle := maxDepth_le_step st hd
      rw [run_step hd] at h
      rcases hs : step m st with ⟨⟨e | _, m₁⟩, st₁⟩ <;> rw [hs] at h hle
      · cases h
        exact hle
      · exact Nat.le_trans hle (ih h)
    · rw [eq_of_run_done hd h]

/-- A run that ends has kept to `d` frames, and so has the course, or it comes to have
more. -/
theorem maxDepth_run : ∀ (fuel : Nat) {rank : Nat} {m : FrameStack} {st : Store} {c : Course},
    Represents m st rank c → m.depth ≤ d → m.maxDepth ≤ d → c.depth ≤ d →
    c.SparesBareSequence .beforeValue d st → run fuel m st = some ((r, m'), st') →
    (m'.maxDepth ≤ d ∧ ∃ k, EndsIn .beforeValue d [] k c st r st') ∨
      (d < m'.maxDepth ∧ ∃ st₁, Reaches (d + 1) m st st₁) := by
  intro fuel
  induction fuel with
  | zero => intro _ _ _ _ _ _ _ _ _ h; cases h
  | succ fuel ih =>
    intro rank m st c hc hd hmax hcd hn h
    rcases hdone : m.isDone with _ | _
    · have hk := step_keeps hdone hc hd hmax hcd hn
      rw [run_step hdone] at h
      rcases hs : step m st with ⟨⟨e | _, m₁⟩, st₁⟩ <;> rw [hs] at hk h
      · cases h
        cases hk with
        | fails hl _ hf hm₁ => exact .inl ⟨hm₁, _, .failure hl hf⟩
      · cases hk with
        | goes hl hr₁ hd₁ hm₁ _ =>
          obtain ⟨hle, k, hk⟩ | ⟨hlt, st₂, h₂⟩ :=
            ih hr₁ hd₁ hm₁ hl.depth_le_last (hn.leads hl) h
          · exact .inl ⟨hle, _, hk.prepend hl⟩
          · exact .inr ⟨hlt, st₂, .step (Nat.lt_succ_of_le hd) hs h₂⟩
        | outgrows _ hd₁ hm₁ =>
          exact .inr ⟨Nat.lt_of_lt_of_le hm₁ (maxDepth_le_run fuel h), st₁,
            .step (Nat.lt_succ_of_le hd) hs (.here hd₁)⟩
    · obtain ⟨v, rfl, hr⟩ := hc.of_isDone hdone
      rw [run_done hdone hr] at h
      cases h
      exact .inl ⟨hmax, 0, .value (.refl hcd)⟩

end FrameStack

namespace Course

variable {check : Classic.NameCheck} {bound bound' k : Nat} {c c₁ : Course} {st st₁ st' : Store}
  {r : Except Failure Value}

/-- A course that goes far keeps a bound, or it gets deeper than that. -/
theorem Leads.bounded (h : Leads check bound' k c st c₁ st₁) (hd : c.depth ≤ bound) :
    Leads check bound k c st c₁ st₁ ∨ ∃ j st', Outgrows check bound j c st st' := by
  induction h with
  | refl _ => exact .inl (.refl hd)
  | @head k c c' c₁ st st₁ st₂ _ hv hs _ ih =>
    by_cases hd' : c'.depth ≤ bound
    · obtain h | ⟨j, st', h⟩ := ih hd'
      · exact .inl (.head hd hv hs h)
      · exact .inr ⟨j + 1, st', .head hd hv hs h⟩
    · have hle := step_depth_le hs
      exact .inr ⟨1, st₁, .head hd hv hs (.here (by omega))⟩

theorem EndsIn.bounded (h : EndsIn check bound' [] k c st r st') (hd : c.depth ≤ bound) :
    EndsIn check bound [] k c st r st' ∨ ∃ j st', Outgrows check bound j c st st' := by
  cases h with
  | value hl => exact (hl.bounded hd).imp_left .value
  | failure hl hf => exact (hl.bounded hd).imp_left fun hl => .failure hl hf

theorem Outgrows.bounded (h : Outgrows check bound' k c st st') (hb : bound ≤ bound')
    (hd : c.depth ≤ bound) : ∃ j st', Outgrows check bound j c st st' := by
  induction h with
  | here h => omega
  | @head k c c' st st₁ st₂ _ hv hs _ ih =>
    by_cases hd' : c'.depth ≤ bound
    · obtain ⟨j, st', h⟩ := ih hd'
      exact ⟨j + 1, st', .head hd hv hs h⟩
    · have hle := step_depth_le hs
      exact ⟨1, st₁, .head hd hv hs (.here (by omega))⟩

/-- So many tail calls in a row: after nested evaluations that never get deeper than
`bound` the evaluation goes on with another expression in place of the first one, and no
level is left of it. -/
inductive TailCalls (bound : Nat) : Nat → Value → ScopeRef → Store → Value → ScopeRef → Store →
    Prop
  | none {x : Value} {s : ScopeRef} {st : Store} : TailCalls bound 0 x s st x s st
  | next {n k : Nat} {x x₁ x' : Value} {s s₁ s' : ScopeRef} {st st₁ st' : Store}
      (h : Leads .beforeValue bound (k + 1) (start x s) st (start x₁ s₁) st₁)
      (hr : TailCalls bound n x₁ s₁ st₁ x' s' st') : TailCalls bound (n + 1) x s st x' s' st'

/-- Tail calls do not make the course deeper. -/
theorem TailCalls.leads {n : Nat} {x x' : Value} {s s' : ScopeRef}
    (h : TailCalls bound (n + 1) x s st x' s' st') :
    ∃ k, n < k ∧ Leads .beforeValue bound k (start x s) st (start x' s') st' := by
  induction n generalizing x s st with
  | zero =>
    cases h with
    | next h hr => cases hr; exact ⟨_, Nat.succ_pos _, h⟩
  | succ n ih =>
    cases h with
    | next h hr =>
      obtain ⟨j, hj, hl⟩ := ih hr
      exact ⟨_, by omega, h.trans hl⟩

end Course

namespace Engine

open Course (Leads Outgrows TailCalls SparesBareSequence)

variable {x x' : Value} {s s' : ScopeRef} {st st₁ : Store} {d k : Nat}

/-- What comes before a tail call does not count towards the depth. -/
theorem classic_ends_iff_of_leads
    (hl : Leads .beforeValue d k (.start x s) st (.start x' s') st₁) (n : Nat)
    (r : Except Failure Value) (st' : Store) :
    Ends (.classic d n) x s st r st' ↔ Ends (.classic d n) x' s' st₁ r st' := by
  rw [classic_ends_iff, classic_ends_iff]
  constructor
  · rintro (⟨j, h⟩ | ⟨rfl, j, h⟩)
    · obtain ⟨i, -, hi⟩ := h.after hl
      exact .inl ⟨i, hi⟩
    · obtain ⟨i, -, hi⟩ := h.after hl
      exact .inr ⟨rfl, i, hi⟩
  · rintro (⟨j, h⟩ | ⟨rfl, j, h⟩)
    · exact .inl ⟨_, h.prepend hl⟩
    · exact .inr ⟨rfl, _, h.prepend hl⟩

theorem reaches_iff_of_leads
    (hb : (Course.start x s).SparesBareSequence .beforeValue d st)
    (hl : Leads .beforeValue d k (.start x s) st (.start x' s') st₁) (st' : Store) :
    (FrameStack.start x s).Reaches (d + 1) st st' ↔
      (FrameStack.start x' s').Reaches (d + 1) st₁ st' := by
  rw [FrameStack.reaches_iff_outgrows hb, FrameStack.reaches_iff_outgrows (hb.leads hl)]
  constructor
  · rintro ⟨j, h⟩
    obtain ⟨i, -, hi⟩ := h.after hl
    exact ⟨i, hi⟩
  · rintro ⟨j, h⟩
    exact ⟨_, h.prepend hl⟩

/-- Above the depth of the course the depth limit does not matter. -/
theorem classic_ends_iff_of_not_outgrows
    (hn : ¬ ∃ j st', (Course.start x s).Outgrows .beforeValue d j st st') {d' : Nat} (hd : d ≤ d')
    (n : Nat) (r : Except Failure Value) (st' : Store) :
    Ends (.classic d' n) x s st r st' ↔ Ends (.classic d n) x s st r st' := by
  have hd₁ : (Course.start x s).depth ≤ d := by
    by_contra h
    rw [Course.start_depth] at h
    have h0 : d = 0 := by omega
    exact hn ⟨0, st, .here (by rw [h0]; rfl)⟩
  rw [classic_ends_iff, classic_ends_iff]
  constructor
  · rintro (⟨j, h⟩ | ⟨rfl, j, h⟩)
    · exact .inl ⟨j, (h.bounded hd₁).resolve_right hn⟩
    · exact absurd (h.bounded hd hd₁) hn
  · rintro (⟨j, h⟩ | ⟨rfl, j, h⟩)
    · exact .inl ⟨j, h.mono hd⟩
    · exact absurd ⟨j, st', h⟩ hn

/-- Tail calls without end never end, and they keep the depth that each of them keeps. -/
theorem not_outgrows_of_tailCalls (h : ∀ k, ∃ x' s' st₁, TailCalls d k x s st x' s' st₁) :
    (¬ ∃ j st', (Course.start x s).Outgrows .beforeValue d j st st') ∧
      ∀ r st', ¬ Course.Ends .beforeValue d (.start x s) st r st' := by
  constructor
  · rintro ⟨j, st', ho⟩
    obtain ⟨x', s', st₁, ht⟩ := h (j + 1)
    obtain ⟨k, hk, hl⟩ := ht.leads
    obtain ⟨i, hi, -⟩ := ho.after hl
    omega
  · rintro r st' ⟨j, he⟩
    obtain ⟨x', s', st₁, ht⟩ := h (j + 1)
    obtain ⟨k, hk, hl⟩ := ht.leads
    obtain ⟨i, hi, -⟩ := he.after hl
    omega

theorem run_of_frame {fuel n n' depth₀ depth : Nat} {r : Except Failure Value} {st' : Store}
    (h : evaluate fuel x s (.frame n depth₀) st = some ((r, .frame n' depth), st')) :
    ∃ m, FrameStack.run fuel (.start x s) st = some ((r, m), st') ∧ m.maxDepth = depth := by
  rcases he : FrameStack.run fuel (.start x s) st with _ | ⟨⟨r', m⟩, st₁⟩
  · simp [evaluate, he] at h
  · simp [evaluate, he] at h
    obtain ⟨⟨rfl, -, hd⟩, rfl⟩ := h
    exact ⟨m, rfl, hd⟩

/-- The greatest number of frames in an evaluation is the least depth limit for it. -/
theorem depth_of_run {fuel : Nat} {r : Except Failure Value} {m : FrameStack} {st' : Store}
    (hb : (Course.start x s).SparesBareSequence .beforeValue d st)
    (h : FrameStack.run fuel (.start x s) st = some ((r, m), st')) :
    (m.maxDepth ≤ d → ∀ n, Ends (.classic d n) x s st r st') ∧
      (d < m.maxDepth → ∃ st₁, ∀ n, Ends (.classic d n) x s st (.error (.tooDeep d)) st₁) := by
  rcases d with _ | d
  · have hm : 1 ≤ m.maxDepth := FrameStack.maxDepth_le_run fuel h
    exact ⟨fun h => by omega, fun _ => ⟨st, fun n => classic_tooDeep_iff.mpr ⟨0, .here rfl⟩⟩⟩
  · have hd : 1 ≤ d + 1 := Nat.le_add_left 1 d
    have hs := FrameStack.start_represents x s st (hb 0 _ st (.refl hd))
    obtain ⟨hle, k, hk⟩ | ⟨hlt, st₁, h₁⟩ := FrameStack.maxDepth_run fuel hs hd hd hd hb h
    · exact ⟨fun _ n => classic_ends_iff.mpr (.inl ⟨k, hk⟩), fun h => by omega⟩
    · exact ⟨fun h => by omega, fun _ => ⟨st₁, fun n =>
        classic_tooDeep_iff.mpr ((FrameStack.reaches_iff_outgrows hb).mp h₁)⟩⟩

/-- The depth limit of the recursive engine is the number of frames of the resumable one. -/
theorem depth_limit_counts_frames
    (hb : (Course.start x s).SparesBareSequence .beforeValue d st) :
    (∀ n st', Ends (.classic d n) x s st (.error (.tooDeep d)) st' ↔
      (FrameStack.start x s).Reaches (d + 1) st st') ∧
    ((∀ k, (FrameStack.runFor k (.start x s) st).1.2.maxDepth ≤ d) →
      ∀ d' ≥ d, ∀ n r st', Ends (.classic d' n) x s st r st' ↔ Ends (.classic d n) x s st r st') ∧
    (∀ fuel n n' depth₀ depth r st',
      evaluate fuel x s (.frame n depth₀) st = some ((r, .frame n' depth), st') →
      (depth ≤ d → ∀ m, Ends (.classic d m) x s st r st') ∧
      (d < depth → ∃ st₁, ∀ m, Ends (.classic d m) x s st (.error (.tooDeep d)) st₁)) ∧
    (∀ k x' s' st₁, TailCalls d k x s st x' s' st₁ →
      (∀ n r st', Ends (.classic d n) x s st r st' ↔ Ends (.classic d n) x' s' st₁ r st') ∧
      ∀ st', (FrameStack.start x s).Reaches (d + 1) st st' ↔
        (FrameStack.start x' s').Reaches (d + 1) st₁ st') ∧
    ((∀ k, ∃ x' s' st₁, TailCalls d k x s st x' s' st₁) →
      (∀ n r st', ¬ Ends (.classic d n) x s st r st') ∧
      ∀ k, (FrameStack.runFor k (.start x s) st).1.2.maxDepth ≤ d) := by
  have hnone (hmax : ∀ k, (FrameStack.runFor k (.start x s) st).1.2.maxDepth ≤ d) :
      ¬ ∃ j st', (Course.start x s).Outgrows .beforeValue d j st st' := by
    rintro ⟨j, st', h⟩
    have hd : 1 ≤ d := hmax 0
    have hs := FrameStack.start_represents x s st (hb 0 _ st (.refl hd))
    obtain ⟨k, hk⟩ := FrameStack.maxDepth_of_reaches
      ((FrameStack.reaches_iff_outgrows hb).mpr ⟨j, h⟩) hs hd hd hd hb
    exact absurd (hmax k) (Nat.not_le.mpr hk)
  refine ⟨fun n st' => ?_, fun hmax d' hd n r st' => ?_, fun fuel n n' depth₀ depth r st' h => ?_,
    fun k x' s' st₁ h => ?_, fun h => ?_⟩
  · rw [classic_tooDeep_iff, FrameStack.reaches_iff_outgrows hb]
  · exact classic_ends_iff_of_not_outgrows (hnone hmax) hd n r st'
  · obtain ⟨m, hm, rfl⟩ := run_of_frame h
    exact depth_of_run hb hm
  · rcases k with _ | k
    · cases h
      exact ⟨fun _ _ _ => Iff.rfl, fun _ => Iff.rfl⟩
    · obtain ⟨j, -, hl⟩ := h.leads
      exact ⟨classic_ends_iff_of_leads hl, reaches_iff_of_leads hb hl⟩
  · obtain ⟨hno, hne⟩ := not_outgrows_of_tailCalls h
    refine ⟨fun n r st' he => ?_, fun k => ?_⟩
    · rcases classic_ends_iff.mp he with he | ⟨-, j, ho⟩
      · exact hne r st' he
      · exact hno ⟨j, st', ho⟩
    · obtain ⟨x', s', st₁, ht⟩ := h 1
      obtain ⟨j, -, hl⟩ := ht.leads
      have hd : 1 ≤ d := hl.depth_le
      have hs := FrameStack.start_represents x s st (hb 0 _ st (.refl hd))
      refine (FrameStack.maxDepth_runFor k hs hd hd hd hb).resolve_right ?_
      rintro ⟨st', hr⟩
      obtain ⟨j, ho⟩ := (FrameStack.reaches_iff_outgrows hb).mp hr
      exact hno ⟨j, st', ho⟩

/-- The list `(begin "a" x)` needs two levels, and its last form stands in a tail position. -/
theorem depth_limit_counts_frames_on_sequence :
    (FrameStack.start (.list ⟨0⟩) ⟨0⟩).Reaches 2 sequenceStore sequenceStore ∧
      Ends (.classic 1 0) (.list ⟨0⟩) ⟨0⟩ sequenceStore (.error (.tooDeep 1)) sequenceStore ∧
      (∀ n, Ends (.classic 2 n) (.list ⟨0⟩) ⟨0⟩ sequenceStore (.ok (.text "b")) sequenceStore) ∧
      ∀ n, Ends (.classic 2 n) (.symbol "x") ⟨0⟩ sequenceStore (.ok (.text "b")) sequenceStore := by
  have hb : (Course.start (.list ⟨0⟩) ⟨0⟩).AvoidsBareSequence .beforeValue sequenceStore :=
    Course.avoids_of_spares (by decide : Course.sparesBareSequence .beforeValue 5 _ _ = true)
  have h₁ := depth_limit_counts_frames (hb.spares 1)
  have hc : Ends (.classic 1 0) (.list ⟨0⟩) ⟨0⟩ sequenceStore (.error (.tooDeep 1)) sequenceStore :=
    ⟨2, .classic 1 1, rfl⟩
  obtain ⟨-, -, hframe, htail, -⟩ := depth_limit_counts_frames (hb.spares 2)
  have he : evaluate 4 (.list ⟨0⟩) ⟨0⟩ (.frame 0 1) sequenceStore =
      some ((.ok (.text "b"), .frame 7 2), sequenceStore) := by cbv
  have h₂ := (hframe 4 0 7 1 2 _ _ he).1 (Nat.le_refl 2)
  have ht : TailCalls 2 1 (.list ⟨0⟩) ⟨0⟩ sequenceStore (.symbol "x") ⟨0⟩ sequenceStore :=
    .next (.head (Nat.le_succ 1) rfl rfl (.head (Nat.le_refl 2) rfl rfl
      (.head (Nat.le_refl 2) rfl rfl (.refl (Nat.le_succ 1))))) .none
  exact ⟨(h₁.1 0 _).mp hc, hc, h₂, fun n => ((htail 1 _ _ _ ht).1 n _ _).mp (h₂ n)⟩

end Engine

end LispEngines
