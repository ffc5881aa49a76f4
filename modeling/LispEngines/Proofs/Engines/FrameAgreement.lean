import LispEngines.Proofs.Engines.Ends
import LispEngines.Proofs.Frame.Represents

/-!
# The resumable engine agrees with the recursive one

Both engines follow the course of an evaluation, so where the course ends both end, with
the same result and the same store; no address differs.  This holds in every store and for
every expression, as long as the course avoids sequences without forms: on these a frame
gives the value of an earlier sequence.
-/

namespace LispEngines

namespace FrameStack

open Course (EndsIn AvoidsBareSequence)

variable {m m' : FrameStack} {st st' : Store} {rank : Nat} {c : Course}
  {r : Except Failure Value}

/-- No step of the stack makes it deeper than it was by more than one, so there is a bound that
one step keeps. -/
theorem step_follows (hd : m.isDone = false) (hc : Represents m st rank c)
    (hn : AvoidsBareSequence .beforeValue c st) :
    ∃ bound, Keeps bound c st rank (step m st) ∧
      ((step m st).1.1 = .ok () → (step m st).1.2.depth ≤ bound) := by
  refine ⟨m.depth + m.maxDepth + c.depth + (step m st).1.2.depth, ?_, fun _ => Nat.le_add_left _ _⟩
  exact step_keeps hd hc (by omega) (by omega) (by omega) (hn.spares _)

/-- When the course ends, a run of the stack with fuel enough ends like it. -/
theorem run_of_endsIn {bound : Nat} : ∀ (fuel : Nat) {j rank : Nat} {m : FrameStack}
    {st : Store} {c : Course}, Represents m st rank c → AvoidsBareSequence .beforeValue c st →
    EndsIn .beforeValue bound [] j c st r st' → rank + 3 * j < fuel →
    ∃ m', run fuel m st = some ((r, m'), st') := by
  intro fuel
  induction fuel with
  | zero => intro j rank m st c _ _ _ hf; exact absurd hf (Nat.not_lt_zero _)
  | succ fuel ih =>
    intro j rank m st c hc hn he hf
    rcases hd : m.isDone with _ | _
    · obtain ⟨bound', hk, hb⟩ := step_follows hd hc hn
      rw [run_step hd]
      rcases hs : step m st with ⟨⟨e | _, m₁⟩, st₁⟩ <;> rw [hs] at hk hb
      · cases hk with
        | fails hl hv hs _ =>
          obtain ⟨j₁, rfl, hj⟩ := he.after hl
          obtain ⟨-, ⟨e', hs', rfl⟩ | ⟨_, _, _, _, hs', _⟩⟩ := hj.cases_head hv
          · cases hs.symm.trans hs'
            exact ⟨m₁, rfl⟩
          · cases hs.symm.trans hs'
      · cases hk with
        | goes hl hr₁ _ _ hle =>
          obtain ⟨j₁, rfl, hj⟩ := he.after hl
          exact ih hr₁ (hn.leads hl) hj (by omega)
        | outgrows _ hd _ => exact absurd (hb rfl) (by dsimp only; omega)
    · obtain ⟨v, rfl, hr⟩ := hc.of_isDone hd
      obtain ⟨rfl, rfl⟩ := he.of_value
      exact ⟨m, run_done hd hr⟩

/-- When a run of the stack ends, the course ends like it. -/
theorem endsIn_of_run : ∀ (fuel : Nat) {rank : Nat} {m : FrameStack} {st : Store} {c : Course},
    Represents m st rank c → AvoidsBareSequence .beforeValue c st →
    run fuel m st = some ((r, m'), st') → ∃ bound j, EndsIn .beforeValue bound [] j c st r st' := by
  intro fuel
  induction fuel with
  | zero => intro rank m st c _ _ h; cases h
  | succ fuel ih =>
    intro rank m st c hc hn h
    rcases hd : m.isDone with _ | _
    · obtain ⟨bound₁, hk, hb⟩ := step_follows hd hc hn
      rw [run_step hd] at h
      rcases hs : step m st with ⟨⟨e | _, m₁⟩, st₁⟩ <;> rw [hs] at hk hb h
      · cases h
        cases hk with
        | fails hl _ hs _ => exact ⟨bound₁, _, .failure hl hs⟩
      · cases hk with
        | @goes i _ _ _ _ hl hc₁ _ _ _ =>
          obtain ⟨bound₂, j, he⟩ := ih hc₁ (hn.leads hl) h
          exact ⟨max bound₁ bound₂, i + j, (he.mono (Nat.le_max_right _ _)).prepend
            (hl.mono (Nat.le_max_left _ _))⟩
        | outgrows _ hd _ => exact absurd (hb rfl) (by dsimp only; omega)
    · obtain ⟨v, rfl, hr⟩ := hc.of_isDone hd
      rw [run_done hd hr] at h
      cases h
      exact ⟨1, 0, .value (.refl (Nat.le_refl _))⟩

end FrameStack

namespace Engine

open Course (AvoidsBareSequence)

/-- The resumable engine and the recursive engine under a depth limit that it does not hit
come to the same end. -/
theorem frame_agrees_with_classic {x : Value} {s : ScopeRef} {st : Store}
    (hb : (Course.start x s).AvoidsBareSequence .beforeValue st) :
    (∀ limit n r st', Ends (.classic limit n) x s st r st' → r ≠ .error (.tooDeep limit) →
      ∀ n' depth, Ends (.frame n' depth) x s st r st') ∧
    (∀ n depth r st', Ends (.frame n depth) x s st r st' →
      ∃ least, ∀ limit ≥ least, ∀ n', Ends (.classic limit n') x s st r st') := by
  have hs := FrameStack.start_represents x s st (hb 1 0 _ st (.refl (Nat.le_refl 1)))
  constructor
  · intro limit n r st' h hr n' depth
    obtain ⟨k, hk⟩ := course_of_classic h hr
    obtain ⟨m, hm⟩ := FrameStack.run_of_endsIn (2 + 3 * k + 1) hs hb hk (Nat.lt_succ_self _)
    exact frame_ends_iff_run.mpr ⟨_, m, hm⟩
  · intro n depth r st' h
    obtain ⟨fuel, m, hm⟩ := frame_ends_iff_run.mp h
    obtain ⟨bound, k, hk⟩ := FrameStack.endsIn_of_run fuel hs hb hm
    exact ⟨bound, fun limit hl n' => classic_of_course ⟨k, hk⟩ hl⟩

/-- A store with the list `(begin "a" x)` and a scope in which `x` is bound. -/
def sequenceStore : Store where
  lists := #[[.symbol "begin", .text "a", .symbol "x"]]
  scopes := #[{ bindings := [("x", .text "b")] }]

/-- Both engines evaluate `(begin "a" x)` to the value of `x`. -/
theorem frame_agrees_with_classic_on_sequence :
    Ends (.classic 2 0) (.list ⟨0⟩) ⟨0⟩ sequenceStore (.ok (.text "b")) sequenceStore ∧
      Ends (.frame 0 1) (.list ⟨0⟩) ⟨0⟩ sequenceStore (.ok (.text "b")) sequenceStore := by
  have hc : Ends (.classic 2 0) (.list ⟨0⟩) ⟨0⟩ sequenceStore (.ok (.text "b")) sequenceStore :=
    ⟨3, .classic 2 3, rfl⟩
  have hb : (Course.start (.list ⟨0⟩) ⟨0⟩).AvoidsBareSequence .beforeValue sequenceStore :=
    Course.avoids_of_spares (by decide : Course.sparesBareSequence .beforeValue 5 _ _ = true)
  exact ⟨hc, (frame_agrees_with_classic hb).1 2 0 _ _ hc (by simp) 0 1⟩

end Engine

end LispEngines
