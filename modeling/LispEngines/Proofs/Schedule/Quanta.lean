import LispEngines.Proofs.Frame.Invariant
import LispEngines.Proofs.Machine.Code
import LispEngines.Schedule.Scheduler

/-!
# A run cut into quanta

The resumable engine and the machine stop after a number of steps and go on later.  For both of
them, stopping makes no difference: a run that is cut into quanta takes the steps that it takes
in one piece, up to the step that ends it, which may be the last one of a quantum.

* `Step.Advances`, `Step.Ends`: the engine makes some steps; it makes its last one.
* `Step.upTo`: a quantum.  `Step.sliced_upTo`: what a quantum does.
* `Task.Ends`: a task runs alone and in one piece.
* `Task.Worked`: a task was worked on for some quanta, and goes on.
* `Task.ends_of_worked`: when a quantum ends a task, the task in one piece ends so too, after
  that number of steps which the number of quanta tells.
-/

namespace LispEngines

namespace Step

variable {σ : Type}

/-- An engine that is not done makes a number of steps that succeed. -/
inductive Advances (done : σ → Bool) (step : Step σ Unit) : Nat → σ → Store → σ → Store → Prop
  | refl {s : σ} {st : Store} : Advances done step 0 s st s st
  | head {n : Nat} {s s₁ s' : σ} {st st₁ st' : Store} (hd : done s = false)
      (hs : step s st = ((.ok (), s₁), st₁)) (h : Advances done step n s₁ st₁ s' st') :
      Advances done step (n + 1) s st s' st'

/-- An engine comes to its end after so many steps, the one that fails included. -/
inductive Ends (done : σ → Bool) (step : Step σ Unit) (s : σ) (st : Store) :
    Nat → Except Failure Unit → σ → Store → Prop
  | done {n : Nat} {s' : σ} {st' : Store} (h : Advances done step n s st s' st')
      (hd : done s' = true) : Ends done step s st n (.ok ()) s' st'
  | fails {n : Nat} {e : Failure} {s₁ s' : σ} {st₁ st' : Store}
      (h : Advances done step n s st s₁ st₁) (hd : done s₁ = false)
      (hs : step s₁ st₁ = ((.error e, s'), st')) : Ends done step s st (n + 1) (.error e) s' st'

/-- At most `budget` steps of an engine; whether it is done. -/
def upTo (done : σ → Bool) (step : Step σ Unit) : (budget : Nat) → Step σ Bool
  | 0 => return done (← get)
  | budget + 1 => do
    if done (← get) then pure true
    else
      step
      upTo done step budget

variable {done : σ → Bool} {step : Step σ Unit} {s s₁ s' : σ} {st st₁ st' : Store} {k n : Nat}
  {r : Except Failure Unit}

theorem Advances.trans (h : Advances done step k s st s₁ st₁)
    (h' : Advances done step n s₁ st₁ s' st') : Advances done step (k + n) s st s' st' := by
  induction h with
  | refl => rwa [Nat.zero_add]
  | head hd hs _ ih =>
    rw [Nat.add_right_comm]
    exact .head hd hs (ih h')

theorem Ends.prepend (h : Advances done step k s st s₁ st₁)
    (h' : Ends done step s₁ st₁ n r s' st') : Ends done step s st (k + n) r s' st' := by
  cases h' with
  | done h' hd => exact .done (h.trans h') hd
  | fails h' hd hs => exact .fails (h.trans h') hd hs

/-- An engine that is not done yet makes a step before it ends. -/
theorem Ends.pos (h : Ends done step s st n r s' st') (hd : done s = false) : 0 < n := by
  cases h with
  | done h hd' =>
    cases h with
    | refl => cases hd.symm.trans hd'
    | head => exact Nat.succ_pos _
  | fails => exact Nat.succ_pos _

/-- What a quantum comes to: all its steps are made and the engine is not done, or the engine
has ended within it. -/
inductive Sliced (done : σ → Bool) (step : Step σ Unit) (budget : Nat) (s : σ) (st : Store) :
    (Except Failure Bool × σ) × Store → Prop
  | goesOn {s' : σ} {st' : Store} (h : Advances done step budget s st s' st')
      (hd : done s' = false) : Sliced done step budget s st ((.ok false, s'), st')
  | ends {n : Nat} {r : Except Failure Unit} {s' : σ} {st' : Store} (hn : n ≤ budget)
      (h : Ends done step s st n r s' st') :
      Sliced done step budget s st ((r.map fun _ => true, s'), st')

theorem sliced_upTo (done : σ → Bool) (step : Step σ Unit) (budget : Nat) (s : σ) (st : Store) :
    Sliced done step budget s st (upTo done step budget s st) := by
  have hdone : ∀ {k : Nat} {s : σ} {st : Store}, done s = true →
      Sliced done step k s st ((.ok true, s), st) := fun hd =>
    .ends (Nat.zero_le _) (.done .refl hd)
  induction budget generalizing s st with
  | zero =>
    show Sliced done step 0 s st ((.ok (done s), s), st)
    cases hd : done s with
    | true => exact hdone hd
    | false => exact .goesOn .refl hd
  | succ budget ih =>
    rw [upTo, get_bind]
    cases hd : done s with
    | true => exact hdone hd
    | false =>
      rw [if_neg Bool.false_ne_true]
      rcases hs : step s st with ⟨⟨e | u, s₁⟩, st₁⟩
      · rw [bind_error hs]
        exact .ends (Nat.succ_le_succ (Nat.zero_le budget)) (.fails .refl hd hs)
      · rw [bind_ok hs]
        have hstep : Advances done step 1 s st s₁ st₁ := .head hd hs .refl
        have hrest := ih s₁ st₁
        generalize upTo done step budget s₁ st₁ = out at hrest
        cases hrest with
        | goesOn h hd' => exact .goesOn (.head hd hs h) hd'
        | ends hn h =>
          have hend := h.prepend hstep
          exact .ends (by omega) hend

/-- The quanta before the last one are used up, and the last one is not empty. -/
theorem quanta_eq {q : Nat} (hpos : 0 < n) (hn : n ≤ q) :
    k + 1 = max 1 ((k * q + n + q - 1) / q) := by
  have hceil : (k * q + n + q - 1) / q = k + 1 := by
    refine Nat.div_eq_of_lt_le ?_ ?_ <;> simp only [Nat.add_mul, Nat.one_mul] <;> omega
  rw [hceil]
  omega

end Step

/-! ## The two engines -/

namespace FrameStack

variable {m m' : FrameStack} {st st' : Store} {n : Nat} {r : Except Failure Unit} {v : Value}

theorem runFor_eq_upTo (budget : Nat) : runFor budget = Step.upTo isDone step budget := by
  induction budget with
  | zero => rfl
  | succ budget ih =>
    rw [runFor, Step.upTo, ih]

theorem run_of_advances {m₁ : FrameStack} {st₁ : Store}
    (h : Step.Advances isDone step n m st m₁ st₁) (fuel : Nat) :
    run (fuel + n) m st = run fuel m₁ st₁ := by
  induction h with
  | refl => rfl
  | head hd hs _ ih =>
    rw [← Nat.add_assoc, run_step hd, hs]
    exact ih

/-- Steps leave the frames in order. -/
theorem sound_advances (h : Step.Advances isDone step n m st m' st') :
    m.Sound false st → m.Rests → m'.Sound false st' ∧ m'.Rests := by
  induction h with
  | refl => exact fun hm hr => ⟨hm, hr⟩
  | head _ hs _ ih =>
    intro hm hr
    obtain ⟨hm₁, hr₁⟩ := (gives_step hm hr).of_ok hs
    exact ih hm₁ hr₁

/-- A stack that rests and is done has left its result. -/
theorem Rests.result (hr : m.Rests) (hd : m.isDone = true) :
    ∃ v, m.top.result = some v ∧ (Task.frame m).value? = some v := by
  have he : m.Ended := by
    rcases hr with ⟨hs, -, -⟩ | ⟨hs, -, -⟩ | he
    · rw [isDone, Frame.isDone, hs, Bool.and_eq_true] at hd
      cases hd.2
    · rw [isDone, Frame.isDone, hs, Bool.and_eq_true] at hd
      cases hd.2
    · exact he
  obtain ⟨v, hv⟩ := Option.isSome_iff_exists.mp he.result
  have hroot : m.root = m.top := by rw [root, he.below]; rfl
  refine ⟨v, hv, ?_⟩
  rw [Task.value?, if_pos hd, hroot, hv]

/-- A stack that comes to its end does so in a run. -/
theorem run_of_ends (h : Step.Ends isDone step m st n r m' st')
    (hv : r = .ok () → m'.top.result = some v) :
    ∃ fuel, run fuel m st = some ((r.map fun _ => v, m'), st') := by
  cases h with
  | done h hd => exact ⟨_, (run_of_advances h 1).trans (run_done hd (hv rfl))⟩
  | fails h hd hs =>
    refine ⟨_, (run_of_advances h 1).trans ?_⟩
    rw [run_step hd, hs]
    rfl

end FrameStack

namespace Machine

variable {m m' : Machine} {st st' : Store} {n : Nat} {r : Except Failure Unit}

theorem runFor_eq_upTo (budget : Nat) : runFor budget = Step.upTo finished step budget := by
  induction budget with
  | zero => rfl
  | succ budget ih =>
    rw [runFor, Step.upTo, ih]

theorem goes_of_advances {m₁ : Machine} {st₁ : Store}
    (h : Step.Advances finished step n m st m₁ st₁) : Goes n m st m₁ st₁ := by
  induction h with
  | refl => exact .refl
  | head hd hs _ ih => exact .head hd hs ih

/-- A machine that comes to its end does so in a run. -/
theorem run_of_ends (h : Step.Ends finished step m st n r m' st') :
    ∃ fuel, run fuel m st = some ((r.map fun _ => m'.a, m'), st') := by
  cases h with
  | done h hd => exact ⟨_, ((goes_of_advances h).run 1).trans (run_finished 0 hd)⟩
  | fails h hd hs =>
    refine ⟨_, ((goes_of_advances h).run 1).trans ?_⟩
    rw [run_step 0 hd, hs]
    rfl

end Machine

/-! ## Tasks -/

namespace Task

/-- A task runs alone and in one piece, and comes to its end after so many steps of its engine,
the one that fails included, with this result and this count.  The recursive engine does
everything in one step. -/
inductive Ends : Task → Store → (n : Nat) → Except Failure Value → (steps : Nat) → Store → Prop
  | classic {x : Value} {s : ScopeRef} {limit count fuel steps : Nat} {r : Except Failure Value}
      {st st' : Store} (h : Classic.evaluate limit fuel x s count st = some ((r, steps), st')) :
      Ends (.classic x s limit count none) st 1 r steps st'
  | frame {m m' : FrameStack} {st st' : Store} {n fuel : Nat} {u : Except Failure Unit}
      {r : Except Failure Value} (hn : Step.Ends FrameStack.isDone FrameStack.step m st n u m' st')
      (hr : FrameStack.run fuel m st = some ((r, m'), st')) :
      Ends (.frame m) st n r m'.steps st'
  | machine {m m' : Machine} {st st' : Store} {n fuel : Nat} {u : Except Failure Unit}
      {r : Except Failure Value} (hn : Step.Ends Machine.finished Machine.step m st n u m' st')
      (hr : Machine.run fuel m st = some ((r, m'), st')) :
      Ends (.machine m) st n (r.bind (Engine.outcome m')) m'.steps st'

/-- A task was worked on for a number of quanta, and none of them has ended it. -/
inductive Worked (q : Nat) (t : Task) (st : Store) : Nat → Task → Store → Prop
  | refl : Worked q t st 0 t st
  | quantum {k fuel : Nat} {t₁ t₂ : Task} {st₁ st₂ : Store} {r : Except Failure Unit}
      (h : Worked q t st k t₁ st₁) (hw : work fuel q t₁ st₁ = some ((r, t₂), st₂))
      (ho : Scheduler.outcome? t₂ r = none) : Worked q t st (k + 1) t₂ st₂

variable {q k fuel n count limit : Nat} {t t₁ t₂ : Task} {st st₁ st₂ : Store} {x : Value}
  {s : ScopeRef} {r : Except Failure Unit} {outcome : Outcome}

/-- How a task leaves the scheduler that comes to this result. -/
def outcomeOf : Except Failure Value → Outcome
  | .ok v => .completed v
  | .error e => .failed e

/-- The idle task does nothing. -/
theorem worked_idle (h : Worked q .idle st k t₁ st₁) : t₁ = .idle := by
  induction h with
  | refl => rfl
  | quantum _ hw _ ih =>
    subst ih
    cases hw
    rfl

/-- The recursive engine does not go on after a quantum. -/
theorem worked_classic (h : Worked q (.classic x s limit count none) st k t₁ st₁) :
    k = 0 ∧ t₁ = .classic x s limit count none ∧ st₁ = st := by
  induction h with
  | refl => exact ⟨rfl, rfl, rfl⟩
  | @quantum k fuel t₁ t₂ st₁ st₂ r _ hw ho ih =>
    obtain ⟨-, rfl, rfl⟩ := ih
    obtain ⟨⟨⟨r', steps⟩, st'⟩, -, hout⟩ := Option.bind_eq_some_iff.mp hw
    cases hout
    cases r' <;> cases ho

/-- What a quantum does to a task of the machine: it makes all its steps, or ends the task as a run
would. -/
theorem work_machine (q : Nat) (m : Machine) (st : Store) (fuel : Nat) :
    ∃ r m' st', work fuel q (.machine m) st = some ((r, .machine m'), st') ∧
      ((Scheduler.outcome? (.machine m') r = none ∧ m'.finished = false ∧
          Step.Advances Machine.finished Machine.step q m st m' st') ∨
        ∃ n ≤ q, ∃ u, Step.Ends Machine.finished Machine.step m st n u m' st' ∧
          Scheduler.outcome? (.machine m') r =
            some (outcomeOf ((u.map fun _ => m'.a).bind (Engine.outcome m')))) := by
  have hs := Step.sliced_upTo Machine.finished Machine.step q m st
  rw [← Machine.runFor_eq_upTo] at hs
  unfold work
  dsimp only
  generalize Machine.runFor q m st = out at hs
  cases hs with
  | @goesOn m' st' h hd =>
    refine ⟨_, m', st', rfl, .inl ⟨?_, hd, h⟩⟩
    show (if m'.finished then some m'.a else none).map Outcome.completed = none
    rw [hd]
    rfl
  | @ends n u m' st' hn h =>
    refine ⟨_, m', st', rfl, .inr ⟨n, hn, u, h, ?_⟩⟩
    cases h with
    | fails => rfl
    | done _ hd =>
      show Scheduler.outcome? (.machine m') (verdict m' true) =
        some (outcomeOf (Engine.outcome m' m'.a))
      unfold verdict Engine.outcome
      cases m'.haltMessage with
      | some message => rfl
      | none =>
        show (if m'.finished then some m'.a else none).map Outcome.completed = _
        rw [hd]
        rfl

theorem worked_machine {m : Machine} (hd : m.finished = false)
    (h : Worked q (.machine m) st k t₁ st₁) :
    ∃ m₁, t₁ = .machine m₁ ∧ m₁.finished = false ∧
      Step.Advances Machine.finished Machine.step (k * q) m st m₁ st₁ := by
  induction h with
  | refl => exact ⟨m, rfl, hd, (Nat.zero_mul q).symm ▸ .refl⟩
  | @quantum k fuel t₁ t₂ st₁ st₂ r _ hw ho ih =>
    obtain ⟨m₁, rfl, -, hadv⟩ := ih
    obtain ⟨r', m₂, st', hw', ⟨-, hd₂, hadv'⟩ | ⟨n, -, u, -, ho'⟩⟩ := work_machine q m₁ st₁ fuel
    · cases hw.symm.trans hw'
      rw [Nat.succ_mul]
      exact ⟨m₂, rfl, hd₂, hadv.trans hadv'⟩
    · cases hw.symm.trans hw'
      cases ho.symm.trans ho'

/-- What a quantum does to a task of the resumable engine. -/
theorem work_frame (hq : q < 2 ^ 32) {m : FrameStack} {st : Store} (hm : m.Sound false st)
    (hr : m.Rests) (fuel : Nat) :
    ∃ r m' st', work fuel q (.frame m) st = some ((r, .frame m'), st') ∧
      ((Scheduler.outcome? (.frame m') r = none ∧ m'.isDone = false ∧
          Step.Advances FrameStack.isDone FrameStack.step q m st m' st') ∨
        ∃ n ≤ q, ∃ u v, Step.Ends FrameStack.isDone FrameStack.step m st n u m' st' ∧
          (u = .ok () → m'.top.result = some v) ∧
          Scheduler.outcome? (.frame m') r = some (outcomeOf (u.map fun _ => v))) := by
  have hb : min q maxFrameSteps = q := by
    rw [maxFrameSteps]
    omega
  have hs := Step.sliced_upTo FrameStack.isDone FrameStack.step q m st
  rw [← FrameStack.runFor_eq_upTo] at hs
  unfold work
  dsimp only
  rw [hb]
  generalize FrameStack.runFor q m st = out at hs
  cases hs with
  | @goesOn m' st' h hd =>
    refine ⟨_, m', st', rfl, .inl ⟨?_, hd, h⟩⟩
    show (if m'.isDone then m'.root.result else none).map Outcome.completed = none
    rw [hd]
    rfl
  | @ends n u m' st' hn h =>
    cases h with
    | fails h hd hs =>
      exact ⟨_, m', st', rfl, .inr ⟨_, hn, _, .number 0, .fails h hd hs, nofun, rfl⟩⟩
    | done h hd =>
      obtain ⟨hm', hr'⟩ := FrameStack.sound_advances h hm hr
      obtain ⟨v, hv, hvalue⟩ := hr'.result hd
      refine ⟨_, m', st', rfl, .inr ⟨_, hn, _, v, .done h hd, fun _ => hv, ?_⟩⟩
      exact congrArg (Option.map Outcome.completed) hvalue

theorem worked_frame (hq : q < 2 ^ 32) {m : FrameStack} (hm : m.Sound false st) (hr : m.Rests)
    (hd : m.isDone = false) (h : Worked q (.frame m) st k t₁ st₁) :
    ∃ m₁, t₁ = .frame m₁ ∧ m₁.isDone = false ∧ m₁.Sound false st₁ ∧ m₁.Rests ∧
      Step.Advances FrameStack.isDone FrameStack.step (k * q) m st m₁ st₁ := by
  induction h with
  | refl => exact ⟨m, rfl, hd, hm, hr, (Nat.zero_mul q).symm ▸ .refl⟩
  | @quantum k fuel t₁ t₂ st₁ st₂ r _ hw ho ih =>
    obtain ⟨m₁, rfl, -, hm₁, hr₁, hadv⟩ := ih
    obtain ⟨r', m₂, st', hw', ⟨-, hd₂, hadv'⟩ | ⟨n, -, u, v, -, -, ho'⟩⟩ :=
      work_frame hq hm₁ hr₁ fuel
    · cases hw.symm.trans hw'
      rw [Nat.succ_mul]
      obtain ⟨hm₂, hr₂⟩ := FrameStack.sound_advances hadv' hm₁ hr₁
      exact ⟨m₂, rfl, hd₂, hm₂, hr₂, hadv.trans hadv'⟩
    · cases hw.symm.trans hw'
      cases ho.symm.trans ho'

/-- The frames of a task are in order. -/
def Rests (st : Store) : Task → Prop
  | .frame m => m.Sound false st ∧ m.Rests
  | _ => True

/-- They are in order after a quantum as well, unless it fails. -/
theorem rests_of_work (ht : t.Rests st) (hw : work fuel q t st = some ((r, t₁), st₁))
    (ho : Scheduler.outcome? t₁ r = none) : t₁.Rests st₁ := by
  cases t with
  | idle | machine m =>
    cases hw
    trivial
  | classic x s limit count v =>
    cases v with
    | some v =>
      cases hw
      trivial
    | none =>
      obtain ⟨out, -, hout⟩ := Option.bind_eq_some_iff.mp hw
      cases hout
      trivial
  | frame m =>
    have hs := Step.sliced_upTo FrameStack.isDone FrameStack.step (min q maxFrameSteps) m st
    rw [← FrameStack.runFor_eq_upTo] at hs
    unfold work at hw
    dsimp only at hw
    generalize FrameStack.runFor (min q maxFrameSteps) m st = out at hs hw
    cases hs with
    | goesOn h =>
      cases hw
      exact FrameStack.sound_advances h ht.1 ht.2
    | ends _ h =>
      cases hw
      cases h with
      | done h => exact FrameStack.sound_advances h ht.1 ht.2
      | fails => cases ho

/-- **Cutting a run into quanta changes nothing.**  A task that was worked on for some quanta and
is ended by one more comes to the same end in one piece, with the same count and the same store;
and the number of quanta follows from the number of steps. -/
theorem ends_of_worked (hpos : 1 ≤ q) (hq : q < 2 ^ 32) (hr : t.Rests st) (hv : t.value? = none)
    (h : Worked q t st k t₁ st₁) (hw : work fuel q t₁ st₁ = some ((r, t₂), st₂))
    (ho : Scheduler.outcome? t₂ r = some outcome) :
    ∃ n result, t.Ends st n result t₂.steps st₂ ∧ outcome = outcomeOf result ∧
      k + 1 = max 1 ((n + q - 1) / q) := by
  cases t with
  | idle =>
    obtain rfl := worked_idle h
    cases hw
    cases ho
  | classic x s limit count value =>
    obtain rfl : value = none := hv
    obtain ⟨rfl, rfl, rfl⟩ := worked_classic h
    obtain ⟨⟨⟨r', steps⟩, st'⟩, he, hout⟩ := Option.bind_eq_some_iff.mp hw
    cases hout
    refine ⟨1, r', .classic he, ?_, ?_⟩
    · cases r' <;> exact (Option.some.inj ho).symm
    · rw [Nat.add_sub_cancel_left, Nat.div_self hpos]
      rfl
  | machine m =>
    have hd : m.finished = false := by
      cases hd : m.finished with
      | false => rfl
      | true => simp [value?, hd] at hv
    obtain ⟨m₁, rfl, hd₁, hadv⟩ := worked_machine hd h
    obtain ⟨r', m', st', hw', ⟨ho', -⟩ | ⟨n, hn, u, he, ho'⟩⟩ := work_machine q m₁ st₁ fuel
    · cases hw.symm.trans hw'
      cases ho.symm.trans ho'
    cases hw.symm.trans hw'
    have hends := he.prepend hadv
    obtain ⟨fuel', hrun⟩ := Machine.run_of_ends hends
    exact ⟨_, _, .machine hends hrun, Option.some.inj (ho.symm.trans ho'),
      Step.quanta_eq (he.pos hd₁) hn⟩
  | frame m =>
    obtain ⟨hm, hrest⟩ := hr
    have hd : m.isDone = false := by
      by_contra hd
      obtain ⟨v, -, hvalue⟩ := hrest.result (Bool.not_eq_false _ ▸ hd)
      cases hv.symm.trans hvalue
    obtain ⟨m₁, rfl, hd₁, hm₁, hr₁, hadv⟩ := worked_frame hq hm hrest hd h
    obtain ⟨r', m', st', hw', ⟨ho', -⟩ | ⟨n, hn, u, v, he, hres, ho'⟩⟩ := work_frame hq hm₁ hr₁ fuel
    · cases hw.symm.trans hw'
      cases ho.symm.trans ho'
    cases hw.symm.trans hw'
    have hends := he.prepend hadv
    obtain ⟨fuel', hrun⟩ := FrameStack.run_of_ends hends hres
    exact ⟨_, _, .frame hends hrun, Option.some.inj (ho.symm.trans ho'),
      Step.quanta_eq (he.pos hd₁) hn⟩

end Task

end LispEngines
