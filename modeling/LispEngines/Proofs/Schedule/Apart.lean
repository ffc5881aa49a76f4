import LispEngines.Proofs.Course.Apart
import LispEngines.Proofs.Frame.Apart
import LispEngines.Proofs.Machine.Apart
import LispEngines.Proofs.Schedule.Quanta

/-!
# Tasks on paired stores

In the second of two paired stores a renamed task does what the task does in the first one,
whichever engine it belongs to: a quantum changes nothing there but what stands for something
(`Task.follows_work`), and the task is over after it in the one store if it is over in the other
(`Task.outcome?_rename`).
-/

namespace LispEngines

variable {ρ ρ₁ : Renaming} {st st' st₁ st₁' : Store}

/-- The outcome in the other store. -/
def Outcome.rename (ρ : Renaming) : Outcome → Outcome
  | .completed v => .completed (v.rename ρ)
  | o => o

theorem FrameStack.root_rename (ρ : Renaming) (m : FrameStack) :
    (m.rename ρ).root = m.root.rename ρ := by
  show (m.below.map (Frame.rename ρ)).getLastD (m.top.rename ρ) = (m.below.getLastD m.top).rename ρ
  rcases m.below.eq_nil_or_concat' with hb | ⟨below, f, hb⟩ <;> rw [hb]
  · rfl
  · rw [List.map_append, List.map_singleton, List.getLastD_concat, List.getLastD_concat]

namespace Task

/-- The task in the other store. -/
def rename (ρ : Renaming) : Task → Task
  | .classic x s limit count v =>
    .classic (x.rename ρ) (ρ.scope s) limit count (v.map (Value.rename ρ))
  | .frame m => .frame (m.rename ρ)
  | .machine m => .machine (m.rename ρ)
  | .idle => .idle

/-- The task refers to nothing beyond the store. -/
def Within (st : Store) : Task → Prop
  | .classic x s _ _ v => x.Within false st ∧ s.index < st.scopes.size ∧
      ∀ w, v = some w → w.Within false st
  | .frame m => m.Within st
  | .machine m => m.Within st
  | .idle => True

/-- The second task stands for the first one. -/
def StandsFor (ρ : Renaming) (st : Store) (t t' : Task) : Prop :=
  t.Within st ∧ t' = t.rename ρ

/-- The program of a machine may extend lists that are there. -/
def isMachine : Task → Bool
  | .machine _ => true
  | _ => false

variable {t t' : Task} {r : Except Failure Unit}

@[simp] theorem kind_rename (ρ : Renaming) (t : Task) : (t.rename ρ).kind = t.kind := by
  cases t <;> rfl

@[simp] theorem steps_rename (ρ : Renaming) (t : Task) : (t.rename ρ).steps = t.steps := by
  cases t <;> rfl

@[simp] theorem isIdle_rename (ρ : Renaming) (t : Task) : (t.rename ρ).isIdle = t.isIdle := by
  cases t <;> rfl

theorem value?_rename (ρ : Renaming) (t : Task) :
    (t.rename ρ).value? = t.value?.map (Value.rename ρ) := by
  cases t with
  | classic | idle => rfl
  | machine m =>
    show (if m.finished then some (m.a.rename ρ) else none) = _
    rw [value?]
    cases m.finished <;> rfl
  | frame m =>
    rw [rename, value?, value?, FrameStack.rename_isDone, FrameStack.root_rename]
    cases m.isDone <;> rfl

/-- A task is over in both stores or in none. -/
theorem outcome?_rename (ρ : Renaming) (t : Task) (r : Except Failure Unit) :
    Scheduler.outcome? (t.rename ρ) r = (Scheduler.outcome? t r).map (Outcome.rename ρ) := by
  cases r with
  | error e => rfl
  | ok u =>
    rw [Scheduler.outcome?, Scheduler.outcome?, value?_rename, Option.map_map, Option.map_map]
    rfl

/-- What the task has ended with refers to nothing beyond the store either. -/
theorem within_value (ht : t.Within st) {v : Value} (hv : t.value? = some v) :
    v.Within false st := by
  cases t with
  | idle => cases hv
  | classic x s limit count w => exact ht.2.2 v hv
  | machine m =>
    rw [value?] at hv
    split at hv
    · exact Option.some.inj hv ▸ ht.a
    · cases hv
  | frame m =>
    rw [value?] at hv
    split at hv
    · have hroot : m.root.Within false st := by
        have hmem : m.root ∈ m.top :: m.below := List.getLastD_mem_cons
        rcases List.mem_cons.mp hmem with he | hmem
        · exact he ▸ ht.top
        · exact ht.below _ hmem
      exact hroot.result v (Option.mem_def.mpr hv)
    · cases hv

/-- A task goes on with the engine that it has. -/
theorem isMachine_of_work {fuel q : Nat} (hw : work fuel q t st = some ((r, t'), st')) :
    t'.isMachine = t.isMachine := by
  cases t with
  | classic x s limit count v =>
    cases v with
    | some v =>
      cases hw
      rfl
    | none =>
      obtain ⟨out, -, hout⟩ := Option.bind_eq_some_iff.mp hw
      cases hout
      rfl
  | frame m | machine m | idle =>
    cases hw
    rfl

theorem isMachine_of_worked {q k : Nat} (h : Worked q t st k t' st') :
    t'.isMachine = t.isMachine := by
  induction h with
  | refl => rfl
  | quantum _ hw _ ih => exact (isMachine_of_work hw).trans ih

/-- What a quantum may do to a pair of stores. -/
structure Leaves (t : Task) (ρ : Renaming) (st st' : Store) (ρ₁ : Renaming) (st₁ st₁' : Store) :
    Prop extends Moves ρ st st' ρ₁ st₁ st₁' where
  keeps : t.isMachine = false → st.KeepsLists st₁

theorem Leaves.of_extends (t : Task) (h : Extends .apart ρ st st' ρ₁ st₁ st₁') :
    t.Leaves ρ st st' ρ₁ st₁ st₁' :=
  ⟨h.toMoves, fun _ => h.grows.lists⟩

/-- In paired stores, a quantum of a task and of the renamed task are alike. -/
theorem follows_work (h : Paired .apart ρ st st') (ht : t.Within st) (hr : t.Rests st)
    (fuel budget : Nat) :
    Option.Rel (Step.Matched .apart (t.Leaves ρ st st') StandsFor fun _ _ _ _ => True)
      (work fuel budget t st) (work fuel budget (t.rename ρ) st') := by
  cases t with
  | idle => exact .some (.ok h ⟨.refl ρ st st', fun _ => .refl st⟩ ⟨trivial, rfl⟩ trivial)
  | classic x s limit count v =>
    cases v with
    | some v => exact .some (.ok h ⟨.refl ρ st st', fun _ => .refl st⟩ ⟨ht, rfl⟩ trivial)
    | none =>
      obtain ⟨hx, hs, -⟩ := ht
      have he := Classic.follows_evaluate limit fuel h (n := count) hx hs
      unfold Walk.Follows at he
      unfold work
      dsimp only [rename, Option.map_none]
      generalize Classic.evaluate limit fuel x s count st = out at he
      generalize Classic.evaluate limit fuel (x.rename ρ) (ρ.scope s) count st' = out' at he
      cases he with
      | none => exact .none
      | some he =>
        cases he with
        | ok hp hm ht hv =>
          obtain ⟨hv, rfl⟩ := hv
          obtain rfl := ht
          refine .some (.ok hp (.of_extends _ hm) ⟨⟨hx.mono hm.grows, ?_, ?_⟩, ?_⟩ trivial)
          · exact Nat.lt_of_lt_of_le hs hm.scopes_le
          · rintro w ⟨⟩
            exact hv
          · rw [rename, hm.agree.rename hx, hm.agree.scope s hs]
            rfl
        | error hp hm ht =>
          obtain rfl := ht
          refine .some (.error hp (.of_extends _ hm) ⟨⟨hx.mono hm.grows, ?_, nofun⟩, ?_⟩)
          · exact Nat.lt_of_lt_of_le hs hm.scopes_le
          · rw [rename, hm.agree.rename hx, hm.agree.scope s hs]
            rfl
  | frame m =>
    obtain ⟨hm, hrest⟩ := hr
    have hf := FrameStack.follows_runFor (min budget maxFrameSteps) h hm hrest
    unfold FrameStack.Repeats at hf
    unfold work
    dsimp only [rename]
    generalize FrameStack.runFor (min budget maxFrameSteps) m st = out at hf
    generalize FrameStack.runFor (min budget maxFrameSteps) (m.rename ρ) st' = out' at hf
    cases hf with
    | ok hp hx ht _ =>
      obtain ⟨ht, rfl⟩ := ht
      exact .some (.ok hp (.of_extends _ hx) ⟨ht, rfl⟩ trivial)
    | error hp hx ht =>
      obtain ⟨ht, rfl⟩ := ht
      exact .some (.error hp (.of_extends _ hx) ⟨ht, rfl⟩)
  | machine m =>
    have hf := Machine.follows_runFor (L := .apart) h ht budget
    unfold Machine.Follows at hf
    unfold work
    dsimp only [rename]
    generalize Machine.runFor budget m st = out at hf
    generalize Machine.runFor budget (m.rename ρ) st' = out' at hf
    cases hf with
    | @ok ρ₁ _ _ m₁ _ b b' hp hx ht hb =>
      obtain ⟨ht, rfl⟩ := ht
      obtain rfl : b = b' := hb.symm
      have hverdict : verdict (m₁.rename ρ₁) b = verdict m₁ b := rfl
      show Option.Rel _ (some ((verdict m₁ b, _), _)) (some ((verdict (m₁.rename ρ₁) b, _), _))
      rw [hverdict]
      rcases verdict m₁ b with e | u
      · exact .some (.error hp ⟨hx, nofun⟩ ⟨ht, rfl⟩)
      · exact .some (.ok hp ⟨hx, nofun⟩ ⟨ht, rfl⟩ trivial)
    | error hp hx ht =>
      obtain ⟨ht, rfl⟩ := ht
      exact .some (.error hp ⟨hx, nofun⟩ ⟨ht, rfl⟩)

end Task

end LispEngines
