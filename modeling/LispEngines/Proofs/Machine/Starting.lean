import LispEngines.Proofs.Machine.Apart
import LispEngines.Proofs.Machine.Running

/-!
# Machines that are started

A machine is started with a program and with its arguments on the stack.  It refers to what they
refer to (`within_start`), and in paired stores machines are started alike (`start_rename`) and run
alike to the end (`follows_run`).  The evaluator refers to nothing but an empty list of its own, so
it is the same program wherever this list keeps its address.
-/

namespace LispEngines.Machine

variable {L : Link} {ρ : Renaming} {base own st st' : Store} {m m' : Machine} {p : Program}
  {args : List Value} {size : Nat}

theorem within_push {v : Value} (hm : m.Within st) (hv : v.Within false st)
    (h : push v m st = ((.ok (), m'), st')) :
    m'.Within st ∧ m'.finished = m.finished ∧ st' = st := by
  rw [push, Step.get_bind] at h
  cases hsp : m.sp with
  | zero =>
    rw [hsp] at h
    cases h
  | succ sp =>
    rw [hsp] at h
    dsimp only at h
    rw [Step.modify_bind, setSlot, Step.get_bind] at h
    split at h
    · cases h
      refine ⟨⟨hm.data, fun w hw => ?_, hm.a⟩, rfl, rfl⟩
      rcases Array.mem_or_eq_of_mem_setIfInBounds hw with hw | rfl
      · exact hm.stack w hw
      · exact hv
    · cases h

theorem within_pushes (hm : m.Within st) (ha : ∀ v ∈ args, v.Within false st)
    (h : args.forM push m st = ((.ok (), m'), st')) :
    m'.Within st ∧ m'.finished = m.finished ∧ st' = st := by
  induction args generalizing m with
  | nil =>
    cases h
    exact ⟨hm, rfl, rfl⟩
  | cons v args ih =>
    rw [List.forM_eq_forM, List.forM_cons] at h
    rcases hp : push v m st with ⟨⟨e | u, m₁⟩, st₁⟩
    · rw [Step.bind_error hp] at h
      cases h
    · rw [Step.bind_ok hp] at h
      obtain ⟨hm₁, hf, rfl⟩ := within_push hm (ha v (List.mem_cons_self ..)) hp
      obtain ⟨hm', hf', hst⟩ := ih hm₁ (fun w hw => ha w (List.mem_cons_of_mem _ hw)) h
      exact ⟨hm', hf'.trans hf, hst⟩

/-- A machine that has been started runs, and refers to what its program and its arguments refer
to. -/
theorem within_start (hp : ∀ v ∈ p.data, v.Within false st) (ha : ∀ v ∈ args, v.Within false st)
    (h : start p args size st = (.ok m, st')) : m.Within st ∧ m.finished = false ∧ st' = st := by
  rw [start] at h
  split at h
  · cases h
  have hzero : (Value.number 0).Within false st := Value.within_of_none rfl rfl
  have hload : (load p size).Within st :=
    ⟨hp, fun v hv => by rw [Array.eq_of_mem_replicate hv]; exact hzero, hzero⟩
  rcases hx : args.forM push (load p size) st with ⟨⟨e | u, m₁⟩, st₁⟩ <;> rw [hx] at h <;> cases h
  exact within_pushes hload ha hx

theorem reads_pushes (h : Paired L.lone ρ st st') (hm : m.Within st)
    (ha : ∀ v ∈ args, v.Within false st) :
    Reads L ρ st st' Done (args.forM push) ((args.map (Value.rename ρ)).forM push) m := by
  induction args generalizing m with
  | nil => exact .pure h hm trivial
  | cons v args ih =>
    rw [List.forM_eq_forM] at ih ⊢
    rw [List.map_cons, List.forM_cons, List.forM_cons]
    exact (reads_push h hm (ha v (List.mem_cons_self ..))).bind fun hm₁ _ =>
      ih hm₁ fun w hw => ha w (List.mem_cons_of_mem _ hw)

/-- A machine starts in the second store as it does in the first one. -/
theorem start_rename (h : Paired L.lone ρ st st') (hp : ∀ v ∈ p.data, v.Within false st)
    (ha : ∀ v ∈ args, v.Within false st) :
    start (p.rename ρ) (args.map (Value.rename ρ)) size st' =
      ((start p args size st).1.map (rename ρ), st') ∧ (start p args size st).2 = st := by
  have hzero : (Value.number 0).Within false st := Value.within_of_none rfl rfl
  have hm : (load p size).Within st :=
    ⟨hp, fun v hv => by rw [Array.eq_of_mem_replicate hv]; exact hzero, hzero⟩
  have hload : load (p.rename ρ) size = (load p size).rename ρ := by
    rw [rename, load, load, Array.map_replicate]
    rfl
  have hpushes := reads_pushes h hm ha
  unfold Reads at hpushes
  rw [start, start]
  split
  · exact ⟨rfl, rfl⟩
  · rw [hload]
    generalize args.forM push (load p size) st = out at hpushes ⊢
    generalize (args.map (Value.rename ρ)).forM push ((load p size).rename ρ) st' = out'
      at hpushes ⊢
    cases hpushes with
    | ok _ hx ht =>
      obtain ⟨rfl, rfl, rfl⟩ := hx
      exact ⟨by rw [ht.2]; rfl, rfl⟩
    | error _ hx =>
      obtain ⟨rfl, rfl, rfl⟩ := hx
      exact ⟨rfl, rfl⟩

/-- In paired stores, a machine and the renamed machine come to the same end. -/
theorem follows_run (fuel : Nat) (h : Paired L.lone ρ st st') (hm : m.Within st) :
    Option.Rel (Step.Matched L.lone (Moves ρ st st') StandsFor (Value.StandsFor L.lone))
      (run fuel m st) (run fuel (m.rename ρ) st') := by
  induction fuel generalizing ρ st st' m with
  | zero => exact .none
  | succ fuel ih =>
    rcases hf : m.finished with _ | _
    · rw [run_step fuel hf, run_step fuel (m := m.rename ρ) hf]
      have hstep := follows_step h hm
      unfold Follows at hstep
      generalize step m st = out at hstep ⊢
      generalize step (m.rename ρ) st' = out' at hstep ⊢
      cases hstep with
      | error hp hx ht => exact .some (.error hp hx ht)
      | @ok ρ₁ st₁ st₁' m₁ _ _ _ hp hx ht _ =>
        obtain ⟨hm₁, rfl⟩ := ht
        have hrest := ih hp hm₁
        show Option.Rel _ (run fuel m₁ st₁) (run fuel (m₁.rename ρ₁) st₁')
        generalize run fuel m₁ st₁ = out at hrest ⊢
        generalize run fuel (m₁.rename ρ₁) st₁' = out' at hrest ⊢
        cases hrest with
        | none => exact .none
        | some hrest => exact .some (hrest.imp hx.trans)
    · rw [run_finished fuel hf, run_finished fuel (m := m.rename ρ) hf]
      exact .some (.ok h (.refl ρ st st') ⟨hm, rfl⟩ ⟨hm.a, rfl⟩)

/-- The constants of the evaluator refer to nothing but its empty list. -/
theorem Evaluator.list_or_atomic {empty : ListRef} {v : Value}
    (hv : v ∈ (Evaluator.program empty).data) :
    v = .list empty ∨ v.list? = none ∧ v.scope? = none := by
  have hc : ∀ v ∈ Evaluator.constants empty,
      v = .list empty ∨ v.list? = none ∧ v.scope? = none := by
    simp [Value.list?, Value.scope?, Value.ofBool]
  exact hc v (List.mem_toArray.mp hv)

theorem Evaluator.Serves.data_within (h : Evaluator.Serves p st) :
    ∀ v ∈ p.data, v.Within false st := by
  obtain ⟨empty, rfl, hl, -⟩ := h.program
  intro v hv
  rcases Evaluator.list_or_atomic hv with rfl | ⟨hlist, hscope⟩
  · exact Value.within_list hl
  · exact Value.within_of_none hlist hscope

/-- Where the constants keep their addresses the evaluator stays the same. -/
theorem Evaluator.Serves.rename_eq (h : Serves p base)
    (hρ : ∀ r : ListRef, r.index < base.lists.size → ρ.list r = r) : p.rename ρ = p := by
  obtain ⟨empty, rfl, hl, -⟩ := h.program
  have hdata : (Evaluator.program empty).data.map (Value.rename ρ) =
      (Evaluator.program empty).data.map id := by
    refine Array.map_congr_left fun v hv => ?_
    rcases Evaluator.list_or_atomic hv with rfl | ⟨hlist, hscope⟩
    · exact congrArg Value.list (hρ empty hl)
    · have hself : Value.StandsFor .apart ρ base v v := Value.standsFor_self hlist hscope
      exact hself.2.symm
  rw [Program.rename, hdata, Array.map_id]

/-- A store that has grown still has the empty list of the evaluator. -/
theorem Evaluator.Serves.mono (h : Serves p base) (hg : base.Grows own) :
    Serves p own := by
  obtain ⟨st₀, ha, hl, hi⟩ := h
  exact ⟨st₀, ha, Nat.lt_of_lt_of_le hl hg.lists.size_le, (hg.lists.items_eq _ hl).trans hi⟩

end LispEngines.Machine
