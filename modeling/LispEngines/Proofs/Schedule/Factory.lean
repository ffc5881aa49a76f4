import LispEngines.Proofs.Reader.Allocation
import LispEngines.Proofs.Schedule.Tenants

/-!
# Tasks from a factory

`Task.ofForm` builds a form in a store, makes a standard scope beside it and leaves the rest to an
engine.  Done in a store where others live, it comes to the task that it would come to in a store
that holds nothing but the constants of programs, and this task has moved in, whichever engine is to
evaluate it (`Solo.movesIn_ofForm`).  So a hook that posts tasks from a factory only enqueues
(`HookWork.onlyEnqueues_postForm`).
-/

namespace LispEngines

open LispEngines.Action (always Follows)

variable {L : Link} {ρ : Renaming} {base st st' own : Store} {x : Value} {s : ScopeRef} {f : Form}
  {engine : Engine}

/-! ## An expression and its scope -/

/-- A form in a standard scope of its own. -/
def Form.placed (f : Form) : Action (Value × ScopeRef) :=
  always f.build >>= fun x => always Store.standardScope >>= fun s => pure (x, s)

/-- Nothing can go wrong with that. -/
theorem Form.placed_ok (f : Form) (st : Store) : ∃ x s own, f.placed st = (.ok (x, s), own) ∧
    ∀ engine, Task.ofForm engine f st = Task.ofEngine engine x s own :=
  ⟨_, _, _, rfl, fun _ => rfl⟩

theorem Form.follows_placed (f : Form) (h : Paired L ρ st st') :
    Follows L ρ st st'
      (fun ρ st (p q : Value × ScopeRef) => p.1.StandsFor L ρ st q.1 ∧ p.2.StandsFor ρ st q.2)
      f.placed f.placed := by
  refine (f.follows_build h).bind fun h₁ _ hx => ?_
  refine (Store.follows_standardScope h₁).bind fun h₂ hext hs => ?_
  obtain ⟨hx, rfl⟩ := hx
  exact .pure h₂ ⟨⟨hx.mono hext.grows, (hext.agree.rename hx).symm⟩, hs⟩

/-- It adds lists to the store and leaves those that are there alone. -/
theorem Form.keepsLists_placed (f : Form) (st : Store) : st.KeepsLists (f.placed st).2 := by
  have hscope : (always Store.standardScope).Plain := by
    rw [Store.always_standardScope]
    exact (Action.Plain.newScope none).bind fun s => Action.Plain.newNil.bind fun empty =>
      (Store.plain_defineAll s _).bind fun _ => .pure s
  exact (Reader.builds f st).adds.toKeepsLists.trans
    ((hscope.bind fun s => .pure (_, s)).keepsLists (f.build st).2)

/-- A tidy store stays tidy. -/
theorem Form.tidy_placed (hb : base.Tidy true) (h : f.placed base = (.ok (x, s), own)) :
    own.Tidy true ∧ x.Within true own ∧ s.index < own.scopes.size := by
  obtain ⟨ht, -, ρ, hx, hs⟩ := (f.follows_placed (.refl hb rfl)).tidy h
  exact ⟨ht, hx.1, hs.1⟩

/-! ## Moving in -/

/-- An engine makes the task that it would make alone. -/
theorem Task.ofEngine_rename (he : engine.Installed base)
    (hρ : ∀ r : ListRef, r.index < base.lists.size → ρ.list r = r) (hg : base.Grows own)
    (hp : Paired .apart ρ own st) (hx : x.Within false own) (hs : s.index < own.scopes.size)
    {t : Task} (h : ofEngine engine (x.rename ρ) (ρ.scope s) st = (.ok t, st')) :
    ∃ t₀, ofEngine engine x s own = (.ok t₀, own) ∧ t = t₀.rename ρ ∧ st' = st := by
  cases engine with
  | classic limit steps =>
    cases h
    exact ⟨_, rfl, rfl, rfl⟩
  | frame steps depth =>
    cases h
    exact ⟨_, rfl, rfl, rfl⟩
  | machine p size steps =>
    have ha : ∀ v ∈ [x, .scope s], v.Within false own := by
      intro v hv
      simp only [List.mem_cons, List.not_mem_nil, or_false] at hv
      rcases hv with rfl | rfl
      · exact hx
      · exact Value.within_scope hs
    have hdata : ∀ v ∈ p.data, v.Within false own := fun v hv => (he.1.data_within v hv).mono hg
    obtain ⟨hstart, hsame⟩ : Machine.start (p.rename ρ) [x.rename ρ, .scope (ρ.scope s)] size st =
        ((Machine.start p [x, .scope s] size own).1.map (Machine.rename ρ), st) ∧
          (Machine.start p [x, .scope s] size own).2 = own :=
      Machine.start_rename (L := .apart) hp hdata ha
    rw [he.1.rename_eq hρ] at hstart
    rcases hm : Machine.start p [x, .scope s] size own with ⟨e | m, own'⟩ <;>
      rw [hm] at hstart hsame
    · have hfails : ofEngine (.machine p size steps) (x.rename ρ) (ρ.scope s) st = (.error e, st) :=
        Action.bind_error hstart
      cases hfails.symm.trans h
    · have hmade : ofEngine (.machine p size steps) (x.rename ρ) (ρ.scope s) st =
          (.ok (.machine (m.rename ρ)), st) := Action.bind_ok hstart
      cases hmade.symm.trans h
      cases hsame
      exact ⟨.machine m, Action.bind_ok hm, rfl, rfl⟩

theorem Task.keepsLists_ofForm (he : engine.Installed base) {t : Task}
    (h : Task.ofForm engine f st = (.ok t, st')) : st.KeepsLists st' := by
  obtain ⟨x, s, own, hplaced, hmade⟩ := f.placed_ok st
  have hkeeps := f.keepsLists_placed st
  rw [hplaced] at hkeeps
  rw [hmade] at h
  cases engine with
  | classic | frame =>
    cases h
    exact hkeeps
  | machine p size steps =>
    obtain ⟨m, hm, -⟩ | ⟨-, hm⟩ := Machine.start_shows p [x, .scope s] he.2 own
    · have hdone : Task.ofEngine (.machine p size steps) x s own = (.ok (.machine m), own) :=
        Action.bind_ok hm
      cases hdone.symm.trans h
      exact hkeeps
    · have hfails : Task.ofEngine (.machine p size steps) x s own = (.error _, own) :=
        Action.bind_error hm
      cases hfails.symm.trans h

/-- What an engine makes of an expression is how a task begins. -/
theorem Solo.begins_ofEngine (he : engine.Installed base) (hg : base.Grows own)
    (ht : own.Tidy true) (hx : x.Within true own) (hs : s.index < own.scopes.size) {t : Task}
    (h : Task.ofEngine engine x s own = (.ok t, own)) : Solo.Begins ⟨own, t, base.lists.size⟩ := by
  cases engine with
  | classic limit steps =>
    cases h
    exact .classic ht.lax hx.below.within hs
  | frame steps depth =>
    cases h
    exact .frame ht.lax hx.below.within hs
  | machine p size steps =>
    rcases hm : Engine.loaded p size x s own with ⟨e | m, own'⟩
    · have hfails : Task.ofEngine (.machine p size steps) x s own = (.error e, own') :=
        Action.bind_error hm
      cases hfails.symm.trans h
    · have hmade : Task.ofEngine (.machine p size steps) x s own = (.ok (.machine m), own') :=
        Action.bind_ok hm
      cases hmade.symm.trans h
      exact .evaluator ⟨he.1.mono hg, ht, hx, hs, he.2, hm⟩

/-- **A task from a factory moves in**: made where others live, it is the task that is made beside
the constants alone, and nobody who lives there is disturbed. -/
theorem Solo.movesIn_ofForm {t : Task} (ht : base.Tidy true) (hn : base.scopes.size = 0)
    (he : engine.Installed base) (hb : Paired .apart .id base st)
    (h : Task.ofForm engine f st = (.ok t, st')) :
    ∃ t₀ own ρ, Task.ofForm engine f base = (.ok t₀, own) ∧ t = t₀.rename ρ ∧
      (⟨own, t₀, base.lists.size⟩ : Solo).MovesIn base st ρ st' := by
  obtain ⟨x, s, own, hplaced, hmade⟩ := f.placed_ok base
  obtain ⟨y, u, st₁, hplaced', hmade'⟩ := f.placed_ok st
  obtain ⟨htidy, hx, hs⟩ := Form.tidy_placed ht hplaced
  have hfollows := f.follows_placed hb
  unfold Follows at hfollows
  rw [hplaced, hplaced'] at hfollows
  cases hfollows with
  | @ok ρ _ _ _ _ hp hext hr =>
    obtain ⟨⟨hx', rfl⟩, -, rfl⟩ := hr
    have hhome : ∀ r : ListRef, r.index < base.lists.size → ρ.list r = r := hext.agree.list
    rw [hmade'] at h
    obtain ⟨t₀, ht₀, rfl, rfl⟩ := Task.ofEngine_rename he hhome hext.grows hp hx' hs h
    have halone : Task.ofForm engine f base = (.ok t₀, own) := (hmade engine).trans ht₀
    refine ⟨t₀, own, ρ, halone, rfl, ?_⟩
    have hnone {s : ScopeRef} : ¬ s.index < base.scopes.size := by
      rw [hn]
      exact Nat.not_lt_zero _
    -- a list that is made for the task is not one of those that were there before
    have hnew : ∀ r : ListRef, base.lists.size ≤ r.index → r.index < own.lists.size →
        st.lists.size ≤ (ρ.list r).index := by
      intro r hr hr'
      refine (hext.list_fresh r hr hr').resolve_right ?_
      rintro ⟨q, hq, hsame⟩
      have hq' := Nat.lt_of_lt_of_le hq hext.lists_le
      rcases hp.list_inj r q hr' hq' (hsame.trans (hext.agree.list q hq).symm) with rfl | ⟨hno, -⟩
      · exact Nat.not_lt_of_le hr hq
      · cases hno
    exact
      { begins := begins_ofEngine he hext.grows htidy hx hs ht₀
        paired := hp
        shared_le := Nat.le_refl _
        shared_le_lists := hext.lists_le
        lists_le := hext.lists_le'
        scopes_le := hext.scopes_le'
        items_eq := hext.grows'.lists.items_eq
        scopes_eq := fun s hs => hext.scopes_eq s hs fun _ ht => absurd ht hnone
        home := hhome
        list_new := hnew
        scope_new := fun s hs => hext.scope_fresh s (Nat.le_of_not_lt hnone) hs }

/-! ## Enqueuing -/

/-- Tasks move into the store and are posted, one after the other, and nothing else is done. -/
inductive Enqueues (base : Store) : Mailbox → Store → List Solo → Mailbox → Store → Prop
  | refl {b : Mailbox} {st : Store} : Enqueues base b st [] b st
  | post {b b' : Mailbox} {st st₁ st' : Store} {o : Solo} {os : List Solo} {ρ : Renaming}
      {priority : Int32} (hm : o.MovesIn base st ρ st₁)
      (h : Enqueues base (b.post (o.task.rename ρ) priority).2 st₁ os b' st') :
      Enqueues base b st (o :: os) b' st'

theorem Enqueues.trans {b b₁ b' : Mailbox} {base st st₁ st' : Store} {os os' : List Solo}
    (h : Enqueues base b st os b₁ st₁) (h' : Enqueues base b₁ st₁ os' b' st') :
    Enqueues base b st (os ++ os') b' st' := by
  induction h with
  | refl => exact h'
  | post hm _ ih => exact .post hm (ih h')

/-- They leave the lists that are there alone. -/
theorem Enqueues.fits {b b' : Mailbox} {base st st' : Store} {os : List Solo}
    (h : Enqueues base b st os b' st') (hfit : st'.Fits) : st.Fits := by
  induction h with
  | refl => exact hfit
  | post hm _ ih => exact (ih hfit).of_keepsLists hm.keepsLists

/-- Who lives in the store notices nothing of those that move in. -/
theorem Enqueues.paired {b b' : Mailbox} {base st st' own : Store} {os : List Solo}
    {ρ : Renaming} (h : Enqueues base b st os b' st') (hp : Paired .apart ρ own st) :
    Paired .apart ρ own st' := by
  induction h with
  | refl => exact hp
  | post hm _ ih => exact ih (hm.undisturbed hp)

namespace HookWork

variable {σ α : Type}

/-- The hook changes no list.  Where the constants of programs are what they were, it enqueues tasks
and does nothing else. -/
def OnlyEnqueues (base : Store) (h : HookWork σ α) : Prop :=
  ∀ b s st a b' s' st', h b s st = some (((a, b'), s'), st') →
    st.KeepsLists st' ∧ (Paired .apart .id base st → ∃ os, Enqueues base b st os b' st')

theorem onlyEnqueues_pure (base : Store) (a : α) : (pure a : HookWork σ α).OnlyEnqueues base := by
  rintro b s st _ _ _ _ ⟨⟩
  exact ⟨.refl st, fun _ => ⟨[], .refl⟩⟩

/-- Have a factory make a task, and leave it for the next tick. -/
def postForm (engine : Engine) (f : Form) (priority : Int32) : HookWork σ Unit := fun b s st =>
  match Task.ofForm engine f st with
  | (.ok t, st') => some ((((), (b.post t priority).2), s), st')
  | (.error _, _) => none

/-- Hooks may enqueue the tasks of a factory. -/
theorem onlyEnqueues_postForm (ht : base.Tidy true) (hn : base.scopes.size = 0)
    (he : engine.Installed base) (f : Form) (priority : Int32) :
    (postForm engine f priority : HookWork σ Unit).OnlyEnqueues base := by
  intro b s st a b' s' st' h
  rw [postForm] at h
  rcases hf : Task.ofForm engine f st with ⟨e | t, st₁⟩ <;> rw [hf] at h <;> cases h
  refine ⟨Task.keepsLists_ofForm he hf, fun hb => ?_⟩
  obtain ⟨t₀, own, ρ, -, rfl, hmoves⟩ := Solo.movesIn_ofForm ht hn he hb hf
  exact ⟨[_], .post hmoves .refl⟩

end HookWork

/-- Hooks that enqueue tasks and do nothing else. -/
structure Hooks.OnlyEnqueue {σ : Type} (base : Store) (hooks : Hooks σ) : Prop where
  onComplete : ∀ r, (hooks.onComplete r).OnlyEnqueues base
  onRemove : ∀ r, (hooks.onRemove r).OnlyEnqueues base
  onSleep : ∀ ms, (hooks.onSleep ms).OnlyEnqueues base
  onAwaken : hooks.onAwaken.OnlyEnqueues base

end LispEngines
