import LispEngines.Proofs.Course.Apart
import LispEngines.Proofs.Engines.Ends
import LispEngines.Proofs.Frame.Stopping
import LispEngines.Proofs.Machine.Safety
import LispEngines.Proofs.Machine.Starting
import LispEngines.Proofs.Store.Building

/-!
# Evaluations keep a store tidy

An evaluation that begins with a tidy store ends with one, whichever engine it is and whether it
comes to a value or fails (`Engine.Ends.leaves`).

The recursive engine and the frames make new lists only.  A pair of a store with itself becomes a
pair of tidy stores, and the steps of a stack leave it sound, so for these two engines nothing is
left to show.  The machine writes to its lists while it collects arguments, and its store is tidy for
another reason: it is the twin of the one that the recursive engine would have.  A list that only
the machine has refers to what stands for something, and so do the scopes that it fills, and what
stands for something has the rank of what it stands for.

The evaluator counts the elements of a list in a signed word.  So its store must not have come to
hold a list too long for that, which no memory could.

* `Machine.Evaluator.Twins.tidy`: the second one of twins is tidy.
* `Machine.Evaluator.Started.kept`: so is the store of a running evaluator, however long it has run.
* `Engine.Installed`: the engine is not a machine, or it is one with the evaluator.
* `Engine.Leaves`: what an evaluation leaves.
-/

namespace LispEngines

/-- An action that comes to the same in paired stores leaves a tidy store tidy. -/
theorem Action.Follows.tidy {α : Type} {a : Action α} {R : Renaming → Store → α → α → Prop}
    {st st' : Store} {x : α} (h : Follows (.same true) .id st st R a a)
    (ha : a st = (.ok x, st')) : st'.Tidy true ∧ st.Grows st' ∧ ∃ ρ, R ρ st' x x := by
  unfold Follows at h
  rw [ha] at h
  cases h with
  | ok hp hx hr => exact ⟨hp.tidy rfl, hx.grows, _, hr⟩

/-! ## The second one of twins -/

namespace Machine.Evaluator.Twins

variable {empty : ListRef} {ρ : Renaming} {st st' : Store} {v : Value}

theorem within (h : Twins empty ρ st st') (hv : v.Within true st) :
    (v.rename ρ).Within true st' where
  below.list q hq := by
    rw [Value.list?_rename] at hq
    obtain ⟨r, hr, rfl⟩ := Option.map_eq_some_iff.mp hq
    exact h.paired.list_lt r (hv.below.list r hr)
  below.scope t ht := by
    rw [Value.scope?_rename] at ht
    obtain ⟨s, hs, rfl⟩ := Option.map_eq_some_iff.mp ht
    exact h.paired.scope_lt s (hv.below.scope s hs)
  wellFormed _ := by
    have hform := hv.wellFormed rfl
    cases v with
    | lambda c | expander c =>
      show 3 ≤ (st'.items (ρ.list c.form)).length
      rw [h.paired.items c.form (hv.below.list _ rfl), List.length_map]
      exact hform
    | _ => trivial

/-- A list that stands for others gets the least of their ranks, and one that stands for nothing
ranks above all of them. -/
theorem acyclic (h : Twins empty ρ st st') : st'.Acyclic := by
  obtain ⟨rank, hd, hn⟩ := (h.paired.tidy rfl).ranked
  let ranks (q : ListRef) : Set Nat :=
    {n | n = st.lists.size ∨ ∃ r : ListRef, r.index < st.lists.size ∧ ρ.list r = q ∧ rank r = n}
  have hle {t : ListRef} (ht : t.index < st.lists.size) : sInf (ranks (ρ.list t)) ≤ rank t :=
    Nat.sInf_le (.inr ⟨t, ht, rfl, rfl⟩)
  refine ⟨fun q => sInf (ranks q), fun p w hw q hq => ?_⟩
  dsimp only
  rcases Nat.sInf_mem (⟨_, .inl rfl⟩ : (ranks p).Nonempty) with hp | ⟨r, hr, rfl, hp⟩
  · obtain ⟨v, hv, rfl⟩ := h.covered.items p w hw
    rw [Value.list?_rename] at hq
    obtain ⟨t, ht, rfl⟩ := Option.map_eq_some_iff.mp hq
    have hlt := hv.below.list t ht
    exact hp ▸ Nat.lt_of_le_of_lt (hle hlt) (hn t hlt)
  · rw [h.paired.items r hr] at hw
    obtain ⟨v, hv, rfl⟩ := List.mem_map.mp hw
    rw [Value.list?_rename] at hq
    obtain ⟨t, ht, rfl⟩ := Option.map_eq_some_iff.mp hq
    exact hp ▸ Nat.lt_of_le_of_lt (hle (h.paired.sealed.closed r v hv t ht)) (hd r v hv t ht)

theorem tidy (h : Twins empty ρ st st') : st'.Tidy true where
  items r w hw := by
    obtain ⟨v, hv, rfl⟩ := h.covered.items r w hw
    exact h.within hv
  bindings s b hb := by
    obtain ⟨v, hv, he⟩ := h.covered.bindings s b hb
    exact he ▸ h.within hv
  parent_lt := h.covered.parent_lt
  acyclic := h.acyclic

end Machine.Evaluator.Twins

/-! ## A run of the evaluator -/

namespace Machine

variable {m m' : Machine} {st st' : Store} {r : Except Failure Value} {fuel n : Nat}

namespace Evaluator

variable {p : Program} {size : Nat} {x : Value} {s : ScopeRef}

/-- After any number of instructions the store is tidy, and what was there has not changed. -/
theorem Started.kept (h : Started p size x s st m) (hfit : (storeAfter n m st).Fits) :
    (storeAfter n m st).Tidy true ∧ st.Grows (storeAfter n m st) := by
  obtain ⟨empty, htwins, hruns⟩ := h.runs_self
  obtain ⟨a, hrun⟩ := hruns n hfit
  obtain ⟨k, ρ₁, st₁, last, hk, htr⟩ := hrun.tracks
  obtain ⟨ρ₂, st₂, hpursue⟩ := htr.kept (Nat.le_of_succ_le hk)
  exact ⟨hpursue.twins.tidy, ⟨hpursue.carries.lists_le', fun _ hr => hpursue.items_eq htwins hr⟩,
    hpursue.carries.scopes_le'⟩

/-- The value of the evaluator is within the store that it leaves. -/
theorem Started.within_value (h : Started p size x s st m)
    (hrun : run fuel m st = some ((r, m'), st')) (hfit : st'.Fits) {v : Value}
    (hv : r.bind (Engine.outcome m') = .ok v) : v.Within true st' := by
  obtain ⟨empty, htwins, hruns⟩ := h.runs_self
  obtain ⟨k, m₁, st₁, hg, ⟨hf, rfl, rfl, rfl⟩ | ⟨-, e, rfl, -⟩⟩ := goes_of_run fuel hrun
  · rw [Except.bind, Engine.outcome] at hv
    rcases hs : m'.haltMessage with _ | message <;> rw [hs] at hv <;> cases hv
    have hnow : storeAfter k m st = st' := hg.storeAfter 0
    obtain ⟨a, hruns⟩ := hruns k (hnow ▸ hfit)
    obtain ⟨w, ρ₁, st₂, hw, ha, htr⟩ := value_of_exit hruns (Nat.lt_succ_self k) hg hf hs
    rw [ha]
    exact (htr 0).pursues.twins.within hw
  · cases hv

end Evaluator

end Machine

/-! ## One evaluation -/

namespace Engine

variable {engine : Engine} {x : Value} {s : ScopeRef} {st st' : Store} {r : Except Failure Value}

/-- What an evaluation leaves: a tidy store with all that was there, and within it the value, if
there is one. -/
structure Leaves (st : Store) (r : Except Failure Value) (st' : Store) : Prop where
  tidy : st'.Tidy true
  grows : st.Grows st'
  value : ∀ v, r = .ok v → v.Within true st'

theorem leaves_classic {limit n : Nat} (ht : st.Tidy true) (hx : x.Within true st)
    (hs : s.index < st.scopes.size) (h : Ends (.classic limit n) x s st r st') :
    Leaves st r st' := by
  obtain ⟨fuel, n', h⟩ := classic_ends_iff_evaluate.mp h
  have hf := Classic.follows_evaluate limit fuel (.refl (L := .same true) ht rfl) (n := n) hx hs
  unfold Walk.Follows at hf
  rw [h] at hf
  generalize Classic.evaluate limit fuel (x.rename .id) (Renaming.id.scope s) n st = out at hf
  cases hf with
  | some hm =>
    cases hm with
    | ok hp hx _ hv =>
      exact ⟨hp.tidy rfl, hx.grows, fun v he => by cases he; exact hv.1⟩
    | error hp hx _ => exact ⟨hp.tidy rfl, hx.grows, nofun⟩

/-- A stack of frames that runs to its end leaves what a calm stack has. -/
theorem leaves_run (fuel : Nat) {m m' : FrameStack} (h : FrameStack.Calm true m st)
    (hrun : FrameStack.run fuel m st = some ((r, m'), st')) : Leaves st r st' := by
  induction fuel generalizing m st with
  | zero => cases hrun
  | succ fuel ih =>
    cases hd : m.isDone with
    | true =>
      rw [FrameStack.run_of_isDone hd] at hrun
      rcases hr : m.top.result with _ | v <;> rw [hr] at hrun <;> cases hrun
      · exact ⟨h.sound.tidy.newList (List.forall_mem_nil _), Store.grows_newList [], fun v he => by
          cases he
          exact Value.within_list (by simp)⟩
      · exact ⟨h.sound.tidy, .refl _, fun w he => by
          cases he
          exact h.sound.top.result v hr⟩
    | false =>
      rw [FrameStack.run_step hd] at hrun
      obtain ⟨⟨hcalm, hgrows⟩, -⟩ := FrameStack.settled_step h
      rcases hstep : FrameStack.step m st with ⟨⟨e | u, m₁⟩, st₁⟩ <;>
        rw [hstep] at hrun hcalm hgrows
      · cases hrun
        exact ⟨hcalm.sound.tidy, hgrows, nofun⟩
      · obtain ⟨ht, hg, hv⟩ := ih hcalm hrun
        exact ⟨ht, hgrows.trans hg, hv⟩

theorem leaves_frame {n depth : Nat} (ht : st.Tidy true) (hx : x.Within true st)
    (hs : s.index < st.scopes.size) (h : Ends (.frame n depth) x s st r st') :
    Leaves st r st' := by
  obtain ⟨fuel, m, hrun⟩ := frame_ends_iff_run.mp h
  exact leaves_run fuel ⟨FrameStack.sound_start ht hx hs, rfl, rfl⟩ hrun

/-- A machine that is to evaluate has the evaluator as its program, and the constants of the program
are in the store. -/
def Installed (base : Store) : Engine → Prop
  | .machine p size _ => Machine.Evaluator.Serves p base ∧ size < 2 ^ 63
  | _ => True

/-- Assembling makes an empty list for the program, and nothing else. -/
theorem assemble_store (source entry : String) (st : Store) :
    (Assembler.assemble source entry st).2 = (st.newList []).2 := rfl

theorem ofAssembly_ok {source entry : String} {p : Program} {size : Nat}
    (h : Assembler.assemble source entry st = (.ok p, st')) :
    ofAssembly source entry size st = (.ok (.machine p size 0), st') := by
  simp only [ofAssembly, bind, StateT.bind, h]
  rfl

/-- The evaluator can be installed in any store. -/
theorem installed_of_assembly {size : Nat} (h : size < 2 ^ 63) (st : Store) :
    ∃ engine, ofAssembly Machine.evaluatorText "main" size st = (.ok engine, (st.newList []).2) ∧
      engine.Installed (st.newList []).2 := by
  have ha := Machine.Evaluator.assemble_evaluatorText st
  exact ⟨_, ofAssembly_ok (Prod.ext ha (assemble_store ..)),
    ⟨st, ha, by simp, Store.items_newList_self st []⟩, h⟩

/-- It stays installed while the store grows. -/
theorem Installed.mono (he : engine.Installed st) (hg : st.Grows st') : engine.Installed st' := by
  cases engine with
  | machine p size n => exact ⟨he.1.mono hg, he.2⟩
  | classic | frame => trivial

/-- An evaluation by a machine is a run of the machine, unless it cannot be loaded. -/
theorem machine_ends {p : Program} {size n : Nat} (hsize : size < 2 ^ 63)
    (h : Ends (.machine p size n) x s st r st') :
    (∃ m fuel r₀ m', loaded p size x s st = (.ok m, st) ∧
      Machine.run fuel m st = some ((r₀, m'), st') ∧ r = r₀.bind (outcome m')) ∨
    st' = st ∧ ∃ e, r = .error e := by
  obtain ⟨fuel, engine, h⟩ := h
  rw [evaluate] at h
  obtain ⟨m, hm, -⟩ | ⟨-, hm⟩ := Machine.start_shows p [x, .scope s] hsize st <;>
    change loaded p size x s st = _ at hm <;> dsimp only at h <;> rw [hm] at h
  · obtain ⟨⟨⟨r₀, m'⟩, st₁⟩, hrun, h⟩ := Option.bind_eq_some_iff.mp h
    cases h
    exact .inl ⟨m, fuel, r₀, m', hm, hrun, rfl⟩
  · cases h
    exact .inr ⟨rfl, _, rfl⟩

/-- A machine that does not leave a list too long for it to count has not been given one. -/
theorem Ends.fits {base : Store} (he : engine.Installed base) (h : engine.Ends x s st r st')
    (hfits : engine.strategy = .machine → st'.Fits) : engine.strategy = .machine → st.Fits := by
  intro hm
  cases engine with
  | machine p size n =>
    obtain ⟨m, fuel, r₀, m', -, hrun, -⟩ | ⟨rfl, -⟩ := machine_ends he.2 h
    · exact Machine.fits_of_run hrun (hfits hm) 0
    · exact hfits hm
  | classic | frame => cases hm

theorem leaves_machine {p : Program} {size n : Nat} (he : (Engine.machine p size n).Installed st)
    (ht : st.Tidy true) (hx : x.Within true st) (hs : s.index < st.scopes.size)
    (hfits : st'.Fits) (h : Ends (.machine p size n) x s st r st') : Leaves st r st' := by
  obtain ⟨m, fuel, r₀, m', hm, hrun, rfl⟩ | ⟨rfl, e, rfl⟩ := machine_ends he.2 h
  · have hstarted : Machine.Evaluator.Started p size x s st m :=
      ⟨he.1, ht, hx, hs, he.2, hm⟩
    obtain ⟨k, hk⟩ := Machine.storeAfter_of_run hrun
    obtain ⟨htidy, hgrows⟩ := hstarted.kept (Machine.fits_of_run hrun hfits (k + 0))
    rw [hk] at htidy hgrows
    exact ⟨htidy, hgrows, fun v hv => hstarted.within_value hrun hfits hv⟩
  · exact ⟨ht, .refl _, nofun⟩

/-- **Every evaluation leaves a tidy store**, whichever engine it is and whatever comes of it. -/
theorem Ends.leaves (he : engine.Installed st) (ht : st.Tidy true) (hx : x.Within true st)
    (hs : s.index < st.scopes.size) (hfits : engine.strategy = .machine → st'.Fits)
    (h : engine.Ends x s st r st') : Leaves st r st' := by
  cases engine with
  | classic limit n => exact leaves_classic ht hx hs h
  | frame n depth => exact leaves_frame ht hx hs h
  | machine p size n => exact leaves_machine he ht hx hs (hfits rfl) h

end Engine

end LispEngines
