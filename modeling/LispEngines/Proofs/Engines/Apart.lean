import LispEngines.Proofs.Course.Apart
import LispEngines.Proofs.Engines.Ends
import LispEngines.Proofs.Machine.Starting
import LispEngines.Proofs.Store.Building

/-!
# Engines on paired stores

What an engine makes of an expression does not depend on the addresses in the store.  In the second
of two paired stores it makes of the renamed expression what it makes of the expression in the first
one: neither evaluation ends with so much fuel, or both end alike (`Engine.follows_evaluate`).  The
same goes for the forms of a source (`Engine.follows_evaluateForms`).

It is said here of the recursive engine and of the machine, whose program has to be the same in both
stores.
-/

namespace LispEngines.Engine

variable {L : Link} {ρ ρ₁ : Renaming} {base st st' st₁ st₁' : Store} {x : Value} {s : ScopeRef}
  {engine engine₁ : Engine} {fuel : Nat} {r : Except Failure Value}

/-! ## Counting -/

/-- The engine before it has counted anything. -/
def fresh : Engine → Engine
  | .classic limit _ => .classic limit 0
  | .frame .. => .frame 0 0
  | .machine p size _ => .machine p size 0

theorem fresh_fresh (engine : Engine) : engine.fresh.fresh = engine.fresh := by
  cases engine <;> rfl

/-- What an engine has counted makes no difference to what it comes to. -/
theorem ends_fresh : Ends engine.fresh x s st r st' ↔ Ends engine x s st r st' := by
  cases engine with
  | classic limit n => exact classic_ends_iff.trans classic_ends_iff.symm
  | frame n depth => exact frame_ends_iff_run.trans frame_ends_iff_run.symm
  | machine p size n =>
    have hcount (n n' : Nat) (h : Ends (.machine p size n) x s st r st') :
        Ends (.machine p size n') x s st r st' := by
      obtain ⟨fuel, engine', h⟩ := h
      rw [evaluate] at h
      dsimp only at h
      rcases hm : loaded p size x s st with ⟨e | m, st₁⟩ <;> rw [hm] at h
      · cases h
        exact ⟨fuel, .machine p size n', by rw [evaluate]; dsimp only; rw [hm]; rfl⟩
      · obtain ⟨⟨⟨r₀, m₁⟩, st₂⟩, hrun, h⟩ := Option.bind_eq_some_iff.mp h
        cases h
        exact ⟨fuel, .machine p size (n' + m₁.steps), by
          rw [evaluate]
          dsimp only
          rw [hm]
          exact Option.bind_eq_some_iff.mpr ⟨_, hrun, rfl⟩⟩
    exact ⟨hcount 0 n, hcount n 0⟩

/-- An evaluation changes nothing but what has been counted. -/
theorem fresh_of_evaluate (h : evaluate fuel x s engine st = some ((r, engine₁), st₁)) :
    engine₁.fresh = engine.fresh := by
  cases engine with
  | classic limit n | frame n depth =>
    obtain ⟨_, -, he⟩ := Option.bind_eq_some_iff.mp h
    cases he
    rfl
  | machine p size n =>
    rw [evaluate] at h
    dsimp only at h
    rcases hm : loaded p size x s st with ⟨e | m, st₁⟩ <;> rw [hm] at h
    · cases h
      rfl
    · obtain ⟨_, -, he⟩ := Option.bind_eq_some_iff.mp h
      cases he
      rfl

/-! ## One expression -/

/-- The engine is the same in the second one of two paired stores. -/
inductive Portable (ρ : Renaming) (st : Store) : Engine → Prop
  | classic (limit n : Nat) : Portable ρ st (.classic limit n)
  | machine {p : Program} (hp : ∀ v ∈ p.data, v.Within false st) (hρ : p.rename ρ = p)
      (size n : Nat) : Portable ρ st (.machine p size n)

/-- Two evaluations end alike. -/
abbrev Follows (L : Link) (ρ : Renaming) (st st' : Store) (x y : Run Engine Value)
    (engine : Engine) : Prop :=
  Option.Rel (Step.Matched L.lone (Moves ρ st st') (fun _ _ e e' => e' = e) (Value.StandsFor L.lone))
    (x engine st) (y engine st')

theorem follows_classic {limit n : Nat} (h : Paired L.lone ρ st st') (hx : x.Within false st)
    (hs : s.index < st.scopes.size) : Follows L ρ st st' (evaluate fuel x s)
      (evaluate fuel (x.rename ρ) (ρ.scope s)) (.classic limit n) := by
  have he := Classic.follows_evaluate limit fuel h (n := n) hx hs
  unfold Walk.Follows at he
  show Option.Rel _ ((Classic.evaluate limit fuel x s n st).bind _)
    ((Classic.evaluate limit fuel (x.rename ρ) (ρ.scope s) n st').bind _)
  generalize Classic.evaluate limit fuel x s n st = out at he ⊢
  generalize Classic.evaluate limit fuel (x.rename ρ) (ρ.scope s) n st' = out' at he ⊢
  cases he with
  | none => exact .none
  | some he =>
    cases he with
    | ok hp hm ht hv =>
      obtain rfl := ht
      exact .some (.ok hp hm.toMoves rfl hv)
    | error hp hm ht =>
      obtain rfl := ht
      exact .some (.error hp hm.toMoves rfl)

theorem follows_machine {p : Program} {size n : Nat} (h : Paired L.lone ρ st st')
    (hx : x.Within false st) (hs : s.index < st.scopes.size) (hp : ∀ v ∈ p.data, v.Within false st)
    (hρ : p.rename ρ = p) : Follows L ρ st st' (evaluate fuel x s)
      (evaluate fuel (x.rename ρ) (ρ.scope s)) (.machine p size n) := by
  have ha : ∀ v ∈ [x, .scope s], v.Within false st :=
    List.forall_mem_cons.mpr ⟨hx, List.forall_mem_singleton.mpr (Value.within_scope hs)⟩
  obtain ⟨hstart, hsame⟩ : Machine.start _ _ size _ = _ ∧ _ := Machine.start_rename h hp ha
  rw [hρ] at hstart
  have hstart' : loaded p size (x.rename ρ) (ρ.scope s) st' =
      ((loaded p size x s st).1.map (Machine.rename ρ), st') := hstart
  unfold Follows
  simp only [evaluate, hstart']
  rcases hm : loaded p size x s st with ⟨e | m, st₁⟩
  · obtain rfl : st₁ = st := by rw [← hsame]; exact (congrArg Prod.snd hm).symm
    exact .some (.error h (.refl ρ st₁ st') rfl)
  · obtain ⟨hw, -, hst⟩ := Machine.within_start hp ha hm
    obtain rfl := hst.symm
    have hrun := Machine.follows_run fuel h hw
    show Option.Rel _ ((Machine.run fuel m st).bind _) ((Machine.run fuel (m.rename ρ) st').bind _)
    generalize Machine.run fuel m st = out at hrun ⊢
    generalize Machine.run fuel (m.rename ρ) st' = out' at hrun ⊢
    cases hrun with
    | none => exact .none
    | some hrun =>
      cases hrun with
      | @ok ρ₁ st₁ st₁' m₁ _ v _ hp₁ hm₁ ht hv =>
        obtain ⟨-, rfl⟩ := ht
        obtain ⟨hv, rfl⟩ := hv
        refine .some ?_
        show Step.Matched _ _ _ _ ((outcome m₁ v, _), st₁) ((outcome m₁ (v.rename ρ₁), _), st₁')
        rw [outcome, outcome]
        rcases m₁.haltMessage with _ | text
        · exact .ok hp₁ hm₁ rfl ⟨hv, rfl⟩
        · exact .error hp₁ hm₁ rfl
      | error hp₁ hm₁ ht =>
        obtain ⟨-, rfl⟩ := ht
        exact .some (.error hp₁ hm₁ rfl)

/-- **An expression in paired stores** is evaluated alike. -/
theorem follows_evaluate (he : engine.Portable ρ st) (h : Paired L.lone ρ st st')
    (hx : x.Within false st) (hs : s.index < st.scopes.size) :
    Follows L ρ st st' (evaluate fuel x s) (evaluate fuel (x.rename ρ) (ρ.scope s)) engine := by
  cases he with
  | classic => exact follows_classic h hx hs
  | machine hp hρ => exact follows_machine h hx hs hp hρ

/-- What the evaluation comes to in the first store, it comes to in the second one. -/
theorem Ends.follows (he : engine.Portable ρ st) (h : Paired L.lone ρ st st')
    (hx : x.Within false st) (hs : s.index < st.scopes.size) (hr : Ends engine x s st r st₁) :
    ∃ ρ₁ st₁', Ends engine (x.rename ρ) (ρ.scope s) st' (r.map (Value.rename ρ₁)) st₁' ∧
      Paired L.lone ρ₁ st₁ st₁' ∧ Moves ρ st st' ρ₁ st₁ st₁' ∧
      ∀ v, r = .ok v → v.Within false st₁ := by
  obtain ⟨fuel, engine', hr⟩ := hr
  have hf : Follows L ρ st st' (evaluate fuel x s) _ engine := follows_evaluate he h hx hs
  unfold Follows at hf
  rw [hr] at hf
  generalize hr' : evaluate fuel (x.rename ρ) (ρ.scope s) engine st' = out at hf
  cases hf with
  | some hf =>
    cases hf with
    | ok hp hm _ hv =>
      obtain ⟨hv, rfl⟩ := hv
      refine ⟨_, _, ⟨fuel, _, hr'⟩, hp, hm, ?_⟩
      rintro _ ⟨⟩
      exact hv
    | error hp hm => exact ⟨_, _, ⟨fuel, _, hr'⟩, hp, hm, nofun⟩

/-! ## The forms of a source -/

theorem Portable.of_fresh (he : engine.Portable ρ st) (h : engine₁.fresh = engine.fresh) :
    engine₁.Portable ρ st := by
  cases he with
  | classic limit n =>
    cases engine₁ <;> cases h
    exact .classic ..
  | machine hp hρ size n =>
    cases engine₁ <;> cases h
    exact .machine hp hρ ..

theorem Portable.mono (he : engine.Portable ρ st) (ha : ρ.Agree st ρ₁)
    (hw : ∀ {v : Value}, v.Within false st → v.Within false st₁) : engine.Portable ρ₁ st₁ := by
  cases he with
  | classic => exact .classic ..
  | machine hp hρ =>
    refine .machine (fun v hv => hw (hp v hv)) ?_ ..
    rw [Program.rename, Machine.map_rename_array ha hp]
    exact hρ

theorem Portable.moves (he : engine.Portable ρ st) (h : Moves ρ st st' ρ₁ st₁ st₁') :
    engine.Portable ρ₁ st₁ :=
  he.mono h.agree h.within

/-- A form is built, and then it is evaluated. -/
theorem evaluateForms_cons (v : Value) (f : Form) (fs : List Form) (engine : Engine) (st : Store) :
    evaluateForms fuel s v (f :: fs) engine st =
      (evaluate fuel (f.build st).1 s engine (f.build st).2).bind fun out =>
        match out.1.1 with
        | .ok v => evaluateForms fuel s v fs out.1.2 out.2
        | .error e => some ((.error e, out.1.2), out.2) := by
  rw [evaluateForms, Run.bind_apply]
  show ((evaluate fuel (f.build st).1 s >>= fun v => evaluateForms fuel s v fs) engine
    (f.build st).2) = _
  rw [Run.bind_apply]
  rcases evaluate fuel (f.build st).1 s engine (f.build st).2 with _ | ⟨⟨_ | _, _⟩, _⟩ <;> rfl

/-- **A source in paired stores** is evaluated alike. -/
theorem follows_evaluateForms (forms : List Form) {v : Value} (he : engine.Portable ρ st)
    (h : Paired L.lone ρ st st') (hv : v.Within false st) (hs : s.index < st.scopes.size) :
    Follows L ρ st st' (evaluateForms fuel s v forms)
      (evaluateForms fuel (ρ.scope s) (v.rename ρ) forms) engine := by
  induction forms generalizing ρ st st' engine v with
  | nil => exact .some (.ok h (.refl ρ st st') rfl ⟨hv, rfl⟩)
  | cons f fs ih =>
    unfold Follows
    rw [evaluateForms_cons, evaluateForms_cons]
    have hbuild : Action.Follows L.lone ρ st st' (Value.StandsFor L.lone) _ _ := f.follows_build h
    unfold Action.Follows Action.always at hbuild
    generalize f.build st = built at hbuild ⊢
    generalize f.build st' = built' at hbuild ⊢
    obtain ⟨x, st₁⟩ := built
    obtain ⟨y, st₁'⟩ := built'
    cases hbuild with
    | @ok ρ₁ _ _ _ _ hp₁ hx₁ hxy =>
      obtain ⟨hx, hy⟩ := hxy
      have hm₁ := hx₁.toMoves
      have hs₁ := Nat.lt_of_lt_of_le hs hm₁.scopes_le
      have hf : Follows L ρ₁ st₁ st₁' (evaluate fuel x s) _ engine :=
        follows_evaluate (he.moves hm₁) hp₁ hx hs₁
      unfold Follows at hf
      rw [hm₁.agree.scope s hs, ← hy] at hf
      dsimp only
      generalize hout : evaluate fuel x s engine st₁ = out at hf ⊢
      generalize evaluate fuel y (ρ.scope s) engine st₁' = out' at hf ⊢
      cases hf with
      | none => exact .none
      | some hf =>
        cases hf with
        | error hp₂ hm₂ ht =>
          obtain rfl := ht
          exact .some (.error hp₂ (hm₁.trans hm₂) rfl)
        | @ok ρ₂ st₂ st₂' engine₁ _ _ _ hp₂ hm₂ ht hw =>
          obtain rfl := ht
          obtain ⟨hw, rfl⟩ := hw
          have hm := hm₁.trans hm₂
          have hrest := ih ((he.of_fresh (fresh_of_evaluate hout)).moves hm) hp₂ hw
            (Nat.lt_of_lt_of_le hs hm.scopes_le)
          unfold Follows at hrest
          rw [hm.agree.scope s hs] at hrest
          dsimp only [Option.bind_some]
          generalize evaluateForms fuel s _ fs _ st₂ = out at hrest ⊢
          generalize evaluateForms fuel (ρ.scope s) _ fs _ st₂' = out' at hrest ⊢
          cases hrest with
          | none => exact .none
          | some hrest => exact .some (hrest.imp hm.trans)

/-- What a source comes to in the second store, it comes to in the first one. -/
theorem exists_evaluateForms {forms : List Form} {v : Value} (he : engine.Portable ρ st)
    (h : Paired L.lone ρ st st') (hv : v.Within false st) (hs : s.index < st.scopes.size)
    (hr : evaluateForms fuel (ρ.scope s) (v.rename ρ) forms engine st' = some ((r, engine₁), st₁')) :
    ∃ r₀ ρ₁ st₁, evaluateForms fuel s v forms engine st = some ((r₀, engine₁), st₁) ∧
      r = r₀.map (Value.rename ρ₁) ∧ Paired L.lone ρ₁ st₁ st₁' ∧ Moves ρ st st' ρ₁ st₁ st₁' := by
  have hf : Follows L ρ st st' (evaluateForms fuel s v forms) _ engine :=
    follows_evaluateForms forms he h hv hs
  unfold Follows at hf
  rw [hr] at hf
  generalize evaluateForms fuel s v forms engine st = out at hf
  cases hf with
  | some hf =>
    cases hf with
    | ok hp hm ht hw =>
      obtain rfl := ht
      obtain ⟨-, rfl⟩ := hw
      exact ⟨_, _, _, rfl, rfl, hp, hm⟩
    | error hp hm ht =>
      obtain rfl := ht
      exact ⟨_, _, _, rfl, rfl, hp, hm⟩

end LispEngines.Engine
