import LispEngines.Proofs.Frame.Turn
import LispEngines.Proofs.Store.Following

/-!
# Steps on paired stores

A step is an action together with the state of an engine.  In the second of two paired stores it
does to the second engine what it does to the first one, if the states of the engines are related
by `T`: either both succeed, and their values are related by `R`, or both fail alike
(`Step.Matched`).  What becomes of the stores is left open, and so `X` says it.
-/

namespace LispEngines.Step

variable {σ τ α β γ δ : Type} {L : Link} {ρ : Renaming} {st st' : Store}
  {X Y : Renaming → Store → Store → Prop} {T : Renaming → Store → σ → τ → Prop}
  {R : Renaming → Store → α → β → Prop} {S : Renaming → Store → γ → δ → Prop} {s : σ} {t : τ}

/-- The outcomes of two steps match: both values, related by `R`, or both the same failure.
Either way the states of the engines are related by `T`, and `X` is true of the stores. -/
inductive Matched (L : Link) (X : Renaming → Store → Store → Prop)
    (T : Renaming → Store → σ → τ → Prop) (R : Renaming → Store → α → β → Prop) :
    (Except Failure α × σ) × Store → (Except Failure β × τ) × Store → Prop
  | ok {ρ₁ : Renaming} {st₁ st₁' : Store} {s : σ} {t : τ} {x : α} {y : β}
      (hp : Paired L ρ₁ st₁ st₁') (hx : X ρ₁ st₁ st₁') (ht : T ρ₁ st₁ s t)
      (hr : R ρ₁ st₁ x y) : Matched L X T R ((.ok x, s), st₁) ((.ok y, t), st₁')
  | error {ρ₁ : Renaming} {st₁ st₁' : Store} {s : σ} {t : τ} {e : Failure}
      (hp : Paired L ρ₁ st₁ st₁') (hx : X ρ₁ st₁ st₁') (ht : T ρ₁ st₁ s t) :
      Matched L X T R ((.error e, s), st₁) ((.error e, t), st₁')

namespace Matched

theorem imp {out : (Except Failure α × σ) × Store} {out' : (Except Failure β × τ) × Store}
    (h : Matched L X T R out out')
    (hXY : ∀ {ρ₁ : Renaming} {st₁ st₁' : Store}, X ρ₁ st₁ st₁' → Y ρ₁ st₁ st₁') :
    Matched L Y T R out out' := by
  cases h with
  | ok hp hx ht hr => exact .ok hp (hXY hx) ht hr
  | error hp hx ht => exact .error hp (hXY hx) ht

theorem bind {a : Step σ α} {b : Step τ β} {f : α → Step σ γ} {g : β → Step τ δ}
    (h : Matched L X T R (a s st) (b t st'))
    (hXY : ∀ {ρ₁ : Renaming} {st₁ st₁' : Store}, X ρ₁ st₁ st₁' → Y ρ₁ st₁ st₁')
    (hf : ∀ {ρ₁ : Renaming} {st₁ st₁' : Store} {s₁ : σ} {t₁ : τ} {x : α} {y : β},
      Paired L ρ₁ st₁ st₁' → X ρ₁ st₁ st₁' → T ρ₁ st₁ s₁ t₁ → R ρ₁ st₁ x y →
      Matched L Y T S (f x s₁ st₁) (g y t₁ st₁')) :
    Matched L Y T S ((a >>= f) s st) ((b >>= g) t st') := by
  rcases ha : a s st with ⟨⟨e | x, s₁⟩, st₁⟩ <;> rcases hb : b t st' with ⟨⟨e' | y, t₁⟩, st₁'⟩ <;>
    rw [ha, hb] at h
  · rw [bind_error ha, bind_error hb]
    cases h with
    | error hp hx ht => exact .error hp (hXY hx) ht
  · cases h
  · cases h
  · rw [bind_ok ha, bind_ok hb]
    cases h with
    | ok hp hx ht hr => exact hf hp hx ht hr

/-- An action leaves the states of the engines alone. -/
theorem act_bind {a : Action α} {b : Action β} {f : α → Step σ γ} {g : β → Step τ δ}
    (h : Action.Follows L ρ st st' R a b)
    (hY : ∀ {ρ₁ : Renaming} {st₁ st₁' : Store}, Extends L ρ st st' ρ₁ st₁ st₁' →
      Y ρ₁ st₁ st₁' ∧ T ρ₁ st₁ s t)
    (hf : ∀ {ρ₁ : Renaming} {st₁ st₁' : Store} {x : α} {y : β}, Paired L ρ₁ st₁ st₁' →
      Extends L ρ st st' ρ₁ st₁ st₁' → R ρ₁ st₁ x y →
      Matched L Y T S (f x s st₁) (g y t st₁')) :
    Matched L Y T S ((Step.act a >>= f) s st) ((Step.act b >>= g) t st') := by
  unfold Action.Follows at h
  rw [bind_apply, bind_apply, act_apply, act_apply]
  generalize a st = out at h ⊢
  generalize b st' = out' at h ⊢
  cases h with
  | error hp hx => exact .error hp (hY hx).1 (hY hx).2
  | ok hp hx hr => exact hf hp hx hr

theorem act {a : Action α} {b : Action β} (h : Action.Follows L ρ st st' R a b)
    (hY : ∀ {ρ₁ : Renaming} {st₁ st₁' : Store}, Extends L ρ st st' ρ₁ st₁ st₁' →
      Y ρ₁ st₁ st₁' ∧ T ρ₁ st₁ s t) :
    Matched L Y T R (Step.act a s st) (Step.act b t st') := by
  rw [← bind_pure (Step.act a), ← bind_pure (Step.act b)]
  exact act_bind h hY fun hp hx hr => .ok hp (hY hx).1 (hY hx).2 hr

end Matched

end LispEngines.Step
