import LispEngines.Proofs.Frame.Invariant
import Mathlib.Data.Fintype.Card

/-!
# Stacks of frames on paired stores

In the second of two paired stores a renamed stack of frames makes the steps that the stack makes
in the first one (`FrameStack.follows_step`).  The second store may hold any number of lists that
the first one has not got, so a step is computed there under a larger bound.  The bound of the
first store is not used up, so that makes no difference.
-/

namespace LispEngines

/-- Where no list stands for two, the second store has at least as many lists. -/
theorem Paired.lists_le {ρ : Renaming} {st st' : Store} (h : Paired .apart ρ st st') :
    st.lists.size ≤ st'.lists.size := by
  have hinj : Function.Injective fun i : Fin st.lists.size =>
      (⟨(ρ.list ⟨i⟩).index, h.list_lt ⟨i⟩ i.isLt⟩ : Fin st'.lists.size) := by
    intro i j he
    have hl : ρ.list ⟨i⟩ = ρ.list ⟨j⟩ := congrArg ListRef.mk (congrArg Fin.val he)
    have hr := (h.list_inj ⟨i⟩ ⟨j⟩ i.isLt j.isLt hl).resolve_right nofun
    exact Fin.ext (congrArg ListRef.index hr)
  simpa using Fintype.card_le_of_injective _ hinj

/-- What is known of the first of two steps that match can be used for what is done next. -/
theorem Step.Matched.bind_gives {σ τ α β γ δ : Type} {L : Link}
    {X Y : Renaming → Store → Store → Prop} {T : Renaming → Store → σ → τ → Prop}
    {R : Renaming → Store → α → β → Prop} {S : Renaming → Store → γ → δ → Prop}
    {Q : α → σ → Store → Prop} {a : Step σ α} {b : Step τ β} {f : α → Step σ γ} {g : β → Step τ δ}
    {s : σ} {t : τ} {st st' : Store} (h : Matched L X T R (a s st) (b t st'))
    (hg : a.Gives s st Q)
    (hXY : ∀ {ρ₁ : Renaming} {st₁ st₁' : Store}, X ρ₁ st₁ st₁' → Y ρ₁ st₁ st₁')
    (hf : ∀ {ρ₁ : Renaming} {st₁ st₁' : Store} {s₁ : σ} {t₁ : τ} {x : α} {y : β},
      Paired L ρ₁ st₁ st₁' → X ρ₁ st₁ st₁' → T ρ₁ st₁ s₁ t₁ → R ρ₁ st₁ x y → Q x s₁ st₁ →
      Matched L Y T S (f x s₁ st₁) (g y t₁ st₁')) :
    Matched L Y T S ((a >>= f) s st) ((b >>= g) t st') := by
  unfold Gives at hg
  rw [bind_apply, bind_apply]
  generalize a s st = out at h hg ⊢
  generalize b t st' = out' at h ⊢
  cases h with
  | ok hp hx ht hr => exact hf hp hx ht hr hg
  | error hp hx ht => exact .error hp (hXY hx) ht

namespace FrameStack

open LispEngines.Frame (Flow Handler Pauses Settles)

variable {ρ ρ₁ : Renaming} {st st' st₁ st₁' : Store} {m : FrameStack}

/-- The stack in the other store. -/
def rename (ρ : Renaming) (m : FrameStack) : FrameStack :=
  { m with
    top := m.top.rename ρ
    below := m.below.map (Frame.rename ρ)
    depth_eq := by rw [List.length_map]; exact m.depth_eq }

/-- The frames refer to nothing beyond the store. -/
structure Within (st : Store) (m : FrameStack) : Prop where
  top : m.top.Within false st
  below : ∀ f ∈ m.below, f.Within false st

/-- The second stack stands for the first one. -/
def StandsFor (ρ : Renaming) (st : Store) (m m' : FrameStack) : Prop :=
  m.Within st ∧ m' = m.rename ρ

theorem Sound.within (h : m.Sound false st) : m.Within st := ⟨h.top, h.below⟩

@[simp] theorem rename_isDone (ρ : Renaming) (m : FrameStack) :
    (m.rename ρ).isDone = m.isDone := by
  rw [isDone, isDone, rename, List.isEmpty_map]
  rfl

theorem rename_pop (ρ : Renaming) (m : FrameStack) : m.pop.rename ρ = (m.rename ρ).pop := by
  obtain ⟨top, _ | ⟨parent, below⟩, depth, steps, most, hd⟩ := m <;> rfl

/-! ## Steps -/

/-- The renamed stack does in the second store what the stack does in the first one. -/
def Repeats {α β : Type} (ρ : Renaming) (st st' : Store) (R : Renaming → Store → α → β → Prop)
    (x : Step FrameStack α) (y : Step FrameStack β) (m : FrameStack) : Prop :=
  Step.Matched .apart (Extends .apart ρ st st') StandsFor R (x m st) (y (m.rename ρ) st')

theorem follows_dispatchTop (h : Paired .apart ρ st st') (hm : m.Within st) :
    Repeats ρ st st' (Flow.StandsFor .apart) dispatchTop dispatchTop m := by
  obtain ⟨top, below, depth, steps, most, hd⟩ := m
  have ht : Frame.Within false st { top with steps := top.steps + 1 } := { hm.top with }
  have hf := Handler.follows_dispatch h ht
  unfold Handler.Follows at hf
  have hr : Frame.rename ρ { top with steps := top.steps + 1 } =
      { top.rename ρ with steps := (top.rename ρ).steps + 1 } := rfl
  rw [hr] at hf
  unfold Repeats
  simp only [dispatchTop, rename]
  generalize Handler.dispatch { top with steps := top.steps + 1 } st = out at hf ⊢
  generalize Handler.dispatch { top.rename ρ with steps := (top.rename ρ).steps + 1 } st' = out'
    at hf ⊢
  have hstack {ρ₁ : Renaming} {st₁ st₁' : Store} {f g : Frame}
      (hx : Extends .apart ρ st st' ρ₁ st₁ st₁') (hf : f.StandsFor .apart ρ₁ st₁ g) :
      StandsFor ρ₁ st₁ ⟨f, below, depth, steps + 1, most, hd⟩
        ⟨g, below.map (Frame.rename ρ), depth, steps + 1, most, by rw [List.length_map, hd]⟩ := by
    obtain ⟨hf, rfl⟩ := hf
    have hb : below.map (Frame.rename ρ₁) = below.map (Frame.rename ρ) :=
      List.map_congr_left fun f hf => hx.agree.rename_frame (hm.below f hf)
    refine ⟨⟨hf, fun f hf => (hm.below f hf).mono hx.grows⟩, ?_⟩
    simp only [rename, hb]
  cases hf with
  | ok hp hx hf hr => exact .ok hp hx (hstack hx hf) hr
  | error hp hx hf => exact .error hp hx (hstack hx hf)

theorem follows_runTop : ∀ (bound : Nat) {ρ : Renaming} {st st' : Store} {m : FrameStack},
    Paired .apart ρ st st' → m.Within st →
    Repeats ρ st st' (Flow.StandsFor .apart) (runTop bound) (runTop bound) m := by
  intro bound
  induction bound with
  | zero => exact fun h hm => .ok h (.refl _ _ _ _) ⟨hm, rfl⟩ ⟨trivial, rfl⟩
  | succ bound ih =>
    intro ρ st st' m h hm
    refine Step.Matched.bind (follows_dispatchTop h hm) id fun {_ _ _ m₁ _ flow _} h₁ hx hm₁ hf => ?_
    obtain ⟨hm₁, rfl⟩ := hm₁
    obtain ⟨hf, rfl⟩ := hf
    cases flow with
    | again => exact (ih h₁ hm₁).imp hx.trans
    | _ => exact .ok h₁ hx ⟨hm₁, rfl⟩ ⟨hf, rfl⟩

/-- The bound under which a step is computed is larger in the second store, and nothing comes of
that. -/
theorem follows_advanceTop (h : Paired .apart ρ st st') (hm : m.Sound false st)
    (hmet : m.top.Met) : Repeats ρ st st' (Flow.StandsFor .apart) advanceTop advanceTop m := by
  have hb : handlerBound st' = handlerBound st + 4 * (st'.lists.size - st.lists.size) := by
    have hl := h.lists_le
    rw [handlerBound, handlerBound]
    omega
  have hs : advanceTop m st = runTop (handlerBound st') m st := by
    rw [hb, runTop_add _ _ (Frame.settles_of_met hm.tidy hm.top hmet)]
    rfl
  unfold Repeats
  rw [hs]
  exact follows_runTop _ h hm.within

theorem follows_settle : ∀ (n : Nat) {ρ : Renaming} {st st' : Store} {m : FrameStack} {flow : Flow},
    m.below.length = n → Paired .apart ρ st st' → m.Sound false st → flow.Within false st →
    Pauses flow m.top →
    Repeats ρ st st' (fun _ _ _ _ => True) (settle n flow) (settle n (flow.rename ρ)) m := by
  intro n
  induction n with
  | zero =>
    intro ρ st st' m flow _ h hm hw hp
    cases hp with
    | done => exact .ok h (.refl _ _ _ _) ⟨hm.within, rfl⟩ trivial
    | stay => exact .ok h (.refl _ _ _ _) ⟨hm.within, rfl⟩ trivial
    | spawn hs hi =>
      exact .ok h (.refl _ _ _ _) ⟨(hm.push hw.1 hw.2 hs hi).within, rfl⟩ trivial
  | succ n ih =>
    intro ρ st st' m flow hn h hm hw hp
    cases hp with
    | stay => exact .ok h (.refl _ _ _ _) ⟨hm.within, rfl⟩ trivial
    | spawn hs hi =>
      exact .ok h (.refl _ _ _ _) ⟨(hm.push hw.1 hw.2 hs hi).within, rfl⟩ trivial
    | done hs hwt hr =>
      have hb : m.below ≠ [] := fun he => by rw [he] at hn; cases hn
      obtain ⟨hpop, hmet⟩ := hm.pop hb hr
      have hl : m.pop.below.length = n := by have := length_pop hb; omega
      have ha := follows_advanceTop h hpop hmet
      unfold Repeats at ha ⊢
      rw [rename_pop] at ha
      show Step.Matched _ _ _ _ ((advanceTop >>= settle n) m.pop st)
        ((advanceTop >>= settle n) (m.rename ρ).pop st')
      refine ha.bind_gives (gives_advanceTop hpop hmet) id fun h₁ hx hm₁ hf hq => ?_
      obtain ⟨-, rfl⟩ := hm₁
      obtain ⟨-, rfl⟩ := hf
      exact (ih (hq.2.1 ▸ hl) h₁ hq.1 hq.2.2.1 hq.2.2.2).imp hx.trans

/-- In paired stores, a stack and the renamed stack make the same step. -/
theorem follows_step (h : Paired .apart ρ st st') (hm : m.Sound false st) (hr : m.Rests) :
    Repeats ρ st st' (fun _ _ _ _ => True) step step m := by
  unfold Repeats
  rw [step, Step.get_bind, Step.get_bind, rename_isDone]
  cases hd : m.isDone with
  | true => exact .ok h (.refl _ _ _ _) ⟨hm.within, rfl⟩ trivial
  | false =>
    rw [if_neg Bool.false_ne_true, Step.get_bind]
    have hmet : m.top.Met := hr.met.resolve_right fun he => by
      rw [he.halted.1] at hd
      cases hd
    refine (follows_advanceTop h hm hmet).bind_gives (gives_advanceTop hm hmet) id
      fun h₁ hx hm₁ hf hq => ?_
    obtain ⟨-, rfl⟩ := hm₁
    obtain ⟨-, rfl⟩ := hf
    exact (follows_settle _ (by rw [hq.2.1, m.depth_eq, Nat.add_sub_cancel]) h₁ hq.1 hq.2.2.1
      hq.2.2.2).imp hx.trans

/-- In paired stores, a stack and the renamed stack run alike. -/
theorem follows_runFor : ∀ (budget : Nat) {ρ : Renaming} {st st' : Store} {m : FrameStack},
    Paired .apart ρ st st' → m.Sound false st → m.Rests →
    Repeats ρ st st' (fun _ _ a b => b = a) (runFor budget) (runFor budget) m := by
  intro budget
  induction budget with
  | zero => exact fun h hm _ => .ok h (.refl _ _ _ _) ⟨hm.within, rfl⟩ (rename_isDone ..)
  | succ budget ih =>
    intro ρ st st' m h hm hr
    unfold Repeats
    rw [runFor, Step.get_bind, Step.get_bind, rename_isDone]
    cases m.isDone with
    | true => exact .ok h (.refl _ _ _ _) ⟨hm.within, rfl⟩ rfl
    | false =>
      rw [if_neg Bool.false_ne_true]
      refine (follows_step h hm hr).bind_gives (gives_step hm hr) id fun h₁ hx hm₁ _ hq => ?_
      obtain ⟨-, rfl⟩ := hm₁
      exact (ih h₁ hq.1 hq.2).imp hx.trans

end FrameStack

end LispEngines
