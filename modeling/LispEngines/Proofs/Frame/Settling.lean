import LispEngines.Proofs.Frame.Phase
import LispEngines.Proofs.Frame.Stack

/-!
# How long a frame works within a step

A step runs handlers of a frame as long as they ask to go on at once.  `Frame.Settles` bounds
their number.  A frame that looks into a list goes on with an element of it, so in a tidy
store the rank of the list falls, and three handlers are enough for each rank.  Only a call
leads to an unrelated list, the body of the procedure, and no second call can follow within
the step.  Hence the bound under which a step is computed is never used up
(`Frame.settles_of_met`), and a larger bound changes nothing (`FrameStack.runTop_add`).
-/

namespace LispEngines

/-! ## How many lists an action makes -/

namespace Action

variable {α β : Type}

/-- The action makes at most `n` lists. -/
def Makes (n : Nat) (a : Action α) : Prop :=
  ∀ st : Store, (a st).2.lists.size ≤ st.lists.size + n

namespace Makes

theorem reads {a : Action α} (h : ∀ st, (a st).2 = st) : Makes 0 a := fun st => by rw [h]; rfl

theorem mono {n m : Nat} {a : Action α} (h : Makes n a) (hm : n ≤ m) : Makes m a := fun st =>
  Nat.le_trans (h st) (Nat.add_le_add_left hm _)

theorem bind {n m : Nat} {a : Action α} {f : α → Action β} (ha : Makes n a)
    (hf : ∀ v, Makes m (f v)) : Makes (n + m) (a >>= f) := by
  intro st
  have hn := ha st
  rcases h : a st with ⟨e | v, st₁⟩ <;> rw [h] at hn
  · rw [bind_error h]
    exact Nat.le_trans hn (by omega)
  · rw [bind_ok h]
    have hm := hf v st₁
    dsimp only at hn
    omega

theorem newList (vs : List Value) : Makes 1 (newList vs) := fun st => by
  show (st.newList vs).2.lists.size ≤ _
  simp

theorem keyText (v : Value) : Makes 0 (keyText v) := reads fun st => by
  rw [Action.keyText]
  split <;> rfl

theorem bindAll (s : ScopeRef) : ∀ names values : List Value, Makes 0 (bindAll s names values)
  | [], _ => reads fun _ => rfl
  | _ :: _, [] => reads fun _ => rfl
  | name :: names, _ :: values =>
    (keyText name).bind fun _ => bind (n := 0) (fun _ => Nat.le_refl _) fun _ =>
      bindAll s names values

theorem bindParameters (params : Value) (args : List Value) (parent : ScopeRef) :
    Makes 1 (bindParameters params args parent) := by
  refine bind (n := 0) (m := 1) (fun _ => Nat.le_refl _) fun s => ?_
  cases params with
  | symbol name =>
    exact (newList args).bind (m := 0) fun _ => bind (n := 0) (fun _ => Nat.le_refl _) fun _ =>
      reads fun _ => rfl
  | list r =>
    refine bind (n := 0) (m := 1) (reads fun _ => rfl) fun st => ?_
    dsimp only
    have hb := (bindAll s (st.items r) args).bind (m := 0) (f := fun _ => (pure s : Action ScopeRef))
      fun _ => reads fun _ => rfl
    split
    · exact bind (n := 0) (m := 1) (reads fun _ => rfl) fun _ => hb.mono (Nat.zero_le 1)
    · exact hb.mono (Nat.zero_le 1)
  | _ => exact (reads fun _ => rfl).mono (Nat.zero_le 1)

theorem part (c : Closure) (i : Nat) : Makes 1 (c.part i) := by
  refine bind (n := 0) (m := 1) (reads fun _ => rfl) fun st => ?_
  cases c.part? st i with
  | some v => exact (reads fun _ => rfl).mono (Nat.zero_le 1)
  | none => exact newList []

theorem callScope (c : Closure) (args : List Value) : Makes 2 (Classic.callScope c args) :=
  (part c 1).bind fun _ => bindParameters _ args c.scope

theorem selected (items : List Value) (test : Value) : Makes 1 (SpecialForm.selected items test) := by
  rw [SpecialForm.selected]
  split
  · rw [SpecialForm.operand]
    split <;> exact (reads fun _ => rfl).mono (Nat.zero_le 1)
  · split
    · exact (reads fun _ => rfl).mono (Nat.zero_le 1)
    · exact newList []

end Makes

end Action

namespace Frame

open Handler

variable {strict : Bool} {st st' : Store} {f f' : Frame}

/-- What a handler leaves behind is tidy if what it found was. -/
theorem tidy_dispatch (ht : st.Tidy strict) (hf : f.Within strict st) {r : Except Failure Flow}
    (h : dispatch f st = ((r, f'), st')) :
    st'.Tidy strict ∧ st.Grows st' ∧ f'.Within strict st' ∧
      ∀ flow, r = .ok flow → flow.Within strict st' := by
  have hm := follows_dispatch (Paired.refl (L := .same strict) ht rfl) hf
  unfold Follows at hm
  rw [h] at hm
  generalize dispatch (f.rename .id) st = out at hm
  cases hm with
  | ok hp hx hf' hr => exact ⟨hp.tidy rfl, hx.grows, hf'.1, fun _ he => by cases he; exact hr.1⟩
  | error hp hx hf' => exact ⟨hp.tidy rfl, hx.grows, hf'.1, nofun⟩

/-- Of so many handlers of the frame, run one after another, one does not ask to go on. -/
def Settles : Nat → Frame → Store → Prop
  | 0, _, _ => False
  | n + 1, f, st => ∀ f₁ st₁, dispatch { f with steps := f.steps + 1 } st = ((.ok .again, f₁), st₁) →
      Settles n f₁ st₁

theorem Settles.mono : ∀ {n m : Nat} {f : Frame} {st : Store}, Settles n f st → n ≤ m → Settles m f st
  | 0, _, _, _, h, _ => h.elim
  | n + 1, m, f, st, h, hm => by
    obtain ⟨m, rfl⟩ : ∃ k, m = k + 1 := ⟨m - 1, by omega⟩
    exact fun f₁ st₁ hd => (h f₁ st₁ hd).mono (by omega)

theorem settles_of_goes {n : Nat}
    (h : Goes dispatch { f with steps := f.steps + 1 } st (Settles n)) : Settles (n + 1) f st := by
  intro f₁ st₁ hd
  exact ((Step.Gives.of_ok h hd).resolve_left fun hp => hp.ne_again rfl).2

section

variable {rank : ListRef → Nat}

/-- Only a list is looked into, and what is found there ranks below it. -/
theorem settles_enter (hd : st.Descends rank) : ∀ (k : Nat) {f : Frame}, f.stage = .enter →
    f.wait = .ready → f.incoming = none → (∀ r, f.expr = .list r → rank r < k) →
    Settles (3 * k + 1) f st := by
  intro k
  induction k with
  | zero =>
    intro f hs hw _ hk
    refine settles_of_goes (.get ?_)
    dsimp only
    rw [hs, hw]
    exact goes_enter fun r hr _ => absurd (hk r hr) (Nat.not_lt_zero _)
  | succ k ih =>
    intro f hs hw hi hk
    refine settles_of_goes (.get ?_)
    dsimp only
    rw [hs, hw]
    refine goes_enter fun r hr hne => ?_
    -- the list is told from a call
    refine settles_of_goes (.get (goes_builtin hi ?_ ?_))
    · exact settles_of_goes (.get (goes_operator rfl hi))
    · -- a sequence goes on with its last form
      refine settles_of_goes (.get ?_)
      refine goes_sequence rfl hi fun x hx => ih rfl rfl hi fun q hq => ?_
      have hr' : f.expr = .list r := hr
      have hm : x ∈ st.items r := by
        have hx' : x ∈ (f.expr.items st).drop 1 := hx
        rw [items_of_list hr'] at hx'
        exact List.mem_of_mem_drop hx'
      have hlt := hd r x hm q (by rw [show x = .list q from hq]; rfl)
      have hlt' := hk r hr'
      omega

end

/-- What a handler leaves behind may be taken to be tidy. -/
theorem settles_of_tidy {n : Nat} (ht : st.Tidy strict) (hf : f.Within strict st)
    (h : Goes dispatch { f with steps := f.steps + 1 } st fun f₁ st₁ =>
      st₁.Tidy strict → f₁.Within strict st₁ → Settles n f₁ st₁) : Settles (n + 1) f st := by
  intro f₁ st₁ hd
  obtain ⟨ht₁, -, hf₁, -⟩ := tidy_dispatch ht (f := { f with steps := f.steps + 1 }) { hf with } hd
  exact ((Step.Gives.of_ok h hd).resolve_left fun hp => hp.ne_again rfl).2 ht₁ hf₁

/-- A frame that starts over after at most `n` new lists. -/
theorem settles_restart {n : Nat} (hn : st'.lists.size ≤ st.lists.size + n) {x : Value}
    {t : Option ScopeRef} (hi : f.incoming = none) (ht : st'.Tidy strict)
    (hf : (f.restart x t).Within strict st') :
    Settles (3 * (st.lists.size + n) + 1) (f.restart x t) st' := by
  obtain ⟨rank, hd, hr⟩ := ht.ranked
  have h := settles_enter (f := f.restart x t) hd st'.lists.size rfl rfl hi fun r hx =>
    hr r (hf.expr.below.list r (by rw [hx]; rfl))
  exact h.mono (by omega)

theorem settles_apply (hs : f.stage = .apply) (hw : f.wait = .ready) (hi : f.incoming = none)
    (ht : st.Tidy strict) (hf : f.Within strict st) : Settles (3 * st.lists.size + 11) f st := by
  refine settles_of_tidy ht hf (.get ?_)
  dsimp only
  rw [hs, hw]
  refine goes_apply hi fun {c args t x st₁ st₂} hc hb => settles_restart (n := 3) ?_ hi
  have hc' := Action.Makes.callScope c args st
  have hb' := Action.Makes.part c 2 st₁
  rw [hc] at hc'
  rw [show c.part 2 st₁ = (.ok x, st₂) from hb] at hb'
  dsimp only at hc' hb'
  omega

theorem settles_operands (hs : f.stage = .operands) (hw : f.wait = .ready) (hi : f.incoming = none)
    (ht : st.Tidy strict) (hf : f.Within strict st) : Settles (3 * st.lists.size + 12) f st := by
  refine settles_of_tidy ht hf (.get ?_)
  dsimp only
  rw [hs, hw]
  exact goes_operands rfl hi (settles_apply rfl rfl hi)

theorem settles_sequence (hs : f.stage = .sequence) (hw : f.wait = .ready)
    (hi : f.incoming = none) (ht : st.Tidy strict) (hf : f.Within strict st) :
    Settles (3 * st.lists.size + 2) f st := by
  refine settles_of_tidy ht hf (.get ?_)
  dsimp only
  rw [hs, hw]
  exact goes_sequence rfl hi fun x _ => settles_restart (n := 0) (Nat.le_refl _) hi

/-- A frame that a handler can be run on comes to a stop under the bound of a step. -/
theorem settles_of_met (ht : st.Tidy strict) (hf : f.Within strict st) (hm : f.Met) :
    Settles (FrameStack.handlerBound st) f st := by
  have hb : FrameStack.handlerBound st = 4 * st.lists.size + 16 := rfl
  rcases hm with ⟨hs, hw, hi⟩ | @⟨hs, hw, v, hi⟩ <;> cases hg : f.stage <;> rw [hg] at hs <;>
    try exact hs.elim
  case ready.enter =>
    obtain ⟨rank, hd, hr⟩ := ht.ranked
    refine (settles_enter hd st.lists.size hg hw hi fun r hx => hr r ?_).mono (by omega)
    exact hf.expr.below.list r (by rw [hx]; rfl)
  case ready.builtin =>
    refine (settles_of_tidy (n := 3 * st.lists.size + 2) ht hf (.get ?_)).mono (by omega)
    dsimp only
    rw [hg, hw]
    refine goes_builtin hi (fun _ _ => ?_) (settles_sequence rfl rfl hi)
    exact Settles.mono (n := 1) (settles_of_goes (.get (goes_operator rfl hi))) (by omega)
  case ready.sequence => exact (settles_sequence hg hw hi ht hf).mono (by omega)
  case ready.operator =>
    refine (settles_of_goes (n := 0) (.get ?_)).mono (by omega)
    dsimp only
    rw [hg, hw]
    exact goes_operator rfl hi
  case ready.operands => exact (settles_operands hg hw hi ht hf).mono (by omega)
  case ready.apply => exact (settles_apply hg hw hi ht hf).mono (by omega)
  case ended.sequence =>
    refine (settles_of_goes (n := 0) (.get ?_)).mono (by omega)
    dsimp only
    rw [hg, hw]
    exact goes_sequenceEnded rfl hi
  case ended.branchTest =>
    refine (settles_of_tidy (n := 3 * (st.lists.size + 1) + 1) ht hf (.get ?_)).mono (by omega)
    dsimp only
    rw [hg, hw]
    refine goes_branchEnded hi fun {x st₁} hx => settles_restart ?_ rfl
    have hn := Action.Makes.selected (f.expr.items st) v st
    rw [show SpecialForm.selected (f.expr.items st) v st = (.ok x, st₁) from hx] at hn
    exact hn
  case ended.define =>
    refine (settles_of_goes (n := 0) (.get ?_)).mono (by omega)
    dsimp only
    rw [hg, hw]
    exact goes_defineEnded hi
  case ended.operator =>
    refine (settles_of_tidy (n := 3 * st.lists.size + 12) ht hf (.get ?_)).mono (by omega)
    dsimp only
    rw [hg, hw]
    refine goes_operatorEnded hi fun f₁ hs₁ hw₁ hi₁ ht₁ hf₁ => ?_
    rcases hs₁ with hs₁ | hs₁
    · exact (settles_apply hs₁ hw₁ hi₁ ht₁ hf₁).mono (by omega)
    · exact settles_operands hs₁ hw₁ hi₁ ht₁ hf₁
  case ended.operands =>
    refine (settles_of_tidy (n := 3 * st.lists.size + 12) ht hf (.get ?_)).mono (by omega)
    dsimp only
    rw [hg, hw]
    exact goes_operandEnded hi (settles_operands rfl rfl rfl)
  case ended.expand =>
    refine (settles_of_tidy (n := 3 * (st.lists.size + 0) + 1) ht hf (.get ?_)).mono (by omega)
    dsimp only
    rw [hg, hw]
    exact goes_expansionEnded hi (settles_restart (Nat.le_refl _) rfl)

end Frame

/-! ## The bound of a step -/

namespace FrameStack

open LispEngines.Frame (Flow Settles Handler)

theorem runTop_succ (bound : Nat) (m : FrameStack) (st : Store) :
    runTop (bound + 1) m st = match dispatchTop m st with
      | ((.ok .again, m₁), st₁) => runTop bound m₁ st₁
      | out => out := by
  rw [runTop, Step.bind_apply]
  rcases dispatchTop m st with ⟨⟨e | flow, m₁⟩, st₁⟩
  · rfl
  · cases flow <;> rfl

/-- A bound that is not used up may as well be larger. -/
theorem runTop_add : ∀ (n k : Nat) {m : FrameStack} {st : Store}, Settles n m.top st →
    runTop (n + k) m st = runTop n m st
  | 0, _, _, _, h => h.elim
  | n + 1, k, m, st, h => by
    rw [Nat.add_right_comm, runTop_succ, runTop_succ]
    rcases hd : dispatchTop m st with ⟨⟨e | flow, m₁⟩, st₁⟩
    · rfl
    · cases flow with
      | again => exact runTop_add n k (h m₁.top st₁ (dispatch_of_dispatchTop hd))
      | _ => rfl

end FrameStack

end LispEngines
