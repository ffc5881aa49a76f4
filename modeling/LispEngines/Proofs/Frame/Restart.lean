import LispEngines.Proofs.Frame.Agree

/-!
# What a restarted frame remembers

A frame that comes to a tail position starts over with the new expression and keeps its
result field.  The question is whether the new evaluation can tell.  Here a stack whose
top frame has just started over is compared with the stack that has a new frame in its
place (`FrameStack.restarted`, `FrameStack.replaced`).

They do the same until the frame itself comes to the end of a sequence that has given it
no result, which happens only if the sequence has no forms.  There the restarted frame
gives the result it had before, and the new one an empty list.  So nobody can tell the two
apart exactly if that does not happen, or if the old result is an empty list
(`FrameStack.restarted_like_replaced_iff`).
-/

namespace LispEngines

namespace FrameStack

open LispEngines.Frame (Flow Handler Agree AtSequenceEnd)

/-! ## The evaluation of one frame -/

/-- Turns of the frame above `base` and of the frames that it starts, short of its end. -/
inductive Comes (base : List Frame) : FrameStack → Store → FrameStack → Store → Prop
  | refl {m : FrameStack} {st : Store} : Comes base m st m st
  | turn {m m₁ m₂ : FrameStack} {st st₁ st₂ : Store} {flow : Flow}
      (h : dispatchTop m st = ((.ok flow, m₁), st₁)) (hb : m.below = base → flow ≠ .done)
      (hr : Comes base (m₁.after flow) st₁ m₂ st₂) : Comes base m st m₂ st₂

/-- The evaluation of the frame above `base` ends in this way. -/
inductive Yields (base : List Frame) (m : FrameStack) (st : Store) :
    Except Failure Value → Store → Prop
  | value {m₁ m₂ : FrameStack} {st₁ st₂ : Store} {v : Value} (h : Comes base m st m₁ st₁)
      (hb : m₁.below = base) (hd : dispatchTop m₁ st₁ = ((.ok .done, m₂), st₂))
      (hr : m₂.top.result = some v) : Yields base m st (.ok v) st₂
  | failure {m₁ m₂ : FrameStack} {st₁ st₂ : Store} {e : Failure} (h : Comes base m st m₁ st₁)
      (hd : dispatchTop m₁ st₁ = ((.error e, m₂), st₂)) : Yields base m st (.error e) st₂

variable {base : List Frame} {m m' m₁ m₂ m₁' : FrameStack} {st st₁ st₂ : Store}

/-! ## Stacks that differ in one frame -/

/-- The results of two frames: both have found the same value, or the one has still the
result `r` and the other none. -/
def Residue (r : Option Value) (f g : Frame) : Prop :=
  (∃ v, f.result = some v ∧ g.result = some v) ∨ (f.result = r ∧ g.result = none)

/-- The stacks differ at most in what the frame above `base` remembers. -/
inductive Apart (base : List Frame) (r : Option Value) (m m' : FrameStack) : Prop
  | top (ha : Agree m.top m'.top) (hr : Residue r m.top m'.top) (hb : m.below = base)
      (hb' : m'.below = base)
  | above (frames : List Frame) {f g : Frame} (ht : m'.top = m.top)
      (hb : m.below = frames ++ f :: base) (hb' : m'.below = frames ++ g :: base)
      (ha : Agree f g) (hr : Residue r f g)

/-- The frame above `base` is at the end of a sequence and has found no value. -/
def AtEmptyEnd (base : List Frame) (m : FrameStack) : Prop :=
  m.below = base ∧ m.top.AtSequenceEnd ∧ m.top.result = none

/-- Two stacks have done the same in a turn. -/
inductive Follows (base : List Frame) (r : Option Value) (m : FrameStack) :
    (Except Failure Flow × FrameStack) × Store → (Except Failure Flow × FrameStack) × Store →
      Prop
  | fails {e : Failure} {m₁ m₁' : FrameStack} {st₁ : Store} :
      Follows base r m ((.error e, m₁), st₁) ((.error e, m₁'), st₁)
  | ends {m₁ m₁' : FrameStack} {st₁ : Store} {v : Value} (hb : m.below = base)
      (hr : m₁.top.result = some v) (hr' : m₁'.top.result = some v) :
      Follows base r m ((.ok .done, m₁), st₁) ((.ok .done, m₁'), st₁)
  | goes {flow : Flow} {m₁ m₁' : FrameStack} {st₁ : Store} (hb : m.below = base → flow ≠ .done)
      (h : Apart base r (m₁.after flow) (m₁'.after flow)) :
      Follows base r m ((.ok flow, m₁), st₁) ((.ok flow, m₁'), st₁)

variable {r : Option Value}

theorem ne_base {frames : List Frame} {f : Frame} : frames ++ f :: base ≠ base := by
  intro h
  have hl := congrArg List.length h
  rw [List.length_append, List.length_cons] at hl
  omega

theorem Apart.below_iff (h : Apart base r m m') : m.below = base ↔ m'.below = base := by
  cases h with
  | top _ _ hb hb' => exact ⟨fun _ => hb', fun _ => hb⟩
  | above frames _ hb hb' _ _ =>
    rw [hb, hb']
    exact ⟨fun h => absurd h ne_base, fun h => absurd h ne_base⟩

/-- At the end of a sequence a frame ends with the result it has. -/
theorem dispatch_sequenceEnd {f : Frame} {v : Value} (h : f.AtSequenceEnd)
    (hr : f.result = some v) :
    Handler.dispatch f st = ((.ok .done, { f with result := none }.finish v), st) := by
  obtain ⟨hs, hw, hb⟩ := h
  simp only [Handler.dispatch, Step.get_bind, hs, hw, Handler.sequence, hb, Step.modify_bind, hr]
  rfl

/-- A frame without a result ends with an empty list. -/
theorem dispatch_emptyEnd {f : Frame} (h : f.AtSequenceEnd) (hr : f.result = none) :
    Handler.dispatch f st =
      ((.ok .done, { f with result := none }.finish (.list (st.newList []).1)),
        (st.newList []).2) := by
  obtain ⟨hs, hw, hb⟩ := h
  simp only [Handler.dispatch, Step.get_bind, hs, hw, Handler.sequence, hb, Step.modify_bind, hr]
  rfl

/-- What has been found in a turn of the frame above `base` is the same in both stacks. -/
theorem follows_of_agree {flow : Flow} {f g : Frame} {n n' : Nat} (ha : Agree f g)
    (hr : Residue r f g) (hd : flow = .done → ∃ v, f.result = some v ∧ g.result = some v)
    (hb : m.below = base) (hb' : m'.below = base) :
    Follows base r m ((.ok flow, { m with top := f, steps := n }), st₁)
      ((.ok flow, { m' with top := g, steps := n' }), st₁) := by
  cases flow with
  | done =>
    obtain ⟨v, hf, hg⟩ := hd rfl
    exact .ends hb hf hg
  | again => exact .goes (by simp) (.top ha hr hb hb')
  | stay => exact .goes (by simp) (.top ha hr hb hb')
  | spawn x s =>
    subst hb
    refine .goes (by simp) (.above [] rfl rfl (congrArg _ hb') ?_ hr)
    exact { ha with wait := rfl, incoming := nofun }

/-- A turn of the frame above `base`, unless it is at the end of a sequence without a
value. -/
theorem turn_top (ha : Agree m.top m'.top) (hr : Residue r m.top m'.top) (hb : m.below = base)
    (hb' : m'.below = base) (he : r = none ∨ ¬ AtEmptyEnd base m') :
    Follows base r m (dispatchTop m st) (dispatchTop m' st) := by
  have ha' : Agree { m.top with steps := m.top.steps + 1 }
      { m'.top with steps := m'.top.steps + 1 } := { ha with incoming := ha.incoming }
  by_cases hend : m.top.AtSequenceEnd
  · have hend' : m'.top.AtSequenceEnd :=
      ⟨ha.stage.trans hend.1, ha.wait.trans hend.2.1, ha.body.trans hend.2.2⟩
    obtain ⟨v, hv, hv'⟩ | ⟨hv, hv'⟩ := hr
    · rw [dispatchTop_of_dispatch (dispatch_sequenceEnd hend hv),
        dispatchTop_of_dispatch (dispatch_sequenceEnd hend' hv')]
      exact .ends hb rfl rfl
    · obtain rfl := he.resolve_right fun h => h ⟨hb', hend', hv'⟩
      rw [dispatchTop_of_dispatch (dispatch_emptyEnd hend hv),
        dispatchTop_of_dispatch (dispatch_emptyEnd hend' hv')]
      exact .ends hb rfl rfl
  · have halike := Frame.dispatch_alike ha' hend st
    rcases hx : Handler.dispatch { m.top with steps := m.top.steps + 1 } st with ⟨x, st₁⟩
    rcases hy : Handler.dispatch { m'.top with steps := m'.top.steps + 1 } st with ⟨y, st₁'⟩
    rw [hx, hy] at halike
    cases halike with
    | fails =>
      rw [dispatchTop_of_dispatch hx, dispatchTop_of_dispatch hy]
      exact .fails
    | @finds flow f g _ v haf hf hg =>
      rw [dispatchTop_of_dispatch hx, dispatchTop_of_dispatch hy]
      exact follows_of_agree haf (.inl ⟨v, hf, hg⟩) (fun _ => ⟨v, hf, hg⟩) hb hb'
    | keeps hd haf hf hg =>
      rw [dispatchTop_of_dispatch hx, dispatchTop_of_dispatch hy]
      refine follows_of_agree haf ?_ (fun h => absurd h hd) hb hb'
      rw [Residue, hf, hg]
      exact hr

/-- A turn of a frame further up. -/
theorem turn_above (frames : List Frame) {f g : Frame} (ht : m'.top = m.top)
    (hb : m.below = frames ++ f :: base) (hb' : m'.below = frames ++ g :: base)
    (ha : Agree f g) (hr : Residue r f g) :
    Follows base r m (dispatchTop m st) (dispatchTop m' st) := by
  have hne : m.below ≠ base := by rw [hb]; exact ne_base
  rcases h : Handler.dispatch { m.top with steps := m.top.steps + 1 } st with ⟨⟨e | flow, f₁⟩, st₁⟩
  · rw [dispatchTop_of_dispatch h, dispatchTop_of_dispatch (ht ▸ h)]
    exact .fails
  rw [dispatchTop_of_dispatch h, dispatchTop_of_dispatch (ht ▸ h)]
  refine .goes (fun h => absurd h hne) ?_
  cases flow with
  | again => exact .above frames rfl hb hb' ha hr
  | stay => exact .above frames rfl hb hb' ha hr
  | spawn x s =>
    exact .above ({ f₁ with wait := .running } :: frames) rfl (congrArg _ hb) (congrArg _ hb') ha hr
  | done =>
    rcases frames with _ | ⟨parent, frames⟩
    · obtain ⟨htop, hbelow⟩ := pop_of_below (m := { m with top := f₁, steps := m.steps + 1 }) hb
      obtain ⟨htop', hbelow'⟩ :=
        pop_of_below (m := { m' with top := f₁, steps := m'.steps + 1 }) hb'
      refine .top ?_ ?_ hbelow hbelow'
      · rw [after, after, htop, htop']
        exact { ha with wait := rfl, incoming := fun _ => rfl }
      · rw [after, after, htop, htop']
        exact hr
    · obtain ⟨htop, hbelow⟩ := pop_of_below (m := { m with top := f₁, steps := m.steps + 1 }) hb
      obtain ⟨htop', hbelow'⟩ :=
        pop_of_below (m := { m' with top := f₁, steps := m'.steps + 1 }) hb'
      exact .above frames (htop'.trans htop.symm) hbelow hbelow' ha hr

theorem Apart.turn (st : Store) (h : Apart base r m m') (he : r = none ∨ ¬ AtEmptyEnd base m') :
    Follows base r m (dispatchTop m st) (dispatchTop m' st) := by
  cases h with
  | top ha hr hb hb' => exact turn_top ha hr hb hb' he
  | above frames ht hb hb' ha hr => exact turn_above frames ht hb hb' ha hr

/-- A frame at the end of a sequence ends. -/
theorem done_of_sequenceEnd {flow : Flow} (h : m.top.AtSequenceEnd)
    (hd : dispatchTop m st = ((.ok flow, m₁), st₁)) : flow = .done := by
  have hend : Frame.AtSequenceEnd { m.top with steps := m.top.steps + 1 } := h
  cases hr : m.top.result with
  | some v =>
    rw [dispatchTop_of_dispatch (dispatch_sequenceEnd hend hr)] at hd
    cases hd
    rfl
  | none =>
    rw [dispatchTop_of_dispatch (dispatch_emptyEnd hend hr)] at hd
    cases hd
    rfl

/-- What the first stack comes to the second comes to. -/
theorem Apart.comes (hc : Comes base m st m₁ st₁) : ∀ {m' : FrameStack}, Apart base r m m' →
    ∃ m₁', Comes base m' st m₁' st₁ ∧ Apart base r m₁ m₁' := by
  induction hc with
  | refl => intro m' h; exact ⟨m', .refl, h⟩
  | @turn m m₁ m₂ st st₁ st₂ flow hd hb _ ih =>
    intro m' h
    have he : ¬ AtEmptyEnd base m' := by
      rintro ⟨hb', hend, -⟩
      cases h with
      | top ha _ hbase _ =>
        exact hb hbase (done_of_sequenceEnd
          ⟨ha.stage ▸ hend.1, ha.wait ▸ hend.2.1, ha.body ▸ hend.2.2⟩ hd)
      | above frames _ _ hb'' _ _ => exact absurd (hb''.symm.trans hb') ne_base
    have hf := h.turn st (.inr he)
    rw [hd] at hf
    rcases hd' : dispatchTop m' st with ⟨⟨r', m₁'⟩, st₁'⟩
    rw [hd'] at hf
    cases hf with
    | ends hbase => exact absurd rfl (hb hbase)
    | goes _ ha =>
      obtain ⟨m₂', hc', ha'⟩ := ih ha
      exact ⟨m₂', .turn hd' (fun hbase => hb (h.below_iff.mpr hbase)) hc', ha'⟩

/-- What the second stack comes to the first comes to. -/
theorem Apart.comes_back (hc : Comes base m' st m₁' st₁) : ∀ {m : FrameStack}, Apart base r m m' →
    ∃ m₁, Comes base m st m₁ st₁ ∧ Apart base r m₁ m₁' := by
  induction hc with
  | refl => intro m h; exact ⟨m, .refl, h⟩
  | @turn m' m₁' m₂' st st₁ st₂ flow hd' hb _ ih =>
    intro m h
    have he : ¬ AtEmptyEnd base m' := fun he => hb he.1 (done_of_sequenceEnd he.2.1 hd')
    have hf := h.turn st (.inr he)
    rw [hd'] at hf
    rcases hd : dispatchTop m st with ⟨⟨r', m₁⟩, st₁'⟩
    rw [hd] at hf
    cases hf with
    | ends hbase => exact absurd rfl (hb (h.below_iff.mp hbase))
    | goes hb' ha =>
      obtain ⟨m₂, hc, ha'⟩ := ih ha
      exact ⟨m₂, .turn hd hb' hc, ha'⟩

/-! ## The end of an evaluation -/

/-- The turn of the stack ends the evaluation of the frame above `base`. -/
def Final (base : List Frame) (m : FrameStack) (st : Store) : Prop :=
  ∀ flow m' st', dispatchTop m st = ((.ok flow, m'), st') → m.below = base ∧ flow = .done

theorem Comes.unique (h : Comes base m st m₁ st₁) (hf : Final base m₁ st₁) :
    ∀ {m₂ st₂}, Comes base m st m₂ st₂ → Final base m₂ st₂ → m₂ = m₁ ∧ st₂ = st₁ := by
  induction h with
  | refl =>
    intro m₂ st₂ h' _
    cases h' with
    | refl => exact ⟨rfl, rfl⟩
    | turn hd hb _ => exact absurd (hf _ _ _ hd).2 (hb (hf _ _ _ hd).1)
  | turn hd hb _ ih =>
    intro m₂ st₂ h' hf'
    cases h' with
    | refl => exact absurd (hf' _ _ _ hd).2 (hb (hf' _ _ _ hd).1)
    | turn hd' _ hr' =>
      cases hd.symm.trans hd'
      exact ih hf hr' hf'

/-- The evaluation of a frame ends in one way only. -/
theorem Yields.unique {o o' : Except Failure Value} (h : Yields base m st o st₁)
    (h' : Yields base m st o' st₂) : o' = o ∧ st₂ = st₁ := by
  have final_of_done {m m₁ : FrameStack} {st st₁ : Store} (hb : m.below = base)
      (hd : dispatchTop m st = ((.ok .done, m₁), st₁)) : Final base m st := by
    intro flow _ _ hd'
    cases hd.symm.trans hd'
    exact ⟨hb, rfl⟩
  have final_of_error {m m₁ : FrameStack} {st st₁ : Store} {e : Failure}
      (hd : dispatchTop m st = ((.error e, m₁), st₁)) : Final base m st := by
    intro flow _ _ hd'
    cases hd.symm.trans hd'
  cases h with
  | value hc hb hd hr =>
    cases h' with
    | value hc' hb' hd' hr' =>
      obtain ⟨rfl, rfl⟩ := hc.unique (final_of_done hb hd) hc' (final_of_done hb' hd')
      cases hd.symm.trans hd'
      exact ⟨congrArg _ (Option.some.inj (hr'.symm.trans hr)), rfl⟩
    | failure hc' hd' =>
      obtain ⟨rfl, rfl⟩ := hc.unique (final_of_done hb hd) hc' (final_of_error hd')
      cases hd.symm.trans hd'
  | failure hc hd =>
    cases h' with
    | value hc' hb' hd' hr' =>
      obtain ⟨rfl, rfl⟩ := hc.unique (final_of_error hd) hc' (final_of_done hb' hd')
      cases hd.symm.trans hd'
    | failure hc' hd' =>
      obtain ⟨rfl, rfl⟩ := hc.unique (final_of_error hd) hc' (final_of_error hd')
      cases hd.symm.trans hd'
      exact ⟨rfl, rfl⟩

/-- The frame above `base` comes, with this store, to the end of a sequence before it has
found a value. -/
def MeetsEmptyEnd (base : List Frame) (m : FrameStack) (st st₁ : Store) : Prop :=
  ∃ m₁, Comes base m st m₁ st₁ ∧ AtEmptyEnd base m₁

theorem Apart.yields {o : Except Failure Value} (h : Apart base r m m')
    (hno : r = none ∨ ∀ st₁, ¬ MeetsEmptyEnd base m' st st₁) (hy : Yields base m st o st₂) :
    Yields base m' st o st₂ := by
  have he {m₁' : FrameStack} {st₁ : Store} (hc : Comes base m' st m₁' st₁) :
      r = none ∨ ¬ AtEmptyEnd base m₁' := hno.imp_right fun hno he => hno st₁ ⟨m₁', hc, he⟩
  cases hy with
  | @value m₁ m₂ st₁ _ v hc hb hd hr =>
    obtain ⟨m₁', hc', ha⟩ := h.comes hc
    have hf := ha.turn st₁ (he hc')
    rw [hd] at hf
    rcases hd' : dispatchTop m₁' st₁ with ⟨⟨x, m₂'⟩, st₁'⟩
    rw [hd'] at hf
    cases hf with
    | ends _ hv hv' => exact .value hc' (ha.below_iff.mp hb) hd' (hv'.trans (hv.symm.trans hr))
    | goes hb' _ => exact absurd rfl (hb' hb)
  | @failure m₁ m₂ st₁ _ e hc hd =>
    obtain ⟨m₁', hc', ha⟩ := h.comes hc
    have hf := ha.turn st₁ (he hc')
    rw [hd] at hf
    rcases hd' : dispatchTop m₁' st₁ with ⟨⟨x, m₂'⟩, st₁'⟩
    rw [hd'] at hf
    cases hf with
    | fails => exact .failure hc' hd'

theorem Apart.yields_back {o : Except Failure Value} (h : Apart base r m m')
    (hno : r = none ∨ ∀ st₁, ¬ MeetsEmptyEnd base m' st st₁) (hy : Yields base m' st o st₂) :
    Yields base m st o st₂ := by
  have he {m₁' : FrameStack} {st₁ : Store} (hc : Comes base m' st m₁' st₁) :
      r = none ∨ ¬ AtEmptyEnd base m₁' := hno.imp_right fun hno he => hno st₁ ⟨m₁', hc, he⟩
  cases hy with
  | @value m₁' m₂' st₁ _ v hc' hb' hd' hr' =>
    obtain ⟨m₁, hc, ha⟩ := h.comes_back hc'
    have hf := ha.turn st₁ (he hc')
    rw [hd'] at hf
    rcases hd : dispatchTop m₁ st₁ with ⟨⟨x, m₂⟩, st₁'⟩
    rw [hd] at hf
    cases hf with
    | ends hb hv hv' => exact .value hc hb hd (hv.trans (hv'.symm.trans hr'))
    | goes hb _ => exact absurd rfl (hb (ha.below_iff.mpr hb'))
  | @failure m₁' m₂' st₁ _ e hc' hd' =>
    obtain ⟨m₁, hc, ha⟩ := h.comes_back hc'
    have hf := ha.turn st₁ (he hc')
    rw [hd'] at hf
    rcases hd : dispatchTop m₁ st₁ with ⟨⟨x, m₂⟩, st₁'⟩
    rw [hd] at hf
    cases hf with
    | fails => exact .failure hc hd

/-- Where the one frame meets the end of a sequence without a value, it yields an empty
list, and the other its old result. -/
theorem Apart.old_result {w : Value} (h : Apart base (some w) m m')
    (hm : MeetsEmptyEnd base m' st st₁) :
    Yields base m st (.ok w) st₁ ∧
      Yields base m' st (.ok (.list (st₁.newList []).1)) (st₁.newList []).2 := by
  obtain ⟨m₁', hc', hb', hend', hr'⟩ := hm
  obtain ⟨m₁, hc, ha⟩ := h.comes_back hc'
  refine ⟨?_, .value hc' hb' (dispatchTop_of_dispatch (dispatch_emptyEnd hend' hr')) rfl⟩
  cases ha with
  | above frames _ _ hbelow _ _ => exact absurd (hbelow.symm.trans hb') ne_base
  | top ha hr hb _ =>
    have hend : m₁.top.AtSequenceEnd :=
      ⟨ha.stage ▸ hend'.1, ha.wait ▸ hend'.2.1, ha.body ▸ hend'.2.2⟩
    obtain ⟨v, -, hv⟩ | ⟨hw, -⟩ := hr
    · cases hr'.symm.trans hv
    · exact .value hc hb (dispatchTop_of_dispatch (dispatch_sequenceEnd hend hw)) rfl

/-! ## Starting over -/

/-- The stack whose top frame has started over. -/
def restarted (m : FrameStack) (x : Value) (t : Option ScopeRef) : FrameStack :=
  { m with top := m.top.restart x t }

/-- The stack with a new frame in place of the one on top. -/
def replaced (m : FrameStack) (x : Value) (t : Option ScopeRef) : FrameStack :=
  { m with top := { expr := x, scope := t.getD m.top.scope } }

/-- Two outcomes that no program can tell apart: they are the same, or both are empty lists
and the second is a new one. -/
def SameOutcome (o o' : Except Failure Value × Store) : Prop :=
  o' = o ∨ ∃ a, o.1 = .ok (.list a) ∧ o.2.items a = [] ∧
    o' = (.ok (.list (o.2.newList []).1), (o.2.newList []).2)

/-- The evaluation of the frame on top is the same in two stacks. -/
def SameYield (m m' : FrameStack) (st : Store) : Prop :=
  (∀ o, Yields m.below m st o.1 o.2 → ∃ o', Yields m'.below m' st o'.1 o'.2 ∧ SameOutcome o o') ∧
    ∀ o', Yields m'.below m' st o'.1 o'.2 → ∃ o, Yields m.below m st o.1 o.2 ∧ SameOutcome o o'

theorem apart_restarted (m : FrameStack) (x : Value) (t : Option ScopeRef) :
    Apart m.below m.top.result (m.restarted x t) (m.replaced x t) :=
  .top ⟨rfl, rfl, rfl, rfl, rfl, rfl, rfl, rfl, nofun⟩ (.inr ⟨rfl, rfl⟩) rfl rfl

/-- An old result other than an empty list shows. -/
theorem not_sameYield {x : Value} {t : Option ScopeRef} {w : Value} (hw : m.top.result = some w)
    (hm : MeetsEmptyEnd m.below (m.replaced x t) st st₁)
    (hne : ∀ a, w = .list a → st₁.items a ≠ []) :
    ¬ SameYield (m.restarted x t) (m.replaced x t) st := by
  rintro ⟨h, -⟩
  have ha := apart_restarted m x t
  rw [hw] at ha
  obtain ⟨hy, hy'⟩ := ha.old_result hm
  obtain ⟨⟨r', st'⟩, hy₁, hs⟩ := h (.ok w, st₁) hy
  obtain ⟨rfl, rfl⟩ := Yields.unique hy' hy₁
  obtain hs | ⟨a, hw', hi, -⟩ := hs
  · have hl : st₁.lists.size + 1 = st₁.lists.size := by
      simpa [Store.newList] using congrArg (fun o => o.2.lists.size) hs
    omega
  · exact hne a (Except.ok.inj hw') hi

/-- A frame that has started over does what a new frame in its place does, unless a sequence
without forms makes it give an old result other than an empty list; and then it does not. -/
theorem restarted_like_replaced_iff (m : FrameStack) (x : Value) (t : Option ScopeRef)
    (st : Store) :
    SameYield (m.restarted x t) (m.replaced x t) st ↔
      ∀ w st₁, m.top.result = some w → MeetsEmptyEnd m.below (m.replaced x t) st st₁ →
        ∃ a, w = .list a ∧ st₁.items a = [] := by
  have ha := apart_restarted m x t
  constructor
  · intro h w st₁ hw hm
    by_contra hne
    exact not_sameYield hw hm (fun a hwa hi => hne ⟨a, hwa, hi⟩) h
  · intro h
    by_cases hm : ∃ w st₁, m.top.result = some w ∧ MeetsEmptyEnd m.below (m.replaced x t) st st₁
    · obtain ⟨w, st₁, hw, hm⟩ := hm
      obtain ⟨a, rfl, hi⟩ := h w st₁ hw hm
      rw [hw] at ha
      obtain ⟨hy, hy'⟩ := ha.old_result hm
      constructor
      · rintro ⟨r, st'⟩ hr
        obtain ⟨rfl, rfl⟩ := Yields.unique hy hr
        exact ⟨(.ok (.list (Store.newList _ []).1), (Store.newList _ []).2), hy',
          .inr ⟨a, rfl, hi, rfl⟩⟩
      · rintro ⟨r, st'⟩ hr
        obtain ⟨rfl, rfl⟩ := Yields.unique hy' hr
        exact ⟨(.ok (.list a), st₁), hy, .inr ⟨a, rfl, hi, rfl⟩⟩
    · have hno : m.top.result = none ∨ ∀ st₁, ¬ MeetsEmptyEnd m.below (m.replaced x t) st st₁ := by
        cases hw : m.top.result with
        | none => exact .inl rfl
        | some w => exact .inr fun st₁ h => hm ⟨w, st₁, hw, h⟩
      exact ⟨fun o hy => ⟨o, ha.yields hno hy, .inl rfl⟩,
        fun o hy => ⟨o, ha.yields_back hno hy, .inl rfl⟩⟩

/-- A store with the list `(begin 1 (begin))`. -/
def bareSequenceStore : Store where
  lists := #[[.symbol "begin", .number 1, .list ⟨1⟩], [.symbol "begin"]]
  scopes := #[{}]

/-- The evaluation of `(begin 1 (begin))` starts its frame over with `(begin)`, and what this
frame yields is not what a new one would. -/
theorem restarted_unlike_replaced_in_bare_sequence :
    ∃ m, Turns 5 (start (.list ⟨0⟩) ⟨0⟩) bareSequenceStore m bareSequenceStore ∧
      m.top.stage = .sequence ∧ m.top.wait = .ready ∧ m.top.body = [.list ⟨1⟩] ∧
      ¬ SameYield (m.restarted (.list ⟨1⟩) none) (m.replaced (.list ⟨1⟩) none)
        bareSequenceStore := by
  have hh {m : FrameStack} (h : (!m.isDone) = true) : ¬ m.Halted := by
    rintro ⟨hd, -⟩
    rw [hd] at h
    cases h
  refine ⟨_, .head (hh rfl) rfl (.head (hh rfl) rfl (.head (hh rfl) rfl (.head (hh rfl) rfl
    (.head (hh rfl) rfl .refl)))), rfl, rfl, rfl, ?_⟩
  exact not_sameYield (w := .number 1) rfl
    ⟨_, .turn rfl (by simp) (.turn rfl (by simp) .refl), rfl, ⟨rfl, rfl, rfl⟩, rfl⟩ nofun

end FrameStack

end LispEngines
