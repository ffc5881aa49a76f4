import LispEngines.Proofs.Engines.Through
import LispEngines.Proofs.Machine.Abreast
import LispEngines.Proofs.Machine.Ending

/-!
# A sequence in the machine

The evaluator calls itself for every expression of a sequence but the last, from a frame of eight
slots, and evaluates the last one in this frame.  Two machines are put side by side here: one that
evaluates an expression and nothing else, and one that has come to this expression in a sequence,
on a stack larger by eight.  What the first one comes to, the second one comes to, or it goes on
with the sequence (`Abreast.ends_alone`, `ends_nested`, `ends_last`).

The main result is `Engine.EndsThrough.machine`: a machine with eight slots more on its stack comes
to the end of a sequence that its expressions come to.
-/

namespace LispEngines

namespace Machine.Evaluator

variable {empty : ListRef} {size size' n : Nat} {x : Value} {s : ScopeRef} {m m' : Machine}
  {st st' : Store} {r : Except Failure Value} {o o' : Return} {v v' : View}

/-! ## The end of a machine beside another one -/

/-- What becomes of the second of two machines when the first one comes to its end. -/
theorem Abreast.ends (hroom : size + o'.below.length ≤ size' + o.below.length)
    (hm : Shows (program empty) size m v) (hm' : Shows (program empty) size' m' v')
    (ha : Abreast empty size size' o o' v v') (he : EndsAs m st r st')
    (hr : ∀ f, r ≠ .error (.fault f)) :
    (∃ j m₁ m₁' mid t y a, EndsAs m₁ mid r st' ∧ Goes j m' st m₁' mid ∧
      Shows (program empty) size m₁ (returned o.pc o.base t y o.below a) ∧
      Shows (program empty) size' m₁' (returned o'.pc o'.base t y o'.below a)) ∨
    (∃ e, r = .error e) ∧ EndsAs m' st r st' := by
  cases he with
  | @finished k m₁ _ hg hf =>
    cases ha.run hroom hg hm hm' with
    | returned _ hg' hrest h h' => exact .inl ⟨_, _, _, _, _, _, _, .finished hrest hf, hg', h, h'⟩
    | @stopped m₁' text hg' _ ht hf' ht' =>
      have hsame : Engine.outcome m₁' m₁'.a = Engine.outcome m₁ m₁.a := by
        rw [Engine.outcome, Engine.outcome, ht, ht']
      exact .inr ⟨⟨.ofHalt text, by rw [Engine.outcome, ht]⟩, hsame ▸ .finished hg' hf'⟩
    | on _ h =>
      rw [h.running] at hf
      cases hf
  | @fails k m₁ m₂ st₁ _ e hg hf hs =>
    cases ha.run hroom hg hm hm' with
    | returned _ hg' hrest h h' => exact .inl ⟨_, _, _, _, _, _, _, .fails hrest hf hs, hg', h, h'⟩
    | stopped _ hf' =>
      rw [hf] at hf'
      cases hf'
    | @on m₁' _ _ hg' h h' ha' =>
      have hstep := ha'.step hroom h h' st₁
      rw [hs] at hstep
      generalize hs' : Machine.step m₁' st₁ = out at hstep
      cases hstep with
      | error => exact .inr ⟨⟨e, rfl⟩, .fails hg' h'.running hs'⟩
      | fault => exact absurd rfl (hr _)

/-- If the first one evaluates nothing else, the second one has the value where it goes on. -/
theorem Abreast.ends_alone {below : List Value} (hl : below.length = 4) (hsize : 4 ≤ size)
    (hroom : size + o'.below.length ≤ size' + 4) (hm : Shows (program empty) size m v)
    (hm' : Shows (program empty) size' m' v')
    (ha : Abreast empty size size' ⟨Block.mainValue.start, 0, below⟩ o' v v')
    (he : EndsAs m st r st') (hr : ∀ f, r ≠ .error (.fault f)) :
    (∃ j m₁ t y a, r = .ok a ∧ Goes j m' st m₁ st' ∧
      Shows (program empty) size' m₁ (returned o'.pc o'.base t y o'.below a)) ∨
    (∃ e, r = .error e) ∧ EndsAs m' st r st' := by
  have hroom' : size + o'.below.length ≤ size' + below.length := by rw [hl]; exact hroom
  obtain ⟨j, m₁, m₁', mid, t, y, a, he', hg, h, h'⟩ | h := ha.ends hroom' hm hm' he hr
  · obtain ⟨rfl, rfl⟩ := (endsAs_mainValue_iff hl hsize h).mp he'
    exact .inl ⟨j, m₁', t, y, a, rfl, hg, h'⟩
  · exact .inr h

/-! ## An expression alone and in a sequence -/

variable {f : Activation} {below : List Value} {a : Value}

/-- The machine is about to evaluate the expression of its outermost call. -/
structure Outermost (empty : ListRef) (size : Nat) (x : Value) (s : ScopeRef) (f : Activation)
    (below : List Value) (m : Machine) : Prop where
  shows : ∃ a, Shows (program empty) size m (f.view .evalTop [] below a)
  length : below.length = 4
  scope : f.scope = .scope s
  x : f.x = x
  returns : f.Returns size below Block.mainValue.start 0

/-- A machine that has been loaded is soon there. -/
theorem exists_outermost (empty : ListRef) (hsize : size < 2 ^ 63) (hroom : 14 ≤ size) (x : Value)
    (s : ScopeRef) (st : Store) : ∃ m k m₁ f below,
      Engine.loaded (program empty) size x s st = (.ok m, st) ∧ Goes k m st m₁ st ∧
        Outermost empty size x s f below m₁ := by
  obtain ⟨m, k, m₁, link, hm, hg, hs⟩ := exists_called empty hsize hroom x s st
  obtain ⟨j, m₂, _, hg', rfl, f, a, hscope, hx, hr, hs'⟩ := goes_of_reaches
    (entered (ready_unchecked empty (by simpa using hroom) st) (by decide)) (Nat.le_refl size) hs
  exact ⟨m, _, m₂, f, _, hm, hg.trans hg', ⟨a, hs'⟩, rfl, hscope, hx, hr⟩

/-- It has read the expression. -/
theorem goes_operand (st : Store)
    (hm : Shows (program empty) size m (f.view .evalTop [] below a)) :
    ∃ m₁, Goes 1 m st m₁ st ∧ Shows (program empty) size m₁ ⟨17, 4, f.cells below, f.x⟩ := by
  have hx : View.exec (program empty) size .load 3 ⟨17, 4, f.cells below, a⟩ st =
      some (.ok ⟨17, 4, f.cells below, f.x⟩, st) := by simp
  obtain ⟨m₀, hm₀, hstep⟩ := step_eq_execute st hm (codeAt empty .evalTop)
  have hexec := hm₀.execute hx
  generalize hout : execute .load 3 m₀ st = out at hexec
  cases hexec with
  | ok h => exact ⟨_, .head hm.running (hstep.trans hout) .refl, h⟩
  | overflow ho => cases ho

/-- In a sequence, an expression that is not the last one comes to the end that it comes to alone:
it fails, or its value is there and the sequence goes on. -/
theorem ends_nested (hsize : 14 ≤ size) (hlt : size + 8 < 2 ^ 63) (hl : below.length = 4)
    (hm : Shows (program empty) (size + 8) m
      (called Block.beginValue.start 4 (.scope s) x (f.cells below)))
    (he : Engine.Ends (.machine (program empty) size n) x s st r st')
    (hr : ∀ e, r ≠ .error (.fault e)) :
    (∃ j m₁ t y v, r = .ok v ∧ Goes j m st m₁ st' ∧
      Shows (program empty) (size + 8) m₁ (f.view .beginValue [t, y] below v)) ∨
    (∃ e, r = .error e) ∧ EndsAs m st r st' := by
  obtain ⟨m₀, k, m₁, link, hload, hg, hs⟩ := exists_called empty (by omega) hsize x s st
  have halone := ((Engine.machine_ends_iff hload).mp he).after hg
  have hbeside : Abreast empty size (size + 8)
      ⟨Block.mainValue.start, 0, [link, .scope s, x, .number 0]⟩
      ⟨Block.beginValue.start, 4, f.cells below⟩ _ _ := .entering (s := .scope s) (x := x)
    (a := .scope s) .outermost (show Block.mainValue.start < 2 ^ 63 by decide)
    (show Block.beginValue.start < 2 ^ 63 by decide)
  refine hbeside.ends_alone rfl (by omega) ?_ hs hm halone hr
  show size + (f.cells below).length ≤ size + 8 + 4
  simp only [Activation.cells, List.length_cons, hl]
  omega

/-- The last expression is evaluated in place of the sequence, as it is alone. -/
theorem ends_last (hsize : 14 ≤ size) (hlt : size + 8 < 2 ^ 63)
    (hm : Outermost empty (size + 8) x s f below m)
    (he : Engine.Ends (.machine (program empty) size n) x s st r st')
    (hr : ∀ e, r ≠ .error (.fault e)) : EndsAs m st r st' := by
  obtain ⟨m₀, k, m₁, f₀, below₀, hload, hg, h₀⟩ :=
    exists_outermost empty (by omega : size < 2 ^ 63) hsize x s st
  have halone := ((Engine.machine_ends_iff hload).mp he).after hg
  obtain ⟨a₀, hs₀⟩ := h₀.shows
  obtain ⟨a, hs⟩ := hm.shows
  obtain ⟨m₂, hg₂, hs₂⟩ := goes_operand st hs₀
  obtain ⟨m', hg', hs'⟩ := goes_operand st hs
  have hagree : Agree [false, false, false, false]
      [f₀.scratch, f₀.forms, f₀.args, f₀.callee] [f.scratch, f.forms, f.args, f.callee] :=
    .unknown _ _ (.unknown _ _ (.unknown _ _ (.unknown _ _ .nil)))
  have hleads : (⟨Block.mainValue.start, 0, below₀⟩ : Return).Leads size f₀.link f₀.back := h₀.returns
  have hleads' : (⟨Block.mainValue.start, 0, below⟩ : Return).Leads (size + 8) f.link f.back :=
    hm.returns
  have halike : Alike size (size + 8) ⟨Block.mainValue.start, 0, below₀⟩
      ⟨Block.mainValue.start, 0, below⟩ 17 [false, false, false, false]
      ⟨17, 4, f₀.cells below₀, x⟩ ⟨17, 4, f.cells below, x⟩ := by
    rw [Activation.cells, Activation.cells, h₀.scope, hm.scope, h₀.x, hm.x]
    exact .mk .outermost hleads hleads' hagree
  have hbeside : Abreast empty size (size + 8) _ _ _ _ :=
    .inside (codeAt_cons (codeAt empty .evalTop)).2.2 (by decide +kernel) halike
  rw [h₀.x] at hs₂
  rw [hm.x] at hs'
  refine .of_goes hg' ?_
  obtain ⟨j, m₃, t, y, v, rfl, hg₃, hs₃⟩ | ⟨-, h⟩ := hbeside.ends_alone h₀.length (by omega)
    (by rw [hm.length]; omega) hs₂ hs' (halone.after hg₂) hr
  · exact .of_goes hg₃ ((endsAs_mainValue_iff hm.length (by omega) hs₃).mpr ⟨rfl, rfl⟩)
  · exact h

/-! ## The sequence -/

/-- The machine is about to look at the expressions of a sequence that are still to come. -/
structure AtLoop (empty : ListRef) (size : Nat) (q : ListRef) (s : ScopeRef) (f : Activation)
    (below : List Value) (m : Machine) : Prop where
  shows : ∃ a, Shows (program empty) size m (f.view .beginLoop [] below a)
  length : below.length = 4
  forms : f.forms = .list q
  scope : f.scope = .scope s
  returns : f.Returns size below Block.mainValue.start 0

namespace AtLoop

variable {q : ListRef} {y : Value} {xs : List Value}

theorem ready (hm : AtLoop empty size q s f below m) {need height : Nat} (h : height + 4 ≤ need)
    (st : Store) : Ready (unchecked empty size need) empty (below.length + height) st :=
  ready_unchecked empty (by rw [hm.length]; omega) st

/-- With more than one expression to come, the first one is called. -/
theorem goes_called (hm : AtLoop empty size q s f below m) (hsize : 24 ≤ size)
    (hq : st.items q = x :: y :: xs) (hl : (x :: y :: xs).length < 2 ^ 63) :
    ∃ k m₁, Goes k m st m₁ st ∧ Shows (program empty) size m₁
      (called Block.beginValue.start 4 (.scope s) x (f.cells below)) := by
  obtain ⟨a, hs⟩ := hm.shows
  rw [← hm.scope]
  exact goes_of_comes (beginLoop_next (y := x) (hm.ready (Nat.le_refl 24) st) hm.forms
    (by rw [hq]; exact hl) (by rw [hq]; simp) (by rw [hq]; rfl)) hsize hs

/-- With one expression to come, it takes the place of the sequence. -/
theorem goes_outermost (hm : AtLoop empty size q s f below m) (hsize : 24 ≤ size)
    (hq : st.items q = [x]) : ∃ k m₁, Goes k m st m₁ st ∧
      Outermost empty size x s { f with x := x } below m₁ := by
  obtain ⟨a, hs⟩ := hm.shows
  obtain ⟨k, m₁, hg, hs₁⟩ := goes_of_comes (beginLoop_last (y := x)
    (hm.ready (by decide : 10 + 4 ≤ 24) st) hm.forms hq) hsize hs
  exact ⟨k, m₁, hg, ⟨x, hs₁⟩, hm.length, hm.scope, rfl, hm.returns⟩

end AtLoop

/-- **The loop over the expressions**: the machine comes to the end that they come to. -/
theorem endsAs_loop {xs : List Value}
    (h : (Engine.machine (program empty) size n).EndsThrough s xs st r st') (hsize : 16 ≤ size)
    (hlt : size + 8 < 2 ^ 63) (hr : ∀ e, r ≠ .error (.fault e)) (hl : xs.length < 2 ^ 63) :
    ∀ {m : Machine} {f : Activation} {below : List Value},
      AtLoop empty (size + 8) ⟨st.lists.size⟩ s f below m → EndsAs m (st.newList xs).2 r st' := by
  induction h with
  | @last x st _ _ h =>
    intro m f below hm
    obtain ⟨k, m₁, hg, h₁⟩ := hm.goes_outermost (by omega) (Store.items_newList_self st [x])
    exact .of_goes hg (ends_last (by omega) hlt h₁ h hr)
  | @failed x y xs st _ e h =>
    intro m f below hm
    obtain ⟨k, m₁, hg, hs⟩ := hm.goes_called (by omega) (Store.items_newList_self st _) hl
    obtain ⟨_, _, _, _, _, hv, -⟩ | ⟨-, he⟩ := ends_nested (by omega) hlt hm.length hs h hr
    · cases hv
    · exact .of_goes hg he
  | @next x y v xs st st₁ _ _ h hkept _ ih =>
    intro m f below hm
    obtain ⟨k, m₁, hg, hs⟩ := hm.goes_called (by omega) (Store.items_newList_self st _) hl
    obtain ⟨j, m₂, t, z, v', -, hg₂, hs₂⟩ | ⟨⟨e, he⟩, -⟩ :=
      ends_nested (by omega) hlt hm.length hs h nofun
    · -- the list that was put aside is as it was
      have hrest : (st₁.items ⟨st.lists.size⟩).drop 1 = y :: xs := by
        rw [hkept ⟨st.lists.size⟩ (Nat.le_refl _) (by simp [Engine.aside])]
        exact congrArg (List.drop 1) (Store.items_newList_self st (x :: y :: xs))
      obtain ⟨i, m₃, hg₃, hs₃⟩ := goes_of_comes (beginValue (v := v') (s := t) (x := z)
        (hm.ready (Nat.le_refl 24) st₁) hm.forms trivial) (by omega) hs₂
      rw [hrest] at hg₃
      have hloop := ih hr (Nat.lt_of_succ_lt hl)
        ⟨⟨_, hs₃⟩, hm.length, rfl, hm.scope, hm.returns⟩
      exact .of_goes hg (.of_goes hg₂ (.of_goes hg₃ hloop))
    · cases he

/-- A machine that has been loaded with a sequence soon looks at its expressions. -/
theorem exists_atLoop (empty : ListRef) (s : ScopeRef) {q : ListRef} {xs : List Value}
    (hsize : 24 ≤ size) (hlt : size < 2 ^ 63) (hq : st.items q = .symbol "begin" :: xs)
    (hl : xs.length + 1 < 2 ^ 63) :
    ∃ m k m₁ f below, Engine.loaded (program empty) size (.list q) s st = (.ok m, st) ∧
      Goes k m st m₁ (st.newList xs).2 ∧
        AtLoop empty size ⟨st.lists.size⟩ s f below m₁ := by
  obtain ⟨m, k, m₁, f, below, hm, hg, h₁⟩ :=
    exists_outermost empty hlt (by omega) (.list q) s st
  obtain ⟨a, hs⟩ := h₁.shows
  have hready (st : Store) : Ready (unchecked empty size 24) empty (below.length + 10) st :=
    ready_unchecked empty (by rw [h₁.length]; omega) _
  have hlen : (st.items q).length < 2 ^ 63 := by rw [hq]; exact hl
  have hrest : (st.items q).drop 1 = xs := by rw [hq]; rfl
  have hlist := evalTop_list (a := a) (hready st) h₁.x
  have hcons := evalList_cons (a := flag true) (hready st) h₁.x hlen (by rw [hq]; simp)
  have hfirst : (st.items q)[0]? = some (.symbol SpecialForm.sequence.keyword) := by rw [hq]; rfl
  have hkeyword := evalForm_keyword (a := .number (Int64.ofNat (st.items q).length)) (hready st) h₁.x
    hfirst
  have hbegin := formBegin (f := { f with scratch := .symbol SpecialForm.sequence.keyword })
    (a := flag true) (hready st) h₁.x trivial
  obtain ⟨j, m₂, hg₂, hs₂⟩ := goes_of_comes (((hlist.trans hcons).trans hkeyword).trans hbegin)
    hsize hs
  rw [hrest] at hg₂
  exact ⟨m, _, m₂, _, below, hm, hg.trans hg₂, ⟨_, hs₂⟩, h₁.length, rfl, h₁.scope, h₁.returns⟩

end Machine.Evaluator

namespace Engine

open Machine (EndsAs)
open Machine.Evaluator (program exists_atLoop endsAs_loop)

variable {empty : ListRef} {size n n' : Nat} {s : ScopeRef} {q : ListRef} {xs : List Value}
  {st st' : Store} {r : Except Failure Value}

/-- **A sequence in the machine**: with eight slots more on its stack it comes to the end that the
expressions of the sequence come to. -/
theorem EndsThrough.machine (h : (Engine.machine (program empty) size n).EndsThrough s xs st r st')
    (hsize : 16 ≤ size) (hlt : size + 8 < 2 ^ 63) (hr : ∀ e, r ≠ .error (.fault e))
    (hq : st.items q = .symbol "begin" :: xs) (hl : xs.length + 1 < 2 ^ 63) :
    Ends (.machine (program empty) (size + 8) n') (.list q) s st r st' := by
  obtain ⟨m, k, m₁, f, below, hm, hg, h₁⟩ :=
    exists_atLoop empty s (by omega : 24 ≤ size + 8) hlt hq hl
  exact (machine_ends_iff hm).mpr
    (.of_goes hg (endsAs_loop h hsize hlt hr (Nat.lt_of_succ_lt hl) h₁))

/-- A sequence without expressions comes to the empty list of the evaluator. -/
theorem machine_ends_bare (hsize : 24 ≤ size) (hlt : size < 2 ^ 63)
    (hq : st.items q = [.symbol "begin"]) :
    Ends (.machine (program empty) size n) (.list q) s st (.ok (.list empty)) (st.newList []).2 := by
  obtain ⟨m, k, m₁, f, below, hm, hg, h₁⟩ :=
    exists_atLoop empty s hsize hlt hq (by decide)
  obtain ⟨a, hs⟩ := h₁.shows
  obtain ⟨j, m₂, hg₂, hs₂⟩ := Machine.Evaluator.goes_of_comes
    (Machine.Evaluator.beginLoop_nil (a := a) (h₁.ready (by decide : 10 + 4 ≤ 24) _) h₁.returns
      h₁.forms (Store.items_newList_self st [])) hsize hs
  exact (machine_ends_iff hm).mpr (.of_goes hg (.of_goes hg₂
    ((Machine.Evaluator.endsAs_mainValue_iff h₁.length (by omega) hs₂).mpr ⟨rfl, rfl⟩)))

end Engine

end LispEngines
