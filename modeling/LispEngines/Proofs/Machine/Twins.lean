import LispEngines.Proofs.Course.Basic
import LispEngines.Proofs.Machine.Boundary
import LispEngines.Proofs.Store.Following

/-!
# A course on the stack of the evaluator

The evaluator program has the levels of a course on the stack of the machine, a frame of
`eval` for each.  Here is what such a stack looks like.

The machine and the recursive engine do not do the same to their stores.  The machine
collects arguments in a list of its own, it cuts tails off lists of forms, it gives each
closure a scope that it replaces at once, and it has one empty list where the recursive
engine makes new ones.  So their stores are `Twins`, the same up to a renaming, and an
argument list is private: it stands for nothing, so nothing else can refer to it.

* `Twins`, `Pursues`: two such stores, and what has become of them.
* `Waits`: what the frame of a level holds while a nested evaluation is active.
* `Stacked`: the frames of all levels.
* `At`: the machine is where the course is.
-/

namespace LispEngines

/-- No list is longer than the machine can count. -/
def Store.Fits (st : Store) : Prop := ∀ r, (st.items r).length < 2 ^ 63

theorem Store.fits_of_lt {st : Store}
    (h : ∀ r : ListRef, r.index < st.lists.size → (st.items r).length < 2 ^ 63) : st.Fits := by
  intro r
  by_cases hr : r.index < st.lists.size
  · exact h r hr
  · rw [Store.items_of_le (Nat.le_of_not_lt hr)]
    decide

theorem Store.fits_of_all {st : Store} (h : st.lists.all (·.length < 2 ^ 63) = true) : st.Fits :=
  fits_of_lt fun r hr => by
    have hl := Array.all_eq_true.mp h r.index hr
    rw [Store.items, Array.getD_eq_getD_getElem?, Array.getElem?_eq_getElem hr]
    simpa using hl

theorem Store.Fits.of_keepsLists {st st₁ : Store} (h : st₁.Fits) (hk : st.KeepsLists st₁) :
    st.Fits :=
  fits_of_lt fun r hr => hk.items_eq r hr ▸ h r

/-- If no list of the second store is too long, none of the first one is. -/
theorem Paired.fits {L : Link} {ρ : Renaming} {st st' : Store} (h : Paired L ρ st st')
    (hfit : st'.Fits) : st.Fits :=
  Store.fits_of_lt fun r hr => by
    have hlt := hfit (ρ.list r)
    rwa [h.items r hr, List.length_map] at hlt

namespace Machine.Evaluator

/-! ## Twins -/

/-- The second store is the first one under a renaming, nothing in it refers to what stands
for nothing, and the empty list of the program is one. -/
structure Twins (empty : ListRef) (ρ : Renaming) (st st' : Store) : Prop where
  paired : Paired (.same true) ρ st st'
  covered : Covered (.same true) ρ st st'
  nil : ∃ q : ListRef, q.index < st.lists.size ∧ st.items q = [] ∧ ρ.list q = empty

/-- Twins have become other twins, and the first store has grown. -/
structure Pursues (empty : ListRef) (ρ : Renaming) (st st' : Store) (ρ₁ : Renaming)
    (st₁ st₁' : Store) : Prop where
  twins : Twins empty ρ₁ st₁ st₁'
  carries : Carries ρ st st' ρ₁ st₁ st₁'
  grows : st.Grows st₁

variable {empty : ListRef} {ρ ρ₁ ρ₂ : Renaming} {st st' st₁ st₁' st₂ st₂' : Store}

theorem Twins.refl (ht : st.Tidy true) (hl : empty.index < st.lists.size)
    (hi : st.items empty = []) : Twins empty .id st st where
  paired := .refl ht rfl
  covered :=
    { items := fun r w hw => ⟨w, ht.items r w hw, (Value.rename_id w).symm⟩
      bindings := fun s b hb => ⟨b.2, ht.bindings s b hb, (Value.rename_id b.2).symm⟩
      parent_lt := ht.parent_lt }
  nil := ⟨empty, hl, hi, rfl⟩

theorem Twins.nil_of_grows (h : Twins empty ρ st st') (hg : st.Grows st₁) (ha : ρ.Agree st ρ₁) :
    ∃ q : ListRef, q.index < st₁.lists.size ∧ st₁.items q = [] ∧ ρ₁.list q = empty := by
  obtain ⟨q, hq, hi, he⟩ := h.nil
  exact ⟨q, Nat.lt_of_lt_of_le hq hg.lists.size_le, (hg.lists.items_eq q hq).trans hi,
    (ha.list q hq).trans he⟩

namespace Pursues

theorem refl (h : Twins empty ρ st st') : Pursues empty ρ st st' ρ st st' :=
  ⟨h, .refl ρ st st', .refl st⟩

theorem trans (h : Pursues empty ρ st st' ρ₁ st₁ st₁') (h' : Pursues empty ρ₁ st₁ st₁' ρ₂ st₂ st₂') :
    Pursues empty ρ st st' ρ₂ st₂ st₂' :=
  ⟨h'.twins, h.carries.trans h'.carries, h.grows.trans h'.grows⟩

/-- What an action of both engines has done. -/
theorem of_extends (h : Twins empty ρ st st') (hp : Paired (.same true) ρ₁ st₁ st₁')
    (hx : LispEngines.Extends (.same true) ρ st st' ρ₁ st₁ st₁') : Pursues empty ρ st st' ρ₁ st₁ st₁' :=
  ⟨⟨hp, hx.covered h.covered, h.nil_of_grows hx.grows hx.agree⟩, hx.toCarries, hx.grows⟩

/-- The recursive engine makes an empty list, and the machine has one. -/
theorem newNil (h : Twins empty ρ st st') : ∃ ρ₁,
    Pursues empty ρ st st' ρ₁ (st.newList []).2 st' ∧ ρ₁.list ⟨st.lists.size⟩ = empty := by
  obtain ⟨q, hq, hi, he⟩ := h.nil
  exact ⟨_, of_extends h (h.paired.newNil rfl hq hi) (.addList [] (.inr ⟨q, hq, rfl⟩)),
    (if_pos rfl).trans he⟩

/-- The machine makes a list of its own. -/
theorem newList (h : Twins empty ρ st st') {vs : List Value} (hv : ∀ v ∈ vs, v.Within true st) :
    Pursues empty ρ st st' ρ st (st'.newList (vs.map (Value.rename ρ))).2 :=
  of_extends h (h.paired.newList_right _) (.newList_right (.same true) ρ st fun w hw => by
    obtain ⟨v, hm, rfl⟩ := List.mem_map.mp hw
    exact ⟨v, hv v hm, rfl⟩)

/-- The machine makes a scope of its own. -/
theorem newScope (h : Twins empty ρ st st') :
    Pursues empty ρ st st' ρ st (st'.newScope none).2 where
  twins :=
    { h with
      paired := h.paired.of_right (Nat.le_refl _) (by simp) (fun _ _ => rfl)
        (fun s hs => Store.scopeAt_newScope_of_lt _ (h.paired.scope_lt s hs)) h.paired.sink
      covered := by
        refine h.covered.step (.refl ρ st) (.refl st) (fun _ _ hw => .inl hw)
          (fun s b hb => ?_) (fun s p hs => ?_)
        · rcases Store.lt_or_eq_of_newScope (Store.lt_of_mem_bindings hb) with hl | rfl
          · exact .inl (Store.scopeAt_newScope_of_lt _ hl ▸ hb)
          · rw [Store.scopeAt_newScope_self] at hb
            cases hb
        · rcases Store.lt_or_eq_of_newScope (Store.lt_of_parent hs) with hl | rfl
          · exact .inl (Store.scopeAt_newScope_of_lt _ hl ▸ hs)
          · rw [Store.scopeAt_newScope_self] at hs
            cases hs }
  carries := { Carries.refl ρ st st' with scopes_le' := by simp }
  grows := .refl st

/-- The machine puts a value at the end of a list of its own. -/
theorem extend (h : Twins empty ρ st st') {q : ListRef} (hq : Private ρ st st' q) {v : Value}
    (hv : v.Within true st) : Pursues empty ρ st st' ρ st (st'.extend q (v.rename ρ)) where
  twins :=
    { h with
      paired := hq.extend h.paired _
      covered := by
        refine h.covered.step (.refl ρ st) (.refl st) (fun r w hw => ?_)
          (fun _ _ hb => .inl hb) (fun _ _ hs => .inl hs)
        by_cases hr : r = q
        · subst hr
          rw [Store.items_extend_self _ hq.lt] at hw
          rcases List.mem_append.mp hw with hw | hw
          · exact .inl hw
          · exact .inr ⟨v, hv, List.mem_singleton.mp hw⟩
        · rw [Store.items_extend_of_ne _ hr] at hw
          exact .inl hw }
  carries := { Carries.refl ρ st st' with lists_le' := by simp }
  grows := .refl st

/-- Both engines have written something. -/
theorem withSink (h : Twins empty ρ st st') (sink : Sink) :
    Pursues empty ρ st st' ρ { st with sink } { st' with sink } :=
  of_extends h (h.paired.withSink rfl) (.withSink _ _)

end Pursues

/-! ## Frames that wait -/

/-- A list of the machine holds what stands for these values. -/
structure Mirrors (ρ : Renaming) (st st' : Store) (r : ListRef) (vs : List Value) : Prop where
  items : st'.items r = vs.map (Value.rename ρ)
  within : ∀ v ∈ vs, v.Within true st
  small : vs.length < 2 ^ 63

theorem Mirrors.mono {r : ListRef} {vs : List Value} (h : Mirrors ρ st st' r vs)
    (hx : Pursues empty ρ st st' ρ₁ st₁ st₁') (hk : st₁'.items r = st'.items r) :
    Mirrors ρ₁ st₁ st₁' r vs where
  items := by rw [hk, h.items, hx.carries.agree.map_rename h.within]
  within v hv := (h.within v hv).mono hx.grows
  small := h.small

theorem Mirrors.lt {r : ListRef} {v : Value} {vs : List Value}
    (h : Mirrors ρ st st' r (v :: vs)) : r.index < st'.lists.size :=
  Store.index_lt_of_items_ne_nil (by rw [h.items]; exact List.cons_ne_nil _ _)

theorem Twins.length_items (h : Twins empty ρ st st') {r : ListRef} (hr : r.index < st.lists.size) :
    (st'.items (ρ.list r)).length = (st.items r).length := by
  rw [h.paired.items r hr, List.length_map]

/-- A list of expressions, and what stands for it. -/
theorem Twins.mirrors (h : Twins empty ρ st st') (hf : st.Fits) {r : ListRef}
    (hr : r.index < st.lists.size) : Mirrors ρ st st' (ρ.list r) (st.items r) :=
  ⟨h.paired.items r hr, h.paired.sealed.items r, hf r⟩

/-- What a frame holds that waits for the value of a nested evaluation, where it will go on,
and what is on top of it.  Its lists are below `new`, and an argument list is not below
`old`, so that no frame around it has to do with it. -/
inductive Waits (ρ : Renaming) (st st' : Store) (old new : Nat) :
    Classic.Pending → Block → List Value → Activation → Prop
  | branch {items : List Value} {f : Activation} {r : ListRef} (hx : f.x = .list r)
      (hr : r.index < new) (hi : Mirrors ρ st st' r items) :
      Waits ρ st st' old new (.branch items) .ifValue [] f
  | bind {form : SpecialForm} {name : Value} {f : Activation}
      (hf : form = .define ∨ form = .assign) (hn : name.Within true st) :
      Waits ρ st st' old new (.bind form name) (bindingValue form)
        [name.rename ρ, f.scope] f
  | sequence {current : Value} {rest : List Value} {f : Activation} {r : ListRef}
      (hf : f.forms = .list r) (hr : r.index < new)
      (hi : Mirrors ρ st st' r (current :: rest)) :
      Waits ρ st st' old new (.sequence rest) .beginValue [] f
  | operator {head : Value} {operands : List Value} {f : Activation} {r : ListRef}
      (hx : f.x = .list r) (hr : r.index < new)
      (hi : Mirrors ρ st st' r (head :: operands)) :
      Waits ρ st st' old new (.operator operands) .operatorValue [] f
  | operand {callee current : Value} {args rest : List Value} {f : Activation} {q r : ListRef}
      (hc : f.callee = callee.rename ρ) (hw : callee.Within true st) (ha : f.args = .list q)
      (hq : Private ρ st st' q) (ho : old ≤ q.index) (hn : q.index < new)
      (hv : st'.items q = args.map (Value.rename ρ)) (hvw : ∀ v ∈ args, v.Within true st)
      (hf : f.forms = .list r) (hne : r ≠ q) (hr : r.index < new)
      (hi : Mirrors ρ st st' r (current :: rest)) :
      Waits ρ st st' old new (.operand callee args rest) .operandValue [] f
  | expansion {f : Activation} : Waits ρ st st' old new .expansion .expansionValue [] f

theorem Waits.mono {old new new' : Nat} {p : Classic.Pending} {b : Block}
    {temps : List Value} {f : Activation} (h : Waits ρ st st' old new p b temps f)
    (hx : Pursues empty ρ st st' ρ₁ st₁ st₁')
    (hn : new ≤ new') (hk : ∀ r : ListRef, r.index < new → st₁'.items r = st'.items r) :
    Waits ρ₁ st₁ st₁' old new' p b temps f := by
  have ha := hx.carries.agree
  cases h with
  | branch hf hr hi => exact .branch hf (Nat.lt_of_lt_of_le hr hn) (hi.mono hx (hk _ hr))
  | bind hf hw =>
    rw [← ha.rename hw]
    exact .bind hf (hw.mono hx.grows)
  | sequence hf hr hi => exact .sequence hf (Nat.lt_of_lt_of_le hr hn) (hi.mono hx (hk _ hr))
  | operator hf hr hi => exact .operator hf (Nat.lt_of_lt_of_le hr hn) (hi.mono hx (hk _ hr))
  | operand hc hw hq₁ hq ho hlt hv hvw hf hne hr hi =>
    refine .operand (hc.trans (ha.rename hw).symm) (hw.mono hx.grows) hq₁ (hq.mono hx.carries) ho
      (Nat.lt_of_lt_of_le hlt hn) ?_ (fun v hm => (hvw v hm).mono hx.grows) hf hne
      (Nat.lt_of_lt_of_le hr hn) (hi.mono hx (hk _ hr))
    rw [hk _ hlt, hv, ha.map_rename hvw]
  | expansion => exact .expansion

theorem Waits.temps_le {old new : Nat} {p : Classic.Pending} {b : Block}
    {temps : List Value} {f : Activation} (h : Waits ρ st st' old new p b temps f) :
    temps.length ≤ 2 := by
  cases h <;> simp

/-- The frames for the levels of a course: where the innermost evaluation returns to, how far
its caller's frame is from the top then, and what is on the stack below its scope and its
expression.  All lists of the frames are below `bound`. -/
inductive Stacked (size : Nat) (ρ : Renaming) (st st' : Store) :
    (bound : Nat) → List Level → (pc base : Nat) → List Value → Prop
  | main {bound : Nat} {below : List Value} (hl : below.length = 4) :
      Stacked size ρ st st' bound [] Block.mainValue.start 0 below
  | level {bound old : Nat} {p : Classic.Pending} {s : ScopeRef} {levels : List Level} {b : Block}
      {temps : List Value} {f : Activation} {pc base : Nat} {below : List Value}
      (hb : old ≤ bound) (h : Stacked size ρ st st' old levels pc base below)
      (hr : f.Returns size below pc base) (hf : f.scope = .scope (ρ.scope s))
      (hs : s.index < st.scopes.size) (hw : Waits ρ st st' old bound p b temps f) :
      Stacked size ρ st st' bound (⟨p, s⟩ :: levels) b.start (4 + temps.length)
        (temps ++ f.cells below)

variable {size bound pc base : Nat} {levels : List Level} {below : List Value}

theorem Stacked.mono (h : Stacked size ρ st st' bound levels pc base below)
    (hx : Pursues empty ρ st st' ρ₁ st₁ st₁') :
    ∀ {bound' : Nat}, bound ≤ bound' →
      (∀ r : ListRef, r.index < bound → st₁'.items r = st'.items r) →
      Stacked size ρ₁ st₁ st₁' bound' levels pc base below := by
  induction h with
  | main hl => exact fun _ _ => .main hl
  | @level bound old p s levels b temps f pc base below hb _ hr hf hs hw ih =>
    intro bound' hn hk
    refine .level (Nat.le_trans hb hn) (ih (Nat.le_refl _) fun r hr => hk r (by omega)) hr ?_
      (Nat.lt_of_lt_of_le hs hx.grows.scopes) (hw.mono hx hn hk)
    rw [hf, hx.carries.agree.scope s hs]

/-- Ten slots for each level are enough. -/
theorem Stacked.length_le (h : Stacked size ρ st st' bound levels pc base below) :
    below.length ≤ 10 * levels.length + 4 := by
  induction h with
  | main hl => exact Nat.le_of_eq hl
  | level _ _ _ _ _ hw ih =>
    have ht := hw.temps_le
    simp only [List.length_append, Activation.cells, List.length_cons]
    omega

theorem Stacked.pc_lt (h : Stacked size ρ st st' bound levels pc base below) : pc < 2 ^ 63 := by
  cases h with
  | main => decide
  | @level _ _ _ _ _ b =>
    have hb : b.start < 559 := by cases b <;> decide
    omega

/-- The machine is where the course is: it is about to evaluate what stands for the
expression, or it has come back with what stands for the value. -/
inductive At (size : Nat) (ρ : Renaming) (st st' : Store) : Course → View → Prop
  | eval {x : Value} {s : ScopeRef} {levels : List Level} {pc base : Nat} {below : List Value}
      {f : Activation} {a : Value}
      (h : Stacked size ρ st st' st'.lists.size levels pc base below)
      (hr : f.Returns size below pc base) (hx : f.x = x.rename ρ)
      (hf : f.scope = .scope (ρ.scope s)) (hw : x.Within true st)
      (hs : s.index < st.scopes.size) :
      At size ρ st st' ⟨.eval x s, levels⟩ (f.view .evalTop [] below a)
  | value {v t y : Value} {levels : List Level} {pc base : Nat} {below : List Value}
      (h : Stacked size ρ st st' st'.lists.size levels pc base below) (hw : v.Within true st) :
      At size ρ st st' ⟨.value v, levels⟩ (returned pc base t y below (v.rename ρ))

end Machine.Evaluator

end LispEngines
