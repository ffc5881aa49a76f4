import LispEngines.Library
import LispEngines.Proofs.Store.Renaming
import LispEngines.Proofs.Store.Texts

/-!
# What paired stores say alike

Whatever an engine reads from a store, it reads from a paired store as well, under the
renaming: elements, texts, what names mean, and whether two values are the same.

Texts and chains of scopes are computed with a bound that depends on the size of the store,
and paired stores have different sizes.  The bound of a text does not matter if the text ends
(`Value.shown_eq`), and whether it ends is the same in both stores.  The bound of a chain does not
matter as long as it exceeds a rank that falls from a scope to the one around it.
-/

namespace LispEngines

/-- With bounds above its rank, a scope has one chain. -/
theorem Store.chainWithin_eq {st : Store} (rank : ScopeRef → Nat)
    (hr : ∀ s p, (st.scopeAt s).parent = some p → rank p < rank s) :
    ∀ (n : Nat) {fuel fuel' : Nat} {s : ScopeRef}, rank s < n → n ≤ fuel → n ≤ fuel' →
      st.chainWithin fuel s = st.chainWithin fuel' s := by
  intro n
  induction n with
  | zero => intro fuel fuel' s hs; exact absurd hs (Nat.not_lt_zero _)
  | succ n ih =>
    intro fuel fuel' s hs hf hf'
    obtain ⟨fuel, rfl⟩ : ∃ k, fuel = k + 1 := ⟨fuel - 1, by omega⟩
    obtain ⟨fuel', rfl⟩ : ∃ k, fuel' = k + 1 := ⟨fuel' - 1, by omega⟩
    rw [chainWithin, chainWithin]
    rcases hp : (st.scopeAt s).parent with _ | p
    · rfl
    · have hlt := hr s p hp
      exact congrArg (s :: ·) (ih (by omega) (by omega) (by omega))

namespace Paired

variable {L : Link} {ρ : Renaming} {st st' : Store}

/-! ## Elements -/

theorem items_rename (h : Paired L ρ st st') {v : Value} (hv : v.Within L.shares st) :
    (v.rename ρ).items st' = (v.items st).map (Value.rename ρ) := by
  rw [Value.items, Value.items, Value.list?_rename]
  rcases hl : v.list? with _ | r
  · rfl
  · exact h.items r (hv.below.list r hl)

theorem length_rename (h : Paired L ρ st st') {v : Value} (hv : v.Within L.shares st) :
    (v.rename ρ).length st' = v.length st := by
  rw [Value.length, Value.length, h.items_rename hv, List.length_map]

theorem get?_rename (h : Paired L ρ st st') {v : Value} (hv : v.Within L.shares st) (i : Nat) :
    (v.rename ρ).get? st' i = (v.get? st i).map (Value.rename ρ) := by
  rw [Value.get?, Value.get?, h.items_rename hv, List.getElem?_map]

theorem part?_rename (h : Paired L ρ st st') {c : Closure} (hc : c.form.index < st.lists.size)
    (i : Nat) : (c.rename ρ).part? st' i = (c.part? st i).map (Value.rename ρ) := by
  rw [Closure.part?, Closure.part?, Closure.rename, h.items _ hc, List.getElem?_map]

theorem isNil_rename (h : Paired L ρ st st') {v : Value} (hv : v.Within L.shares st) :
    (v.rename ρ).isNil st' = v.isNil st := by
  cases v with
  | list r =>
    show (st'.items (ρ.list r)).isEmpty = (st.items r).isEmpty
    rw [h.items r (hv.below.list r rfl), List.isEmpty_map]
  | _ => rfl

/-! ## Texts -/

theorem showWithin_rename (h : Paired L ρ st st') : ∀ (fuel : Nat) {v : Value}, v.Within L.shares st →
    Value.showWithin st' fuel (v.rename ρ) = Value.showWithin st fuel v := by
  intro fuel
  induction fuel with
  | zero => intro v _; cases v <;> simp only [Value.rename, Value.showWithin]
  | succ fuel ih =>
    intro v hv
    have hp : ∀ c : Closure, c.form.index < st.lists.size → ∀ i,
        Value.showWithin.part st' fuel ((c.rename ρ).part? st' i) =
          Value.showWithin.part st fuel (c.part? st i) := by
      intro c hc i
      rw [h.part?_rename hc]
      rcases hw : c.part? st i with _ | w
      · rw [Option.map_none, Value.showWithin.part, Value.showWithin.part]
      · rw [Option.map_some, Value.showWithin.part, Value.showWithin.part,
          ih (h.sealed.items _ _ (List.mem_of_getElem? hw))]
    cases v with
    | list r =>
      rw [Value.rename_list, Value.showWithin, Value.showWithin, h.items r (hv.below.list r rfl),
        List.map_map]
      exact congrArg (fun t => "(" ++ Value.spaced t ++ ")")
        (List.map_congr_left fun w hw => ih (h.sealed.items _ _ hw))
    | lambda c =>
      have hc := hv.below.list _ rfl
      rw [Value.rename, Value.showWithin, Value.showWithin, hp c hc, hp c hc]
    | expander c =>
      have hc := hv.below.list _ rfl
      rw [Value.rename, Value.showWithin, Value.showWithin, hp c hc, hp c hc]
    | _ => simp only [Value.rename, Value.showWithin]

theorem nested_rename (h : Paired L ρ st st') {v : Value} (hv : v.Within L.shares st) :
    (v.rename ρ).nested st' = (v.nested st).map (Value.rename ρ) := by
  cases v with
  | list r => exact h.items r (hv.below.list r rfl)
  | lambda c | expander c =>
    show ((st'.items (ρ.list c.form)).drop 1).take 2 = (((st.items c.form).drop 1).take 2).map _
    rw [h.items c.form (hv.below.list _ rfl), List.map_take, List.map_drop]
  | _ => rfl

theorem within_nested (h : Paired L ρ st st') {v w : Value} (hw : w ∈ v.nested st) :
    w.Within L.shares st := by
  cases v with
  | list r => exact h.sealed.items r w hw
  | lambda c | expander c =>
    exact h.sealed.items c.form w (List.mem_of_mem_drop (List.mem_of_mem_take hw))
  | _ => cases hw

/-- A text ends in both stores or in neither. -/
theorem endsWithin_rename (h : Paired L ρ st st') : ∀ (fuel : Nat) {v : Value},
    v.Within L.shares st → Value.endsWithin st' fuel (v.rename ρ) = Value.endsWithin st fuel v
  | 0, v, _ => by rw [Value.endsWithin, Value.endsWithin, Value.list?_rename, Option.isNone_map]
  | fuel + 1, v, hv => by
    have hw : ∀ w ∈ v.nested st, Value.endsWithin st' fuel (w.rename ρ) =
        Value.endsWithin st fuel w := fun w hw => h.endsWithin_rename fuel (h.within_nested hw)
    rw [Bool.eq_iff_iff, Value.endsWithin_succ, Value.endsWithin_succ, h.nested_rename hv,
      List.forall_mem_map]
    exact forall₂_congr fun w hm => by rw [hw w hm]

/-- A value and what stands for it have the same text. -/
theorem shown_rename (h : Paired L ρ st st') {v : Value} (hv : v.Within L.shares st) :
    (v.rename ρ).shown st' = v.shown st := by
  by_cases hb : Value.endsWithin st (Value.depthBound st) v = true
  · have hb' := (h.endsWithin_rename _ hv).trans hb
    rw [Value.shown_eq hb, Value.shown_eq hb', h.showWithin_rename _ hv]
  · have hb' : ¬ Value.endsWithin st' (Value.depthBound st') (v.rename ρ) = true := fun he =>
      hb (Value.endsWithin_depthBound ((h.endsWithin_rename _ hv).symm.trans he))
    rw [Value.shown, Value.shown, if_neg hb, if_neg hb']

/-! ## Names -/

theorem local?_rename (h : Paired L ρ st st') {s : ScopeRef} (hs : s.index < st.scopes.size)
    (key : String) : st'.local? (ρ.scope s) key = (st.local? s key).map (Value.rename ρ) := by
  rw [Store.local?, Store.local?, h.scopes s hs, Scope.rename, Bindings.get?_map]

theorem chainWithin_rename (h : Paired L ρ st st') : ∀ (fuel : Nat) {s : ScopeRef},
    s.index < st.scopes.size →
      st'.chainWithin fuel (ρ.scope s) = (st.chainWithin fuel s).map ρ.scope ∧
        ∀ t ∈ st.chainWithin fuel s, t.index < st.scopes.size := by
  intro fuel
  induction fuel with
  | zero => intro s _; exact ⟨rfl, fun t ht => by cases ht⟩
  | succ fuel ih =>
    intro s hs
    rw [Store.chainWithin, Store.chainWithin, h.scopes s hs, Scope.rename]
    rcases hp : (st.scopeAt s).parent with _ | p
    · exact ⟨rfl, fun t ht => by rw [List.mem_singleton.mp ht]; exact hs⟩
    · obtain ⟨he, hm⟩ := ih (h.lt_of_parent hs hp)
      refine ⟨congrArg (ρ.scope s :: ·) he, fun t ht => ?_⟩
      rcases List.mem_cons.mp ht with rfl | ht
      · exact hs
      · exact hm t ht

/-- The scopes around what stands for a scope stand for the scopes around it. -/
theorem chain_rename (h : Paired L ρ st st') {s : ScopeRef} (hs : s.index < st.scopes.size) :
    st'.chain (ρ.scope s) = (st.chain s).map ρ.scope := by
  have hb : st.chainWithin st'.scopes.size s = st.chain s :=
    Store.chainWithin_eq ScopeRef.index h.sealed.parent_lt st.scopes.size hs h.scopes_le
      (Nat.le_refl _)
  exact (h.chainWithin_rename _ hs).1.trans (congrArg _ hb)

theorem mem_chain (h : Paired L ρ st st') {s t : ScopeRef} (hs : s.index < st.scopes.size)
    (ht : t ∈ st.chain s) : t.index < st.scopes.size :=
  (h.chainWithin_rename _ hs).2 t ht

/-- A name means the same in both stores. -/
theorem lookup?_rename (h : Paired L ρ st st') {s : ScopeRef} (hs : s.index < st.scopes.size)
    (key : String) : st'.lookup? (ρ.scope s) key = (st.lookup? s key).map (Value.rename ρ) := by
  rw [Store.lookup?, Store.lookup?, h.chain_rename hs]
  have hm : ∀ t ∈ st.chain s, t.index < st.scopes.size := fun t ht => h.mem_chain hs ht
  generalize st.chain s = ts at hm
  induction ts with
  | nil => rfl
  | cons t ts ih =>
    rw [List.map_cons, List.findSome?_cons, List.findSome?_cons,
      h.local?_rename (hm t (List.mem_cons_self ..))]
    cases st.local? t key with
    | some v => rfl
    | none => exact ih fun u hu => hm u (List.mem_cons_of_mem _ hu)

/-- A name is bound in the same scope of both stores. -/
theorem find?_rename (h : Paired L ρ st st') {s : ScopeRef} (hs : s.index < st.scopes.size)
    (key : String) : st'.find? (ρ.scope s) key = (st.find? s key).map ρ.scope := by
  rw [Store.find?, Store.find?, h.chain_rename hs]
  have hm : ∀ t ∈ st.chain s, t.index < st.scopes.size := fun t ht => h.mem_chain hs ht
  generalize st.chain s = ts at hm
  induction ts with
  | nil => rfl
  | cons t ts ih =>
    rw [List.map_cons, List.find?_cons, List.find?_cons, Store.binds, Store.binds,
      h.local?_rename (hm t (List.mem_cons_self ..)), Option.isSome_map]
    cases (st.local? t key).isSome with
    | true => rfl
    | false => exact ih fun u hu => hm u (List.mem_cons_of_mem _ hu)

theorem lookup?_within (h : Paired L ρ st st') {s : ScopeRef} {key : String} {v : Value}
    (hv : st.lookup? s key = some v) : v.Within L.shares st := by
  obtain ⟨t, -, ht⟩ := List.exists_of_findSome?_eq_some hv
  exact h.sealed.bindings t (key, v) (Bindings.mem_of_get? ht)

theorem find?_lt (h : Paired L ρ st st') {s t : ScopeRef} (hs : s.index < st.scopes.size)
    {key : String} (ht : st.find? s key = some t) : t.index < st.scopes.size :=
  h.mem_chain hs (List.mem_of_find?_eq_some ht)

/-- The bindings of a scope have the same text in both stores. -/
theorem describe_rename (h : Paired L ρ st st') {s : ScopeRef} (hs : s.index < st.scopes.size) :
    st'.describe (ρ.scope s) = st.describe s := by
  have hk : Bindings.sortedKeys ((st.scopeAt s).bindings.map fun b => (b.1, b.2.rename ρ)) =
      Bindings.sortedKeys (st.scopeAt s).bindings := by
    rw [Bindings.sortedKeys, Bindings.sortedKeys, List.map_map]
    rfl
  have he : ∀ key, (((st.scopeAt s).bindings.get? key).map (Value.rename ρ)).map
      (fun v => key ++ ": " ++ v.shown st') =
      ((st.scopeAt s).bindings.get? key).map fun v => key ++ ": " ++ v.shown st := by
    intro key
    rcases hv : (st.scopeAt s).bindings.get? key with _ | v
    · rfl
    · rw [Option.map_some, Option.map_some, Option.map_some,
        h.shown_rename (h.sealed.bindings s (key, v) (Bindings.mem_of_get? hv))]
  rw [Store.describe, Store.describe, h.scopes s hs, Scope.rename]
  simp only [hk, Bindings.get?_map, he, Option.isSome_map]

/-! ## Sameness -/

/-- Only one procedure stands for a procedure with parameters and a body. -/
theorem rename_closure_eq (h : Paired L ρ st st') {c d : Closure}
    (hc : (Value.lambda c).Within L.shares st) (hd : (Value.lambda d).Within L.shares st) :
    c.rename ρ = d.rename ρ ↔ c = d := by
  refine ⟨fun he => ?_, fun he => he ▸ rfl⟩
  obtain ⟨form, scope⟩ := c
  obtain ⟨form', scope'⟩ := d
  injection he with hf hs
  have hscope : scope = scope' :=
    h.scope_inj _ _ (hc.below.scope _ rfl) (hd.below.scope _ rfl) hs
  rcases h.list_inj _ _ (hc.below.list _ rfl) (hd.below.list _ rfl) hf with hform | ⟨hL, hn⟩
  · exact congrArg₂ Closure.mk hform hscope
  · have hl : 3 ≤ (st.items form).length := hc.wellFormed hL
    rw [hn] at hl
    exact absurd hl (by decide)

theorem within_lambda_of_expander {strict : Bool} {st : Store} {c : Closure}
    (h : (Value.expander c).Within strict st) : (Value.lambda c).Within strict st :=
  ⟨⟨h.below.list, h.below.scope⟩, h.wellFormed⟩

/-- Two values are the same if and only if what stands for them is. -/
theorem same_rename (h : Paired L ρ st st') {a b : Value} (ha : a.Within L.shares st) (hb : b.Within L.shares st) :
    (a.rename ρ).same (b.rename ρ) st' = a.same b st := by
  cases a <;> cases b <;> try rfl
  case list.list r q =>
    have hr := ha.below.list r rfl
    have hq := hb.below.list q rfl
    rw [Value.rename_list, Value.rename_list, Value.same, Value.same, h.items r hr, h.items q hq,
      List.isEmpty_map, List.isEmpty_map]
    by_cases he : ρ.list r = ρ.list q
    · rcases h.list_inj r q hr hq he with rfl | ⟨-, hn⟩
      · simp
      · have hi := h.items r hr
        rw [he, h.items q hq, hn] at hi
        have hn' : st.items q = [] := List.map_eq_nil_iff.mp hi
        simp [hn, hn']
    · have hne : r ≠ q := fun hr => he (congrArg ρ.list hr)
      simp [he, hne]
  case lambda.lambda c d =>
    exact decide_eq_decide.mpr (h.rename_closure_eq ha hb)
  case expander.expander c d =>
    exact decide_eq_decide.mpr
      (h.rename_closure_eq (within_lambda_of_expander ha) (within_lambda_of_expander hb))
  case scope.scope s t =>
    refine decide_eq_decide.mpr ⟨fun he => ?_, fun he => congrArg ρ.scope he⟩
    exact h.scope_inj s t (ha.below.scope s rfl) (hb.below.scope t rfl) he

end Paired

end LispEngines
