import LispEngines.Show
import Mathlib.Data.Finset.Card
import Mathlib.Data.Finset.Prod
import Mathlib.Data.Fintype.Prod

/-!
# Texts with and without an end

The text of a value goes from a list to its elements, and from a closure to two elements of its
form.  Either it ends, or it comes to some value again and has no end.  So it matters only as a
list or a closure what a value is: its `Value.role`.

A text that ends goes through every role at most once, and there are two roles for each list.
Hence the bound under which a text is taken is enough (`Value.endsWithin_depthBound`), and any
larger one gives the same text (`Value.shown_eq`).
-/

namespace LispEngines.Value

variable {st : Store} {v w : Value} {n m : Nat}

/-- The list that a value is, or the form of the closure that it is. -/
def role : Value → Option (Bool × ListRef)
  | .list r => some (false, r)
  | .lambda c | .expander c => some (true, c.form)
  | _ => none

theorem nested_eq (v : Value) (st : Store) : v.nested st = match v.role with
    | some (false, r) => st.items r
    | some (true, r) => ((st.items r).drop 1).take 2
    | none => [] := by
  cases v <;> rfl

theorem list?_isNone (v : Value) : v.list?.isNone = v.role.isNone := by cases v <;> rfl

/-- Only a list with elements has texts within its text. -/
theorem role_of_mem_nested (h : w ∈ v.nested st) :
    ∃ x, v.role = some x ∧ x.2.index < st.lists.size := by
  have hlt : ∀ r, w ∈ st.items r → r.index < st.lists.size := fun r hr => by
    by_contra hl
    simp [Store.items, Array.getElem?_eq_none (Nat.le_of_not_lt hl)] at hr
  rw [nested_eq] at h
  rcases hv : v.role with _ | ⟨_ | _, r⟩ <;> rw [hv] at h
  · cases h
  · exact ⟨_, rfl, hlt r h⟩
  · exact ⟨_, rfl, hlt r (List.mem_of_mem_drop (List.mem_of_mem_take h))⟩

theorem endsWithin_succ :
    endsWithin st (n + 1) v = true ↔ ∀ w ∈ v.nested st, endsWithin st n w = true := by
  rw [endsWithin, List.all_eq_true]

theorem endsWithin_eq_of_role (h : v.role = w.role) (st : Store) :
    ∀ n, endsWithin st n v = endsWithin st n w
  | 0 => by rw [endsWithin, endsWithin, list?_isNone, list?_isNone, h]
  | n + 1 => by rw [endsWithin, endsWithin, nested_eq, nested_eq, h]

theorem endsWithin_mono_succ : ∀ {n : Nat} {v : Value}, endsWithin st n v = true →
    endsWithin st (n + 1) v = true
  | 0, v, h => by
    rw [endsWithin, list?_isNone] at h
    rw [endsWithin_succ]
    intro w hw
    obtain ⟨x, hx, -⟩ := role_of_mem_nested hw
    rw [hx] at h
    cases h
  | n + 1, v, h => by
    rw [endsWithin_succ] at h ⊢
    exact fun w hw => endsWithin_mono_succ (h w hw)

theorem endsWithin_mono (h : endsWithin st n v = true) (hm : n ≤ m) : endsWithin st m v = true := by
  induction hm with
  | refl => exact h
  | step _ ih => exact endsWithin_mono_succ ih

/-! ## The bound is enough -/

/-- A text that ends, and not sooner than after `k` nested lists, goes through `k` roles. -/
theorem exists_roles : ∀ (k : Nat) {v : Value}, endsWithin st (k + 1) v = true →
    endsWithin st k v = false → ∃ s : Finset (Bool × Nat),
      s.card = k ∧ s ⊆ Finset.univ ×ˢ Finset.range st.lists.size ∧
      ∀ u : Value, ∀ x, u.role = some x → (x.1, x.2.index) ∈ s → endsWithin st (k + 1) u = true
  | 0, _, _, _ => ⟨∅, rfl, Finset.empty_subset _, fun _ _ _ h => absurd h (Finset.notMem_empty _)⟩
  | k + 1, v, h, hn => by
    obtain ⟨w, hw, hwn⟩ : ∃ w ∈ v.nested st, endsWithin st k w = false := by
      rw [endsWithin, List.all_eq_false] at hn
      simpa using hn
    obtain ⟨s, hcard, hsub, hs⟩ := exists_roles k (endsWithin_succ.mp h w hw) hwn
    obtain ⟨x, hx, hlt⟩ := role_of_mem_nested hw
    -- what the text of `w` goes through ends sooner than the text of `v`
    have hfresh : (x.1, x.2.index) ∉ s := fun hm => by
      rw [hs v x hx hm] at hn
      cases hn
    refine ⟨insert (x.1, x.2.index) s, ?_, ?_, fun u y hy hm => ?_⟩
    · rw [Finset.card_insert_of_notMem hfresh, hcard]
    · refine Finset.insert_subset ?_ hsub
      exact Finset.mem_product.mpr ⟨Finset.mem_univ _, Finset.mem_range.mpr hlt⟩
    · rcases Finset.mem_insert.mp hm with he | hm
      · have hyx : y = x := by
          obtain ⟨b, r⟩ := x
          obtain ⟨b', r'⟩ := y
          injection he with hb hr
          cases r
          cases r'
          cases hb
          cases hr
          rfl
        rwa [endsWithin_eq_of_role (hy.trans (hyx ▸ hx.symm)) st]
      · exact endsWithin_mono_succ (hs u y hy hm)

/-- A text that ends at all ends within the bound. -/
theorem endsWithin_depthBound : ∀ {n : Nat} {v : Value}, endsWithin st n v = true →
    endsWithin st (depthBound st) v = true
  | 0, _, h => endsWithin_mono h (Nat.zero_le _)
  | n + 1, v, h => by
    rcases hn : endsWithin st n v with _ | _
    · obtain ⟨s, hcard, hsub, -⟩ := exists_roles n h hn
      have hle := Finset.card_le_card hsub
      rw [hcard, Finset.card_product, Finset.card_univ, Fintype.card_bool, Finset.card_range] at hle
      exact endsWithin_mono h (Nat.succ_le_succ hle)
    · exact endsWithin_depthBound hn

/-! ## The text -/

/-- The parts of a closure that its text shows. -/
theorem mem_nested_of_part? {c : Closure} {i : Nat} (h1 : 1 ≤ i) (h2 : i ≤ 2)
    (h : c.part? st i = some w) : w ∈ ((st.items c.form).drop 1).take 2 := by
  refine List.mem_of_getElem? (i := i - 1) ?_
  rw [List.getElem?_take_of_lt (by omega), List.getElem?_drop, Nat.add_sub_cancel' h1]
  exact h

/-- A text that ends within a bound is the same for every larger bound. -/
theorem showWithin_eq : ∀ {n m : Nat} {v : Value}, endsWithin st n v = true → n ≤ m →
    showWithin st m v = showWithin st n v
  | 0, m, v, h, _ => by
    cases v with
    | list r | lambda c | expander c => cases h
    | _ => simp only [showWithin]
  | n + 1, m, v, h, hm => by
    obtain ⟨m, rfl⟩ : ∃ k, m = k + 1 := ⟨m - 1, by omega⟩
    rw [endsWithin_succ] at h
    have hw : ∀ w ∈ v.nested st, showWithin st m w = showWithin st n w := fun w hw =>
      showWithin_eq (h w hw) (by omega)
    cases v with
    | list r =>
      rw [showWithin, showWithin]
      exact congrArg (fun ts => "(" ++ spaced ts ++ ")") (List.map_congr_left hw)
    | lambda c | expander c =>
      have hp : ∀ i, 1 ≤ i → i ≤ 2 →
          showWithin.part st m (c.part? st i) = showWithin.part st n (c.part? st i) := by
        intro i h1 h2
        rcases hc : c.part? st i with _ | w
        · rw [showWithin.part, showWithin.part]
        · rw [showWithin.part, showWithin.part, hw w (mem_nested_of_part? h1 h2 hc)]
      rw [showWithin, showWithin, hp 1 (by decide) (by decide), hp 2 (by decide) (by decide)]
    | _ => simp only [showWithin]

/-- A text that ends within some bound is taken in full. -/
theorem shown_eq (h : endsWithin st n v = true) : v.shown st = showWithin st n v := by
  have hb := endsWithin_depthBound h
  rw [shown, if_pos hb]
  rcases Nat.le_total n (depthBound st) with hle | hle
  · exact showWithin_eq h hle
  · exact (showWithin_eq hb hle).symm

/-- The text of what has no list behind it. -/
theorem shown_of_list? (h : v.list? = none) : v.shown st = showWithin st 0 v :=
  shown_eq (by rw [endsWithin, h]; rfl)

end LispEngines.Value
