import LispEngines.Proofs.Reader.Allocation
import LispEngines.Proofs.Store.Building

/-!
# Lists made in advance

A source is evaluated form by form, each form being given its lists just before its turn.  As one
expression it has all its lists from the start.  So for a while one of two paired stores has lists
that the other one does not have yet: they are `Reserved`, a stretch of addresses that stand for
nothing.  Nobody but the other store can change that, and it does so when it makes those lists
itself (`Form.redeem_build`).
-/

namespace LispEngines

variable {L : Link} {ρ ρ₁ ρ₂ : Renaming} {a b c st st' st₁ st₁' st₂ : Store}

/-! ## Stretches of lists -/

/-- The lists that have been made between two stores are in the second store of a pair, and stand for
nothing. -/
structure Reserved (ρ : Renaming) (a b st st' : Store) : Prop where
  own : ∀ r : ListRef, a.lists.size ≤ r.index → r.index < b.lists.size → Private ρ st st' r
  items : ∀ r : ListRef, a.lists.size ≤ r.index → r.index < b.lists.size →
    st'.items r = b.items r

/-- The first store of a pair has got lists for which reserved ones stand. -/
structure Redeems (ρ : Renaming) (a b st : Store) (ρ₁ : Renaming) (st₁ : Store) : Prop where
  lists_le : st.lists.size ≤ st₁.lists.size
  scopes_eq : st₁.scopes.size = st.scopes.size
  agree : ρ.Agree st ρ₁
  among : ∀ r : ListRef, st.lists.size ≤ r.index → r.index < st₁.lists.size →
    a.lists.size ≤ (ρ₁.list r).index ∧ (ρ₁.list r).index < b.lists.size

namespace Redeems

theorem refl (ρ : Renaming) (a st : Store) : Redeems ρ a a st ρ st where
  lists_le := Nat.le_refl _
  scopes_eq := rfl
  agree := .refl ρ st
  among _ h h' := absurd h' (Nat.not_lt_of_le h)

theorem trans (h : Redeems ρ a b st ρ₁ st₁) (h' : Redeems ρ₁ b c st₁ ρ₂ st₂)
    (hab : a.lists.size ≤ b.lists.size) (hbc : b.lists.size ≤ c.lists.size) :
    Redeems ρ a c st ρ₂ st₂ where
  lists_le := Nat.le_trans h.lists_le h'.lists_le
  scopes_eq := h'.scopes_eq.trans h.scopes_eq
  agree := h.agree.trans h'.agree h.lists_le (Nat.le_of_eq h.scopes_eq.symm)
  among r hr hr' := by
    by_cases hr₁ : r.index < st₁.lists.size
    · obtain ⟨hl, hu⟩ := h.among r hr hr₁
      rw [h'.agree.list r hr₁]
      exact ⟨hl, Nat.lt_of_lt_of_le hu hbc⟩
    · obtain ⟨hl, hu⟩ := h'.among r (Nat.le_of_not_lt hr₁) hr'
      exact ⟨Nat.le_trans hab hl, hu⟩

theorem within {v : Value} (h : Redeems ρ a b st ρ₁ st₁) (hv : v.Within false st) :
    v.Within false st₁ :=
  (hv.below.mono h.lists_le (Nat.le_of_eq h.scopes_eq.symm)).within

/-- A new list, and the one that was made in advance. -/
theorem newList (ρ : Renaming) (b st : Store) (vs ws : List Value) :
    Redeems ρ b (b.newList ws).2 st (ρ.withList ⟨st.lists.size⟩ ⟨b.lists.size⟩) (st.newList vs).2 where
  lists_le := by simp
  scopes_eq := rfl
  agree := ρ.agree_withList st _
  among r hr hr' := by
    rcases Store.lt_or_eq_of_newList hr' with hl | rfl
    · exact absurd hl (Nat.not_lt_of_le hr)
    · have hnew : (ρ.withList ⟨st.lists.size⟩ ⟨b.lists.size⟩).list ⟨st.lists.size⟩ = ⟨b.lists.size⟩ :=
        if_pos rfl
      rw [hnew, Store.newList_lists_size]
      exact ⟨Nat.le_refl _, Nat.lt_succ_self _⟩

end Redeems

namespace Reserved

/-- A stretch may be cut. -/
theorem left (h : Reserved ρ a c st st') (hbc : b.KeepsLists c) : Reserved ρ a b st st' where
  own r hr hr' := h.own r hr (Nat.lt_of_lt_of_le hr' hbc.size_le)
  items r hr hr' := (h.items r hr (Nat.lt_of_lt_of_le hr' hbc.size_le)).trans (hbc.items_eq r hr')

theorem right (h : Reserved ρ a c st st') (hab : a.lists.size ≤ b.lists.size) :
    Reserved ρ b c st st' where
  own r hr := h.own r (Nat.le_trans hab hr)
  items r hr := h.items r (Nat.le_trans hab hr)

/-- What is reserved stays so, -/
theorem moves (h : Reserved ρ a b st st') (hm : Moves ρ st st' ρ₁ st₁ st₁') :
    Reserved ρ₁ a b st₁ st₁' where
  own r hr hr' := (h.own r hr hr').mono hm.toCarries
  items r hr hr' := ((h.own r hr hr').items_eq hm).trans (h.items r hr hr')

/-- and so does what comes after a stretch that has been redeemed. -/
theorem redeems (h : Reserved ρ b c st st') (hr : Redeems ρ a b st ρ₁ st₁) :
    Reserved ρ₁ b c st₁ st' where
  own r hb hc :=
    { lt := (h.own r hb hc).lt
      ne := fun q hq he => by
        by_cases hq' : q.index < st.lists.size
        · rw [hr.agree.list q hq'] at he
          exact (h.own r hb hc).ne q hq' he
        · have hlt := (hr.among q (Nat.le_of_not_lt hq') hq).2
          rw [he] at hlt
          exact Nat.not_lt_of_le hb hlt }
  items := h.items

end Reserved

/-- A new list of the second store does nothing to the first one. -/
theorem Moves.newList_right (ρ : Renaming) (st st' : Store) (vs : List Value) :
    Moves ρ st st' ρ st (st'.newList vs).2 where
  toCarries := { Carries.refl ρ st st' with lists_le' := by simp }
  items_eq _ hr _ := Store.items_newList_of_lt vs hr
  scopes_eq _ _ _ := rfl

/-! ## Forms -/

namespace Form

open Reader (build_list buildAll_cons builds buildsAll)

mutual

/-- **A form that has its lists already**: when the first store makes them, those that were made in
advance stand for them. -/
theorem redeem_build : ∀ (f : Form) {ρ : Renaming} {a st : Store}, Paired L.lone ρ st st' →
    Reserved ρ a (f.build a).2 st st' → ∃ ρ₁, Paired L.lone ρ₁ (f.build st).2 st' ∧
      Redeems ρ a (f.build a).2 st ρ₁ (f.build st).2 ∧
      (f.build st).1.StandsFor L.lone ρ₁ (f.build st).2 (f.build a).1
  | .number n, ρ, a, st, hp, hr => by
    rw [build] at hr ⊢
    exact ⟨ρ, hp, .refl ρ a st, Value.standsFor_self rfl rfl⟩
  | .symbol s, ρ, a, st, hp, hr => by
    rw [build] at hr ⊢
    exact ⟨ρ, hp, .refl ρ a st, Value.standsFor_self rfl rfl⟩
  | .text s, ρ, a, st, hp, hr => by
    rw [build] at hr ⊢
    exact ⟨ρ, hp, .refl ρ a st, Value.standsFor_self rfl rfl⟩
  | .list items, ρ, a, st, hp, hr => by
    rw [build_list] at hr
    obtain ⟨ρ₁, hp₁, hr₁, hvs, hws⟩ := redeem_buildAll items hp (hr.left (.newList _ _))
    rw [build_list, build_list]
    have hkeeps := (buildsAll items a).adds.toKeepsLists
    generalize buildAll items a = ws at hr hr₁ hws hkeeps ⊢
    generalize buildAll items st = vs at hp₁ hr₁ hvs hws ⊢
    -- the list itself comes after those of its items
    have hlast : ws.2.lists.size < (ws.2.newList ws.1).2.lists.size := by simp
    have hown := (((hr.right hkeeps.size_le).redeems hr₁).own ⟨ws.2.lists.size⟩ (Nat.le_refl _) hlast)
    have hitems : st'.items ⟨ws.2.lists.size⟩ = vs.1.map (Value.rename ρ₁) :=
      ((hr.items ⟨ws.2.lists.size⟩ hkeeps.size_le hlast).trans
        (Store.items_newList_self ws.2 ws.1)).trans hws
    refine ⟨_, hp₁.addList hvs hown.lt hitems (fun r hr he => absurd he (hown.ne r hr)) nofun,
      hr₁.trans (.newList ρ₁ ws.2 vs.2 vs.1 ws.1) hkeeps.size_le (Nat.le_of_lt hlast), ?_⟩
    exact ⟨Value.within_list (by simp), congrArg Value.list (if_pos rfl).symm⟩

theorem redeem_buildAll : ∀ (fs : List Form) {ρ : Renaming} {a st : Store}, Paired L.lone ρ st st' →
    Reserved ρ a (buildAll fs a).2 st st' → ∃ ρ₁, Paired L.lone ρ₁ (buildAll fs st).2 st' ∧
      Redeems ρ a (buildAll fs a).2 st ρ₁ (buildAll fs st).2 ∧
      Value.AllStandFor L.lone ρ₁ (buildAll fs st).2 (buildAll fs st).1 (buildAll fs a).1
  | [], ρ, a, st, hp, hr => by
    rw [buildAll] at hr ⊢
    exact ⟨ρ, hp, .refl ρ a st, nofun, rfl⟩
  | f :: fs, ρ, a, st, hp, hr => by
    rw [buildAll_cons] at hr
    have hkeeps := (buildsAll fs (f.build a).2).adds.toKeepsLists
    have hkeeps' := (builds f a).adds.toKeepsLists
    obtain ⟨ρ₁, hp₁, hr₁, hv, hw⟩ := redeem_build f hp (hr.left hkeeps)
    obtain ⟨ρ₂, hp₂, hr₂, hvs, hws⟩ :=
      redeem_buildAll fs hp₁ ((hr.right hkeeps'.size_le).redeems hr₁)
    rw [buildAll_cons, buildAll_cons]
    refine ⟨ρ₂, hp₂, hr₁.trans hr₂ hkeeps'.size_le hkeeps.size_le,
      List.forall_mem_cons.mpr ⟨hr₂.within hv, hvs⟩, ?_⟩
    rw [List.map_cons, hw, hws, hr₂.agree.rename hv]

end

end Form

end LispEngines
