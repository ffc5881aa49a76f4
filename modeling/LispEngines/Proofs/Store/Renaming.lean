import LispEngines.Proofs.Store.Tidy

/-!
# Stores that differ in their addresses

Two engines that do the same do not allocate the same: one of them makes lists that the
other has no use for, and reuses a list where the other makes a new one.  An evaluation
that shares its store with others finds other addresses taken than it finds alone.  What
two such stores agree on is a `Renaming`, which says for every address of the first store
what stands for it in the second one.

* `Link`: what is asked of the two outputs, whether one list may stand for several, and whether
  a list may contain itself.
* `Paired`: the second store is the first one renamed.  The second store may have more.
* `Carries`: how a pair has changed; what stood for something still does.
* `Moves`: the same, and what stood for nothing is as it was.
* `Extends`: the same, and no list has changed.
* `Private`: a list of the second store that stands for nothing.
* `Covered`: the second store holds only what stands for something.
-/

namespace LispEngines

/-! ## Renaming values -/

/-- What stands for a list and for a scope in another store. -/
structure Renaming where
  list : ListRef → ListRef
  scope : ScopeRef → ScopeRef

namespace Renaming

/-- Nothing changes. -/
def id : Renaming := ⟨fun r => r, fun s => s⟩

/-- A list address with a new meaning. -/
def withList (ρ : Renaming) (r q : ListRef) : Renaming :=
  { ρ with list := fun x => if x = r then q else ρ.list x }

/-- A scope address with a new meaning. -/
def withScope (ρ : Renaming) (s t : ScopeRef) : Renaming :=
  { ρ with scope := fun x => if x = s then t else ρ.scope x }

end Renaming

/-- The closure in the other store. -/
def Closure.rename (ρ : Renaming) (c : Closure) : Closure := ⟨ρ.list c.form, ρ.scope c.scope⟩

namespace Value

/-- The value in the other store. -/
def rename (ρ : Renaming) : Value → Value
  | .list r => .list (ρ.list r)
  | .lambda c => .lambda (c.rename ρ)
  | .expander c => .expander (c.rename ρ)
  | .scope s => .scope (ρ.scope s)
  | v => v

variable (ρ : Renaming) (v : Value)

@[simp] theorem rename_number (n : Int64) : rename ρ (.number n) = .number n := rfl
@[simp] theorem rename_symbol (s : String) : rename ρ (.symbol s) = .symbol s := rfl
@[simp] theorem rename_text (s : String) : rename ρ (.text s) = .text s := rfl
@[simp] theorem rename_list (r : ListRef) : rename ρ (.list r) = .list (ρ.list r) := rfl
@[simp] theorem rename_scope (s : ScopeRef) : rename ρ (.scope s) = .scope (ρ.scope s) := rfl
@[simp] theorem rename_ofBool (b : Bool) : rename ρ (.ofBool b) = .ofBool b := rfl

@[simp] theorem kind_rename : (v.rename ρ).kind = v.kind := by cases v <;> rfl
@[simp] theorem atomText?_rename : (v.rename ρ).atomText? = v.atomText? := by cases v <;> rfl
@[simp] theorem keyText?_rename : (v.rename ρ).keyText? = v.keyText? := by cases v <;> rfl
@[simp] theorem isTruthy_rename : (v.rename ρ).isTruthy = v.isTruthy := by cases v <;> rfl
@[simp] theorem toInt_rename : (v.rename ρ).toInt = v.toInt := by cases v <;> rfl

@[simp] theorem list?_rename : (v.rename ρ).list? = v.list?.map ρ.list := by cases v <;> rfl
@[simp] theorem scope?_rename : (v.rename ρ).scope? = v.scope?.map ρ.scope := by cases v <;> rfl

@[simp] theorem rename_id : v.rename .id = v := by cases v <;> rfl

variable {ρ v}

/-- Renamings that agree on what a value refers to rename it alike. -/
theorem rename_congr {ρ' : Renaming} (hl : ∀ r, v.list? = some r → ρ'.list r = ρ.list r)
    (hs : ∀ s, v.scope? = some s → ρ'.scope s = ρ.scope s) : v.rename ρ' = v.rename ρ := by
  cases v with
  | list r => exact congrArg Value.list (hl r rfl)
  | lambda c => rw [rename, rename, Closure.rename, Closure.rename, hl _ rfl, hs _ rfl]
  | expander c => rw [rename, rename, Closure.rename, Closure.rename, hl _ rfl, hs _ rfl]
  | scope s => exact congrArg Value.scope (hs s rfl)
  | _ => rfl

end Value

/-- Both renamings give what is in a store the same meaning. -/
structure Renaming.Agree (ρ : Renaming) (st : Store) (ρ' : Renaming) : Prop where
  list : ∀ r : ListRef, r.index < st.lists.size → ρ'.list r = ρ.list r
  scope : ∀ s : ScopeRef, s.index < st.scopes.size → ρ'.scope s = ρ.scope s

/-! ## Paired stores -/

/-- A scope in the other store. -/
def Scope.rename (ρ : Renaming) (sc : Scope) : Scope where
  bindings := sc.bindings.map fun b => (b.1, b.2.rename ρ)
  parent := sc.parent.map ρ.scope

theorem Renaming.agree_withList (ρ : Renaming) (st : Store) (q : ListRef) :
    ρ.Agree st (ρ.withList ⟨st.lists.size⟩ q) where
  list _ hr := if_neg fun he => by rw [he] at hr; exact Nat.lt_irrefl _ hr
  scope _ _ := rfl

theorem Renaming.agree_withScope (ρ : Renaming) (st : Store) (t : ScopeRef) :
    ρ.Agree st (ρ.withScope ⟨st.scopes.size⟩ t) where
  list _ _ := rfl
  scope _ hs := if_neg fun he => by rw [he] at hs; exact Nat.lt_irrefl _ hs

namespace Renaming.Agree

variable {strict : Bool} {ρ ρ₁ ρ₂ : Renaming} {st st₁ : Store}

theorem refl (ρ : Renaming) (st : Store) : ρ.Agree st ρ := ⟨fun _ _ => rfl, fun _ _ => rfl⟩

theorem trans (h : ρ.Agree st ρ₁) (h' : ρ₁.Agree st₁ ρ₂) (hl : st.lists.size ≤ st₁.lists.size)
    (hs : st.scopes.size ≤ st₁.scopes.size) : ρ.Agree st ρ₂ where
  list r hr := (h'.list r (Nat.lt_of_lt_of_le hr hl)).trans (h.list r hr)
  scope s hr := (h'.scope s (Nat.lt_of_lt_of_le hr hs)).trans (h.scope s hr)

theorem rename (h : ρ.Agree st ρ₁) {v : Value} (hv : v.Within strict st) :
    v.rename ρ₁ = v.rename ρ :=
  Value.rename_congr (fun r hr => h.list r (hv.below.list r hr))
    (fun s hs => h.scope s (hv.below.scope s hs))

theorem map_rename (h : ρ.Agree st ρ₁) {vs : List Value} (hv : ∀ v ∈ vs, v.Within strict st) :
    vs.map (Value.rename ρ₁) = vs.map (Value.rename ρ) :=
  List.map_congr_left fun v hm => h.rename (hv v hm)

theorem rename_scopeAt (h : ρ.Agree st ρ₁) (ht : st.Sealed strict) (s : ScopeRef) :
    (st.scopeAt s).rename ρ₁ = (st.scopeAt s).rename ρ := by
  have hb : (st.scopeAt s).bindings.map (fun b => (b.1, b.2.rename ρ₁)) =
      (st.scopeAt s).bindings.map fun b => (b.1, b.2.rename ρ) :=
    List.map_congr_left fun b hb => congrArg (Prod.mk b.1) (h.rename (ht.bindings s b hb))
  have hp : (st.scopeAt s).parent.map ρ₁.scope = (st.scopeAt s).parent.map ρ.scope := by
    rcases hp : (st.scopeAt s).parent with _ | p
    · rfl
    · have hl := ht.parent_lt s p hp
      have hs := Store.lt_of_parent hp
      exact congrArg some (h.scope p (Nat.lt_trans hl hs))
  rw [Scope.rename, Scope.rename, hb, hp]

end Renaming.Agree

/-- What two engines have in common that work on paired stores. -/
structure Link where
  /-- How their outputs correspond. -/
  sinks : Sink → Sink → Prop
  /-- One output refuses a text if and only if the other one does. -/
  write : ∀ {k k' : Sink}, sinks k k' → ∀ t, Option.Rel sinks (k.write? t) (k'.write? t)
  /-- Whether one list may stand for several empty ones.  Lists that are shared so must
  not be procedures. -/
  shares : Bool
  /-- Whether no list contains itself. -/
  acyclic : Bool

namespace Link

/-- The engines have the same output. -/
def same (shares : Bool) : Link where
  sinks k k' := k' = k
  write h t := by
    subst h
    cases Sink.write? _ t with
    | none => exact .none
    | some k => exact .some rfl
  shares
  acyclic := true

/-- Output without a limit takes everything, and stays without a limit. -/
theorem write?_of_unlimited {k : Sink} (h : k.limit = none) (t : String) :
    ∃ k₁, k.write? t = some k₁ ∧ k₁.limit = none := by
  have hc : k.isClosed = false := by rw [Sink.isClosed, h]
  rw [Sink.write?, hc]
  by_cases ht : t.isEmpty
  · exact ⟨k, if_pos ht, h⟩
  · exact ⟨_, if_neg ht, h⟩

/-- The engines have outputs of their own, and neither has a limit. -/
def apart : Link where
  sinks k k' := k.limit = none ∧ k'.limit = none
  write h t := by
    obtain ⟨k, hk, hl⟩ := write?_of_unlimited h.1 t
    obtain ⟨k', hk', hl'⟩ := write?_of_unlimited h.2 t
    rw [hk, hk']
    exact .some ⟨hl, hl'⟩
  shares := false
  acyclic := false

/-- The same for the outputs, but every list has one of its own that stands for it, and a list may
contain itself. -/
def lone (L : Link) : Link := { L with shares := false, acyclic := false }

end Link

/-- The second store is the first one under a renaming, and may have more. -/
structure Paired (L : Link) (ρ : Renaming) (st st' : Store) : Prop where
  sealed : st.Sealed L.shares
  list_lt : ∀ r : ListRef, r.index < st.lists.size → (ρ.list r).index < st'.lists.size
  scope_lt : ∀ s : ScopeRef, s.index < st.scopes.size → (ρ.scope s).index < st'.scopes.size
  items : ∀ r : ListRef, r.index < st.lists.size →
    st'.items (ρ.list r) = (st.items r).map (Value.rename ρ)
  scopes : ∀ s : ScopeRef, s.index < st.scopes.size →
    st'.scopeAt (ρ.scope s) = (st.scopeAt s).rename ρ
  list_inj : ∀ r q : ListRef, r.index < st.lists.size → q.index < st.lists.size →
    ρ.list r = ρ.list q → r = q ∨ (L.shares = true ∧ st.items r = [])
  scope_inj : ∀ s t : ScopeRef, s.index < st.scopes.size → t.index < st.scopes.size →
    ρ.scope s = ρ.scope t → s = t
  ranked : L.acyclic = true → st.Ranked (min st.lists.size st'.lists.size)
  scopes_le : st.scopes.size ≤ st'.scopes.size
  sink : L.sinks st.sink st'.sink

/-- Every value in the second store stands for one in the first. -/
structure Covered (L : Link) (ρ : Renaming) (st st' : Store) : Prop where
  items : ∀ r, ∀ w ∈ st'.items r, ∃ v : Value, v.Within L.shares st ∧ w = v.rename ρ
  bindings : ∀ s, ∀ b ∈ (st'.scopeAt s).bindings,
    ∃ v : Value, v.Within L.shares st ∧ b.2 = v.rename ρ
  parent_lt : ∀ s p, (st'.scopeAt s).parent = some p → p.index < s.index

/-- A pair of stores has become another one.  What stood for something still does, and what
stands for something new is new, or has stood for something before. -/
structure Carries (ρ : Renaming) (st st' : Store) (ρ₁ : Renaming) (st₁ st₁' : Store) : Prop where
  lists_le : st.lists.size ≤ st₁.lists.size
  scopes_le : st.scopes.size ≤ st₁.scopes.size
  lists_le' : st'.lists.size ≤ st₁'.lists.size
  scopes_le' : st'.scopes.size ≤ st₁'.scopes.size
  agree : ρ.Agree st ρ₁
  list_fresh : ∀ r : ListRef, st.lists.size ≤ r.index → r.index < st₁.lists.size →
    st'.lists.size ≤ (ρ₁.list r).index ∨ ∃ q : ListRef, q.index < st.lists.size ∧ ρ₁.list r = ρ.list q
  scope_fresh : ∀ s : ScopeRef, st.scopes.size ≤ s.index → s.index < st₁.scopes.size →
    st'.scopes.size ≤ (ρ₁.scope s).index

/-- The pair has become another one, and where the second store stood for nothing it is as it
was. -/
structure Moves (ρ : Renaming) (st st' : Store) (ρ₁ : Renaming) (st₁ st₁' : Store) : Prop
    extends Carries ρ st st' ρ₁ st₁ st₁' where
  items_eq : ∀ r : ListRef, r.index < st'.lists.size →
    (∀ q : ListRef, q.index < st.lists.size → ρ.list q ≠ r) → st₁'.items r = st'.items r
  scopes_eq : ∀ s : ScopeRef, s.index < st'.scopes.size →
    (∀ t : ScopeRef, t.index < st.scopes.size → ρ.scope t ≠ s) → st₁'.scopeAt s = st'.scopeAt s

/-- A pair of stores has grown: it has moved, no list has changed, and the second store has
not got anything that stands for nothing. -/
structure Extends (L : Link) (ρ : Renaming) (st st' : Store) (ρ₁ : Renaming) (st₁ st₁' : Store) :
    Prop extends Moves ρ st st' ρ₁ st₁ st₁' where
  grows : st.Grows st₁
  grows' : st'.Grows st₁'
  covered : Covered L ρ st st' → Covered L ρ₁ st₁ st₁'

namespace Carries

variable {ρ ρ₁ ρ₂ : Renaming} {st st' st₁ st₁' st₂ st₂' : Store}

theorem refl (ρ : Renaming) (st st' : Store) : Carries ρ st st' ρ st st' where
  lists_le := Nat.le_refl _
  scopes_le := Nat.le_refl _
  lists_le' := Nat.le_refl _
  scopes_le' := Nat.le_refl _
  agree := .refl ρ st
  list_fresh _ h h' := absurd h' (Nat.not_lt_of_le h)
  scope_fresh _ h h' := absurd h' (Nat.not_lt_of_le h)

theorem trans (h : Carries ρ st st' ρ₁ st₁ st₁') (h' : Carries ρ₁ st₁ st₁' ρ₂ st₂ st₂') :
    Carries ρ st st' ρ₂ st₂ st₂' where
  lists_le := Nat.le_trans h.lists_le h'.lists_le
  scopes_le := Nat.le_trans h.scopes_le h'.scopes_le
  lists_le' := Nat.le_trans h.lists_le' h'.lists_le'
  scopes_le' := Nat.le_trans h.scopes_le' h'.scopes_le'
  agree := h.agree.trans h'.agree h.lists_le h.scopes_le
  list_fresh r hr hr₂ := by
    by_cases hr₁ : r.index < st₁.lists.size
    · rw [h'.agree.list r hr₁]
      exact h.list_fresh r hr hr₁
    · rcases h'.list_fresh r (Nat.le_of_not_lt hr₁) hr₂ with hm | ⟨q, hq, he⟩
      · exact .inl (Nat.le_trans h.lists_le' hm)
      · rw [he]
        by_cases hq₀ : q.index < st.lists.size
        · exact .inr ⟨q, hq₀, h.agree.list q hq₀⟩
        · exact h.list_fresh q (Nat.le_of_not_lt hq₀) hq
  scope_fresh s hs hs₂ := by
    by_cases hs₁ : s.index < st₁.scopes.size
    · rw [h'.agree.scope s hs₁]
      exact h.scope_fresh s hs hs₁
    · exact Nat.le_trans h.scopes_le' (h'.scope_fresh s (Nat.le_of_not_lt hs₁) hs₂)

end Carries

namespace Moves

variable {ρ ρ₁ ρ₂ : Renaming} {st st' st₁ st₁' st₂ st₂' : Store}

theorem refl (ρ : Renaming) (st st' : Store) : Moves ρ st st' ρ st st' where
  toCarries := .refl ρ st st'
  items_eq _ _ _ := rfl
  scopes_eq _ _ _ := rfl

theorem trans (h : Moves ρ st st' ρ₁ st₁ st₁') (h' : Moves ρ₁ st₁ st₁' ρ₂ st₂ st₂') :
    Moves ρ st st' ρ₂ st₂ st₂' where
  toCarries := h.toCarries.trans h'.toCarries
  items_eq r hr hn := by
    refine (h'.items_eq r (Nat.lt_of_lt_of_le hr h.lists_le') fun q hq he => ?_).trans
      (h.items_eq r hr hn)
    by_cases hq₀ : q.index < st.lists.size
    · exact hn q hq₀ ((h.agree.list q hq₀).symm.trans he)
    · rcases h.list_fresh q (Nat.le_of_not_lt hq₀) hq with hm | ⟨p, hp, hpe⟩
      · exact Nat.not_lt_of_le hm (he ▸ hr)
      · exact hn p hp (hpe.symm.trans he)
  scopes_eq s hs hn := by
    refine (h'.scopes_eq s (Nat.lt_of_lt_of_le hs h.scopes_le') fun t ht he => ?_).trans
      (h.scopes_eq s hs hn)
    by_cases ht₀ : t.index < st.scopes.size
    · exact hn t ht₀ ((h.agree.scope t ht₀).symm.trans he)
    · exact Nat.not_lt_of_le (h.scope_fresh t (Nat.le_of_not_lt ht₀) ht) (he ▸ hs)

end Moves

namespace Covered

variable {L : Link} {ρ ρ₁ : Renaming} {st st' st₁ st₁' : Store}

/-- What was covered still is, and the rest has to be shown. -/
theorem step (h : Covered L ρ st st') (ha : ρ.Agree st ρ₁) (hg : st.Grows st₁)
    (hi : ∀ r, ∀ w ∈ st₁'.items r, w ∈ st'.items r ∨
      ∃ v : Value, v.Within L.shares st ∧ w = v.rename ρ)
    (hb : ∀ s, ∀ b ∈ (st₁'.scopeAt s).bindings, b ∈ (st'.scopeAt s).bindings ∨
      ∃ v : Value, v.Within L.shares st ∧ b.2 = v.rename ρ)
    (hp : ∀ s p, (st₁'.scopeAt s).parent = some p →
      (st'.scopeAt s).parent = some p ∨ p.index < s.index) :
    Covered L ρ₁ st₁ st₁' := by
  have hm : ∀ w, (∃ v : Value, v.Within L.shares st ∧ w = v.rename ρ) →
      ∃ v : Value, v.Within L.shares st₁ ∧ w = v.rename ρ₁ := fun w ⟨v, hv, he⟩ =>
    ⟨v, hv.mono hg, he.trans (ha.rename hv).symm⟩
  exact ⟨fun r w hw => hm w ((hi r w hw).elim (h.items r w) id),
    fun s b hs => hm b.2 ((hb s b hs).elim (h.bindings s b) id),
    fun s p hs => (hp s p hs).elim (h.parent_lt s p) id⟩

theorem newList_right (h : Covered L ρ st st') {vs : List Value}
    (hv : ∀ v ∈ vs, ∃ w : Value, w.Within L.shares st ∧ v = w.rename ρ) :
    Covered L ρ st (st'.newList vs).2 := by
  refine h.step (.refl ρ st) (.refl st) (fun r w hw => ?_) (fun _ _ hb => .inl hb)
    (fun _ _ hs => .inl hs)
  rcases Store.lt_or_eq_of_newList (Store.lt_of_mem_items hw) with hl | rfl
  · exact .inl (Store.items_newList_of_lt vs hl ▸ hw)
  · exact .inr (hv w (Store.items_newList_self st' vs ▸ hw))

theorem addList (h : Covered L ρ st st') (vs : List Value) (q : ListRef) :
    Covered L (ρ.withList ⟨st.lists.size⟩ q) (st.newList vs).2 st' :=
  h.step (ρ.agree_withList st q) (st.grows_newList vs) (fun _ _ hw => .inl hw)
    (fun _ _ hb => .inl hb) (fun _ _ hs => .inl hs)

end Covered

/-! ## Changing a pair -/

namespace Paired

variable {L : Link} {ρ : Renaming} {st st' st'' : Store}

theorem tidy (h : Paired L ρ st st') (hL : L.acyclic = true) : st.Tidy L.shares :=
  h.sealed.tidy (h.ranked hL).acyclic

/-- A store is paired with itself. -/
theorem refl_of_sealed (ht : st.Sealed L.shares) (hs : L.sinks st.sink st.sink)
    (hr : L.acyclic = true → st.Ranked st.lists.size) : Paired L .id st st where
  sealed := ht
  list_lt _ hr := hr
  scope_lt _ hs := hs
  items r _ := by rw [funext Value.rename_id, List.map_id']; rfl
  scopes s _ := by
    rw [Scope.rename, funext fun b : String × Value => congrArg (Prod.mk b.1) (Value.rename_id b.2),
      List.map_id', Renaming.id, Option.map_id']
  list_inj _ _ _ _ he := .inl he
  scope_inj _ _ _ _ he := he
  ranked hL := by rw [Nat.min_self]; exact hr hL
  scopes_le := Nat.le_refl _
  sink := hs

theorem refl (ht : st.Tidy L.shares) (hs : L.sinks st.sink st.sink) : Paired L .id st st :=
  .refl_of_sealed ht.sealed hs fun _ => ht.ranked

theorem lt_of_parent (h : Paired L ρ st st') {s p : ScopeRef} (hs : s.index < st.scopes.size)
    (hp : (st.scopeAt s).parent = some p) : p.index < st.scopes.size :=
  Nat.lt_trans (h.sealed.parent_lt s p hp) hs

/-- The second store may change where it stands for nothing. -/
theorem of_right (h : Paired L ρ st st') (hl : st'.lists.size ≤ st''.lists.size)
    (hs : st'.scopes.size ≤ st''.scopes.size)
    (hi : ∀ r : ListRef, r.index < st.lists.size → st''.items (ρ.list r) = st'.items (ρ.list r))
    (hc : ∀ s : ScopeRef, s.index < st.scopes.size →
      st''.scopeAt (ρ.scope s) = st'.scopeAt (ρ.scope s))
    (hk : L.sinks st.sink st''.sink) : Paired L ρ st st'' :=
  { h with
    list_lt := fun r hr => Nat.lt_of_lt_of_le (h.list_lt r hr) hl
    scope_lt := fun s hr => Nat.lt_of_lt_of_le (h.scope_lt s hr) hs
    items := fun r hr => (hi r hr).trans (h.items r hr)
    scopes := fun s hr => (hc s hr).trans (h.scopes s hr)
    ranked := fun hL => (h.ranked hL).mono (by omega)
    scopes_le := Nat.le_trans h.scopes_le hs
    sink := hk }

/-- A list that only the second store needs. -/
theorem newList_right (h : Paired L ρ st st') (vs : List Value) :
    Paired L ρ st (st'.newList vs).2 :=
  h.of_right (by simp) (Nat.le_refl _) (fun r hr => Store.items_newList_of_lt vs (h.list_lt r hr))
    (fun _ _ => rfl) h.sink

/-- A new list of the first store, and what stands for it. -/
theorem addList (h : Paired L ρ st st') {vs : List Value} {q : ListRef}
    (hv : ∀ v ∈ vs, v.Within L.shares st) (hq : q.index < st'.lists.size)
    (hi : st'.items q = vs.map (Value.rename ρ))
    (hn : ∀ r : ListRef, r.index < st.lists.size → ρ.list r = q → L.shares = true ∧ vs = [])
    (hr : L.acyclic = true →
      (st.newList vs).2.Ranked (min (st.lists.size + 1) st'.lists.size)) :
    Paired L (ρ.withList ⟨st.lists.size⟩ q) (st.newList vs).2 st' := by
  have ha := ρ.agree_withList st q
  have hnew : (ρ.withList ⟨st.lists.size⟩ q).list ⟨st.lists.size⟩ = q := if_pos rfl
  have hself : (st.newList vs).2.items ⟨st.lists.size⟩ = vs := Store.items_newList_self st vs
  have hkeep : ∀ r : ListRef, r.index < st.lists.size → (st.newList vs).2.items r = st.items r :=
    fun r hr => Store.items_newList_of_lt vs hr
  refine
    { sealed := h.sealed.newList hv
      list_lt := fun r hr => ?_
      scope_lt := h.scope_lt
      items := fun r hr => ?_
      scopes := fun s hs => ?_
      list_inj := fun r p hr hp he => ?_
      scope_inj := h.scope_inj
      ranked := by rw [Store.newList_lists_size]; exact hr
      scopes_le := h.scopes_le
      sink := h.sink }
  · rcases Store.lt_or_eq_of_newList hr with hr | rfl
    · rw [ha.list r hr]
      exact h.list_lt r hr
    · rw [hnew]
      exact hq
  · rcases Store.lt_or_eq_of_newList hr with hr | rfl
    · rw [ha.list r hr, hkeep r hr, h.items r hr, ha.map_rename fun v hv => h.sealed.items r v hv]
    · rw [hnew, hself, hi, ha.map_rename hv]
  · rw [Store.scopeAt_newList, ha.rename_scopeAt h.sealed]
    exact h.scopes s hs
  · rcases Store.lt_or_eq_of_newList hr with hr | rfl <;>
      rcases Store.lt_or_eq_of_newList hp with hp | rfl
    · rw [ha.list r hr, ha.list p hp] at he
      rw [hkeep r hr]
      exact h.list_inj r p hr hp he
    · rw [ha.list r hr, hnew] at he
      obtain ⟨hL, hvs⟩ := hn r hr he
      have hr' := h.items r hr
      rw [he, hi, hvs] at hr'
      rw [hkeep r hr]
      exact .inr ⟨hL, List.map_eq_nil_iff.mp hr'.symm⟩
    · rw [hnew, ha.list p hp] at he
      rw [hself]
      exact .inr (hn p hp he.symm)
    · exact .inl rfl

/-- Both stores get a new list. -/
theorem newList (h : Paired L ρ st st') {vs : List Value} (hv : ∀ v ∈ vs, v.Within L.shares st) :
    Paired L (ρ.withList ⟨st.lists.size⟩ ⟨st'.lists.size⟩) (st.newList vs).2
      (st'.newList (vs.map (Value.rename ρ))).2 := by
  refine (h.newList_right _).addList hv (by simp) (Store.items_newList_self st' _) ?_ ?_
  · intro r hr he
    have hl := h.list_lt r hr
    rw [he] at hl
    exact absurd hl (Nat.lt_irrefl _)
  · refine fun hL => ((h.ranked hL).newList h.sealed.closed
      fun v hm => (hv v hm).below.list).mono ?_
    rw [Store.newList_lists_size]
    omega

/-- The first store gets a new empty list, and an old one stands for it. -/
theorem newNil (h : Paired L ρ st st') (hL : L.shares = true) {q : ListRef}
    (hq : q.index < st.lists.size) (hi : st.items q = []) :
    Paired L (ρ.withList ⟨st.lists.size⟩ (ρ.list q)) (st.newList []).2 st' := by
  have hlt := h.list_lt q hq
  refine h.addList (List.forall_mem_nil _) hlt (by rw [h.items q hq, hi, List.map_nil]) (fun _ _ _ => ⟨hL, rfl⟩) ?_
  exact fun hL => ((h.ranked hL).newNil (by omega) h.sealed.closed).mono (by omega)

/-- Both stores get a new scope. -/
theorem newScope (h : Paired L ρ st st') {parent : Option ScopeRef}
    (hp : ∀ p, parent = some p → p.index < st.scopes.size) :
    Paired L (ρ.withScope ⟨st.scopes.size⟩ ⟨st'.scopes.size⟩) (st.newScope parent).2
      (st'.newScope (parent.map ρ.scope)).2 := by
  have ha := ρ.agree_withScope st ⟨st'.scopes.size⟩
  have hnew : (ρ.withScope ⟨st.scopes.size⟩ ⟨st'.scopes.size⟩).scope ⟨st.scopes.size⟩ =
    ⟨st'.scopes.size⟩ := if_pos rfl
  have hparent : parent.map (ρ.withScope ⟨st.scopes.size⟩ ⟨st'.scopes.size⟩).scope =
      parent.map ρ.scope := by
    cases parent with
    | none => rfl
    | some p => exact congrArg some (ha.scope p (hp p rfl))
  refine
    { sealed := h.sealed.newScope hp
      list_lt := h.list_lt
      scope_lt := fun s hs => ?_
      items := fun r hr => ?_
      scopes := fun s hs => ?_
      list_inj := h.list_inj
      scope_inj := fun s t hs ht he => ?_
      ranked := h.ranked
      scopes_le := by simpa using h.scopes_le
      sink := h.sink }
  · rw [Store.newScope_scopes_size]
    rcases Store.lt_or_eq_of_newScope hs with hs | rfl
    · rw [ha.scope s hs]
      exact Nat.lt_succ_of_lt (h.scope_lt s hs)
    · rw [hnew]
      exact Nat.lt_succ_self _
  · rw [Store.items_newScope, Store.items_newScope,
      ha.map_rename fun v hv => h.sealed.items r v hv]
    exact h.items r hr
  · rcases Store.lt_or_eq_of_newScope hs with hs | rfl
    · rw [ha.scope s hs, Store.scopeAt_newScope_of_lt _ hs,
        Store.scopeAt_newScope_of_lt _ (h.scope_lt s hs), ha.rename_scopeAt h.sealed]
      exact h.scopes s hs
    · rw [hnew, Store.scopeAt_newScope_self, Store.scopeAt_newScope_self, Scope.rename, hparent]
      rfl
  · rcases Store.lt_or_eq_of_newScope hs with hs | rfl <;>
      rcases Store.lt_or_eq_of_newScope ht with ht | rfl
    · rw [ha.scope s hs, ha.scope t ht] at he
      exact h.scope_inj s t hs ht he
    · rw [ha.scope s hs, hnew] at he
      have hl := h.scope_lt s hs
      rw [he] at hl
      exact absurd hl (Nat.lt_irrefl _)
    · rw [ha.scope t ht, hnew] at he
      have hl := h.scope_lt t ht
      rw [← he] at hl
      exact absurd hl (Nat.lt_irrefl _)
    · rfl

/-- A name is bound in both stores. -/
theorem define (h : Paired L ρ st st') {s : ScopeRef} (key : String) {v : Value}
    (hs : s.index < st.scopes.size) (hv : v.Within L.shares st) :
    Paired L ρ (st.define s key v) (st'.define (ρ.scope s) key (v.rename ρ)) := by
  refine
    { sealed := h.sealed.define s key hv
      list_lt := h.list_lt
      scope_lt := fun t ht => ?_
      items := h.items
      scopes := fun t ht => ?_
      list_inj := h.list_inj
      scope_inj := fun t u ht hu => ?_
      ranked := h.ranked
      scopes_le := by simpa using h.scopes_le
      sink := h.sink }
  · rw [Store.define_scopes_size] at ht ⊢
    exact h.scope_lt t ht
  · rw [Store.define_scopes_size] at ht
    by_cases he : t = s
    · subst he
      rw [Store.scopeAt_define_self key v hs, Store.scopeAt_define_self _ _ (h.scope_lt t hs),
        h.scopes t hs, Scope.rename, Scope.rename, Bindings.map_insert]
    · have hne : ρ.scope t ≠ ρ.scope s := fun hr => he (h.scope_inj t s ht hs hr)
      rw [Store.scopeAt_define_of_ne key v he, Store.scopeAt_define_of_ne _ _ hne]
      exact h.scopes t ht
  · rw [Store.define_scopes_size] at ht hu
    exact h.scope_inj t u ht hu

/-- Something is written to both outputs. -/
theorem withSink (h : Paired L ρ st st') {sink sink' : Sink} (hs : L.sinks sink sink') :
    Paired L ρ { st with sink } { st' with sink := sink' } :=
  { h with
    sealed := h.sealed.withSink sink
    ranked := fun hL => (h.ranked hL).of_lists_eq rfl
    sink := hs }

end Paired

namespace Extends

variable {L : Link} {ρ ρ₁ ρ₂ : Renaming} {st st' st'' st₁ st₁' st₂ st₂' : Store}

theorem refl (L : Link) (ρ : Renaming) (st st' : Store) : Extends L ρ st st' ρ st st' where
  toMoves := .refl ρ st st'
  grows := .refl st
  grows' := .refl st'
  covered h := h

theorem trans (h : Extends L ρ st st' ρ₁ st₁ st₁') (h' : Extends L ρ₁ st₁ st₁' ρ₂ st₂ st₂') :
    Extends L ρ st st' ρ₂ st₂ st₂' where
  toMoves := h.toMoves.trans h'.toMoves
  grows := h.grows.trans h'.grows
  grows' := h.grows'.trans h'.grows'
  covered hc := h'.covered (h.covered hc)

theorem newList_right (L : Link) (ρ : Renaming) (st : Store) {vs : List Value}
    (hv : ∀ v ∈ vs, ∃ w : Value, w.Within L.shares st ∧ v = w.rename ρ) :
    Extends L ρ st st' ρ st (st'.newList vs).2 where
  toMoves :=
    { Moves.refl ρ st st' with
      lists_le' := by simp
      items_eq := fun r hr _ => Store.items_newList_of_lt vs hr }
  grows := .refl st
  grows' := st'.grows_newList vs
  covered h := h.newList_right hv

/-- The first store gets a new list, and what stands for it is there. -/
theorem addList (vs : List Value) {q : ListRef}
    (hq : st'.lists.size ≤ q.index ∨ ∃ p : ListRef, p.index < st.lists.size ∧ q = ρ.list p) :
    Extends L ρ st st' (ρ.withList ⟨st.lists.size⟩ q) (st.newList vs).2 st' where
  toMoves :=
    { Moves.refl ρ st st' with
      lists_le := by simp
      agree := ρ.agree_withList st q
      list_fresh := fun r hr hl => by
        rcases Store.lt_or_eq_of_newList hl with hl | rfl
        · exact absurd hl (Nat.not_lt_of_le hr)
        · have hnew : (ρ.withList ⟨st.lists.size⟩ q).list ⟨st.lists.size⟩ = q := if_pos rfl
          rwa [hnew] }
  grows := st.grows_newList vs
  grows' := .refl st'
  covered h := h.addList vs q

theorem newList {vs : List Value} (hv : ∀ v ∈ vs, v.Within L.shares st) :
    Extends L ρ st st' (ρ.withList ⟨st.lists.size⟩ ⟨st'.lists.size⟩)
      (st.newList vs).2 (st'.newList (vs.map (Value.rename ρ))).2 where
  toMoves :=
    { (addList (L := L) vs (.inl (Nat.le_refl _))).toMoves with
      lists_le' := by simp
      items_eq := fun r hr _ => Store.items_newList_of_lt _ hr }
  grows := st.grows_newList vs
  grows' := st'.grows_newList _
  covered h := by
    refine (h.newList_right fun w hw => ?_).addList vs _
    obtain ⟨v, hm, rfl⟩ := List.mem_map.mp hw
    exact ⟨v, hv v hm, rfl⟩

theorem newScope {parent : Option ScopeRef}
    (hp : ∀ p, parent = some p → (ρ.scope p).index < st'.scopes.size) :
    Extends L ρ st st' (ρ.withScope ⟨st.scopes.size⟩ ⟨st'.scopes.size⟩)
      (st.newScope parent).2 (st'.newScope (parent.map ρ.scope)).2 where
  toMoves :=
    { Moves.refl ρ st st' with
      scopes_le := by simp
      scopes_le' := by simp
      agree := ρ.agree_withScope st _
      scope_fresh := fun s hs hl => by
        rcases Store.lt_or_eq_of_newScope hl with hl | rfl
        · exact absurd hl (Nat.not_lt_of_le hs)
        · exact Nat.le_of_eq (congrArg ScopeRef.index (if_pos rfl).symm)
      scopes_eq := fun s hs _ => Store.scopeAt_newScope_of_lt _ hs }
  grows := st.grows_newScope parent
  grows' := st'.grows_newScope _
  covered h := by
    refine h.step (ρ.agree_withScope st _) (st.grows_newScope parent) (fun _ _ hw => .inl hw)
      (fun s b hb => ?_) (fun s p hs => ?_)
    · rcases Store.lt_or_eq_of_newScope (Store.lt_of_mem_bindings hb) with hl | rfl
      · exact .inl (Store.scopeAt_newScope_of_lt _ hl ▸ hb)
      · rw [Store.scopeAt_newScope_self] at hb
        cases hb
    · rcases Store.lt_or_eq_of_newScope (Store.lt_of_parent hs) with hl | rfl
      · exact .inl (Store.scopeAt_newScope_of_lt _ hl ▸ hs)
      · rw [Store.scopeAt_newScope_self] at hs
        obtain ⟨q, hq, rfl⟩ := Option.map_eq_some_iff.mp hs
        exact .inr (hp q hq)

theorem define {s : ScopeRef} (key : String) {v : Value} (hs : s.index < st.scopes.size)
    (hv : v.Within L.shares st) :
    Extends L ρ st st' ρ (st.define s key v) (st'.define (ρ.scope s) key (v.rename ρ)) where
  toMoves :=
    { Moves.refl ρ st st' with
      scopes_le := by simp
      scopes_le' := by simp
      scope_fresh := fun t ht hl => absurd hl (by simpa using ht)
      scopes_eq := fun t _ hn => Store.scopeAt_define_of_ne _ _ (hn s hs).symm }
  grows := st.grows_define s key v
  grows' := st'.grows_define _ key _
  covered h := by
    have hd : ∀ t, (st'.define (ρ.scope s) key (v.rename ρ)).scopeAt t = st'.scopeAt t ∨
        (st'.define (ρ.scope s) key (v.rename ρ)).scopeAt t =
          { st'.scopeAt t with bindings := (st'.scopeAt t).bindings.insert key (v.rename ρ) } := by
      intro t
      by_cases ht : t = ρ.scope s
      · subst ht
        by_cases hl : (ρ.scope s).index < st'.scopes.size
        · exact .inr (Store.scopeAt_define_self key _ hl)
        · left
          rw [Store.scopeAt_of_le (Nat.le_of_not_lt hl), Store.scopeAt_of_le (by simpa using hl)]
      · exact .inl (Store.scopeAt_define_of_ne _ _ ht)
    refine h.step (.refl ρ st) (st.grows_define s key v) (fun _ _ hw => .inl hw)
      (fun t b hb => ?_) (fun t p hs => ?_)
    · rcases hd t with he | he <;> rw [he] at hb
      · exact .inl hb
      · rcases Bindings.mem_insert hb with hb | rfl
        · exact .inl hb
        · exact .inr ⟨v, hv, rfl⟩
    · rcases hd t with he | he <;> rw [he] at hs <;> exact .inl hs

theorem withSink (sink sink' : Sink) :
    Extends L ρ st st' ρ { st with sink } { st' with sink := sink' } where
  toMoves := { Moves.refl ρ st st' with agree := .refl ρ st }
  grows := st.grows_withSink sink
  grows' := st'.grows_withSink sink'
  covered h := h.step (.refl ρ st) (st.grows_withSink sink) (fun _ _ hw => .inl hw)
    (fun _ _ hb => .inl hb) (fun _ _ hs => .inl hs)

end Extends

/-! ## Lists that stand for nothing -/

/-- The list of the second store stands for nothing in the first one, so that it may be
changed. -/
structure Private (ρ : Renaming) (st st' : Store) (q : ListRef) : Prop where
  lt : q.index < st'.lists.size
  ne : ∀ r : ListRef, r.index < st.lists.size → ρ.list r ≠ q

namespace Private

variable {L : Link} {ρ ρ₁ : Renaming} {st st' st₁ st₁' : Store} {q : ListRef}

/-- A private list stays private, -/
theorem mono (h : Private ρ st st' q) (hx : Carries ρ st st' ρ₁ st₁ st₁') :
    Private ρ₁ st₁ st₁' q where
  lt := Nat.lt_of_lt_of_le h.lt hx.lists_le'
  ne r hr he := by
    by_cases hl : r.index < st.lists.size
    · rw [hx.agree.list r hl] at he
      exact h.ne r hl he
    · rcases hx.list_fresh r (Nat.le_of_not_lt hl) hr with hm | ⟨p, hp, hpe⟩
      · rw [he] at hm
        exact Nat.not_lt_of_le hm h.lt
      · exact h.ne p hp (hpe.symm.trans he)

/-- and nothing happens to it. -/
theorem items_eq (h : Private ρ st st' q) (hx : Moves ρ st st' ρ₁ st₁ st₁') :
    st₁'.items q = st'.items q :=
  hx.items_eq q h.lt h.ne

/-- A new list of the second store is private. -/
theorem newList (h : Paired L ρ st st') (vs : List Value) :
    Private ρ st (st'.newList vs).2 ⟨st'.lists.size⟩ where
  lt := by simp
  ne r hr he := by
    have hl := h.list_lt r hr
    rw [he] at hl
    exact Nat.lt_irrefl _ hl

/-- Extending a private list changes nothing in the first store. -/
theorem extend (h : Private ρ st st' q) (hp : Paired L ρ st st') (v : Value) :
    Paired L ρ st (st'.extend q v) :=
  hp.of_right (by simp) (Nat.le_refl _)
    (fun r hr => Store.items_extend_of_ne v (h.ne r hr)) (fun _ _ => rfl) hp.sink

end Private

end LispEngines
