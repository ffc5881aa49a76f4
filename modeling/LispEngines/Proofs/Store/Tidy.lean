import LispEngines.Proofs.Effects
import LispEngines.Scope
import Mathlib.Data.Finset.Card

/-!
# Tidy stores

What the operations of the store do to each address, and what they keep: nothing refers
beyond the store, no list contains itself, and a scope lies in an older one.

* `Value.Below`, `Value.Within`: a value that refers to nothing beyond the store.
* `Store.Descends`, `Store.Ranked`: a rank that falls from a list to its elements.
* `Store.Grows`: nothing has been lost, and no list has changed.
* `Store.OnlyGrows`: no scope has changed either.
* `Store.Sealed`, `Store.Tidy`: what the operations keep.

A machine program can put a list into itself; then the store is sealed and not tidy.  It can
also call any list a procedure, so it is not true of all engines that a procedure has
parameters and a body.  What depends on it says so: it is `strict`.

The engines leave a tidy store tidy, and so does whatever else a host does with it
(`Session.tidy`).  That excepts machine programs other than the evaluator.
-/

namespace LispEngines

/-! ## What the stores do -/

namespace Store

variable {st : Store}

theorem items_of_le {r : ListRef} (h : st.lists.size ≤ r.index) : st.items r = [] := by
  simp [Store.items, Array.getElem?_eq_none h]

theorem scopeAt_of_le {s : ScopeRef} (h : st.scopes.size ≤ s.index) : st.scopeAt s = {} := by
  simp [scopeAt, Array.getElem?_eq_none h]

@[simp] theorem newList_lists_size (items : List Value) :
    (st.newList items).2.lists.size = st.lists.size + 1 := Array.size_push _

@[simp] theorem newList_scopes (items : List Value) : (st.newList items).2.scopes = st.scopes := rfl

@[simp] theorem newList_sink (items : List Value) : (st.newList items).2.sink = st.sink := rfl

@[simp] theorem scopeAt_newList (items : List Value) (s : ScopeRef) :
    (st.newList items).2.scopeAt s = st.scopeAt s := rfl

@[simp] theorem newScope_scopes_size (parent : Option ScopeRef) :
    (st.newScope parent).2.scopes.size = st.scopes.size + 1 := Array.size_push _

@[simp] theorem newScope_lists (parent : Option ScopeRef) :
    (st.newScope parent).2.lists = st.lists := rfl

@[simp] theorem items_newScope (parent : Option ScopeRef) (r : ListRef) :
    (st.newScope parent).2.items r = st.items r := rfl

theorem scopeAt_newScope_of_lt (parent : Option ScopeRef) {s : ScopeRef}
    (h : s.index < st.scopes.size) : (st.newScope parent).2.scopeAt s = st.scopeAt s := by
  simp [scopeAt, newScope, Array.getElem?_push, Nat.ne_of_lt h]

theorem scopeAt_newScope_self (parent : Option ScopeRef) :
    (st.newScope parent).2.scopeAt ⟨st.scopes.size⟩ = { parent } := by
  simp [scopeAt, newScope]

@[simp] theorem define_lists (s : ScopeRef) (key : String) (v : Value) :
    (st.define s key v).lists = st.lists := rfl

@[simp] theorem define_scopes_size (s : ScopeRef) (key : String) (v : Value) :
    (st.define s key v).scopes.size = st.scopes.size := Array.size_modify

theorem scopeAt_define_self {s : ScopeRef} (key : String) (v : Value)
    (h : s.index < st.scopes.size) : (st.define s key v).scopeAt s =
      { st.scopeAt s with bindings := (st.scopeAt s).bindings.insert key v } := by
  simp [scopeAt, define, h, Array.getElem_modify_self]

theorem scopeAt_define_of_ne {s t : ScopeRef} (key : String) (v : Value) (h : t ≠ s) :
    (st.define s key v).scopeAt t = st.scopeAt t := by
  have hi : s.index ≠ t.index := fun hi => h (by cases s; cases t; exact congrArg _ hi.symm)
  simp [scopeAt, define, Array.getElem?_modify, hi]

@[simp] theorem extend_lists_size (r : ListRef) (v : Value) :
    (st.extend r v).lists.size = st.lists.size := Array.size_modify

theorem items_extend_self {r : ListRef} (v : Value) (h : r.index < st.lists.size) :
    (st.extend r v).items r = st.items r ++ [v] := by
  simp [Store.items, extend, h, Array.getElem_modify_self]

theorem items_extend_of_ne {r q : ListRef} (v : Value) (h : q ≠ r) :
    (st.extend r v).items q = st.items q := by
  have hi : r.index ≠ q.index := fun hi => h (by cases r; cases q; exact congrArg _ hi.symm)
  simp [Store.items, extend, Array.getElem?_modify, hi]

/-- An address of the store after an allocation is an old one or the new one. -/
theorem lt_or_eq_of_newList {vs : List Value} {r : ListRef}
    (h : r.index < (st.newList vs).2.lists.size) :
    r.index < st.lists.size ∨ r = ⟨st.lists.size⟩ := by
  rw [newList_lists_size] at h
  rcases Nat.lt_succ_iff_lt_or_eq.mp h with hr | hr
  · exact .inl hr
  · exact .inr (by cases r; exact congrArg _ hr)

theorem lt_or_eq_of_newScope {parent : Option ScopeRef} {s : ScopeRef}
    (h : s.index < (st.newScope parent).2.scopes.size) :
    s.index < st.scopes.size ∨ s = ⟨st.scopes.size⟩ := by
  rw [newScope_scopes_size] at h
  rcases Nat.lt_succ_iff_lt_or_eq.mp h with hs | hs
  · exact .inl hs
  · exact .inr (by cases s; exact congrArg _ hs)

theorem lt_of_mem_items {r : ListRef} {v : Value} (h : v ∈ st.items r) : r.index < st.lists.size :=
  index_lt_of_items_ne_nil (List.ne_nil_of_mem h)

theorem lt_of_mem_bindings {s : ScopeRef} {b : String × Value}
    (h : b ∈ (st.scopeAt s).bindings) : s.index < st.scopes.size := by
  by_contra hs
  rw [scopeAt_of_le (Nat.le_of_not_lt hs)] at h
  cases h

theorem lt_of_parent {s p : ScopeRef} (h : (st.scopeAt s).parent = some p) :
    s.index < st.scopes.size := by
  by_contra hs
  rw [scopeAt_of_le (Nat.le_of_not_lt hs)] at h
  cases h

end Store

/-! ## Values within a store -/

namespace Value

variable {strict : Bool} {v : Value}

/-- The value refers to addresses below these bounds only. -/
structure Below (lists scopes : Nat) (v : Value) : Prop where
  list : ∀ r, v.list? = some r → r.index < lists
  scope : ∀ s, v.scope? = some s → s.index < scopes

/-- A procedure has parameters and a body. -/
def WellFormed (st : Store) : Value → Prop
  | .lambda c | .expander c => 3 ≤ (st.items c.form).length
  | _ => True

/-- The value refers to nothing beyond the store. -/
structure Within (strict : Bool) (st : Store) (v : Value) : Prop where
  below : v.Below st.lists.size st.scopes.size
  wellFormed : strict = true → v.WellFormed st

theorem Below.mono {lists scopes lists' scopes' : Nat} (h : v.Below lists scopes)
    (hl : lists ≤ lists') (hs : scopes ≤ scopes') : v.Below lists' scopes' :=
  ⟨fun r hr => Nat.lt_of_lt_of_le (h.list r hr) hl, fun s hv => Nat.lt_of_lt_of_le (h.scope s hv) hs⟩

theorem Below.within {st : Store} (h : v.Below st.lists.size st.scopes.size) :
    v.Within false st := ⟨h, nofun⟩

theorem below_of_none {lists scopes : Nat} (hl : v.list? = none) (hs : v.scope? = none) :
    v.Below lists scopes := by
  refine ⟨fun r hr => ?_, fun s hv => ?_⟩
  · rw [hl] at hr
    cases hr
  · rw [hs] at hv
    cases hv

/-- What refers to nothing is within every store. -/
theorem within_of_none {st : Store} (hl : v.list? = none) (hs : v.scope? = none) :
    v.Within strict st := by
  refine ⟨below_of_none hl hs, fun _ => ?_⟩
  cases v with
  | lambda c => cases hl
  | expander c => cases hl
  | _ => trivial

theorem within_list {st : Store} {r : ListRef} (h : r.index < st.lists.size) :
    (Value.list r).Within strict st :=
  ⟨⟨fun _ hr => (by cases hr; exact h), fun _ hs => (by cases hs)⟩, fun _ => trivial⟩

theorem within_scope {st : Store} {s : ScopeRef} (h : s.index < st.scopes.size) :
    (Value.scope s).Within strict st :=
  ⟨⟨fun _ hr => (by cases hr), fun _ hs => (by cases hs; exact h)⟩, fun _ => trivial⟩

end Value

/-! ## Growing stores -/

namespace Store

/-- The store has all that the other one had, and its lists have not changed. -/
structure Grows (st st' : Store) : Prop where
  lists : st.KeepsLists st'
  scopes : st.scopes.size ≤ st'.scopes.size

theorem Grows.refl (st : Store) : st.Grows st := ⟨.refl st, Nat.le_refl _⟩

theorem Grows.trans {st st₁ st₂ : Store} (h : st.Grows st₁) (h' : st₁.Grows st₂) : st.Grows st₂ :=
  ⟨h.lists.trans h'.lists, Nat.le_trans h.scopes h'.scopes⟩

variable {st : Store}

theorem grows_newList (vs : List Value) : st.Grows (st.newList vs).2 :=
  ⟨.newList st vs, Nat.le_refl _⟩

theorem grows_newScope (parent : Option ScopeRef) : st.Grows (st.newScope parent).2 :=
  ⟨.of_lists_eq rfl, by simp⟩

theorem grows_define (s : ScopeRef) (key : String) (v : Value) : st.Grows (st.define s key v) :=
  ⟨.of_lists_eq rfl, by simp⟩

theorem grows_withSink (sink : Sink) : st.Grows { st with sink } :=
  ⟨.of_lists_eq rfl, Nat.le_refl _⟩

/-- The store has all that the other one had, and neither lists nor scopes have changed. -/
structure OnlyGrows (st st' : Store) : Prop extends st.Grows st' where
  scopeAt_eq : ∀ s : ScopeRef, s.index < st.scopes.size → st'.scopeAt s = st.scopeAt s

namespace OnlyGrows

variable {st₁ st₂ : Store}

theorem refl (st : Store) : st.OnlyGrows st := ⟨.refl st, fun _ _ => rfl⟩

theorem trans (h : st.OnlyGrows st₁) (h' : st₁.OnlyGrows st₂) : st.OnlyGrows st₂ :=
  ⟨h.toGrows.trans h'.toGrows, fun s hs =>
    (h'.scopeAt_eq s (Nat.lt_of_lt_of_le hs h.scopes)).trans (h.scopeAt_eq s hs)⟩

theorem newList (vs : List Value) : st.OnlyGrows (st.newList vs).2 :=
  ⟨grows_newList vs, fun _ _ => rfl⟩

theorem newScope (parent : Option ScopeRef) : st.OnlyGrows (st.newScope parent).2 :=
  ⟨grows_newScope parent, fun _ hs => scopeAt_newScope_of_lt parent hs⟩

theorem withSink (sink : Sink) : st.OnlyGrows { st with sink } :=
  ⟨grows_withSink sink, fun _ _ => rfl⟩

/-- What is bound in a scope that was not there changes nothing that was. -/
theorem define (h : st.OnlyGrows st₁) {s : ScopeRef} (hs : st.scopes.size ≤ s.index) (key : String)
    (v : Value) : st.OnlyGrows (st₁.define s key v) := by
  refine ⟨h.toGrows.trans (grows_define s key v), fun t ht => ?_⟩
  have hne : t ≠ s := fun hts => Nat.not_lt.mpr hs (hts ▸ ht)
  rw [scopeAt_define_of_ne key v hne, h.scopeAt_eq t ht]

end OnlyGrows

end Store

namespace Action

variable {α β : Type} {st₀ : Store}

/-- A store that has only grown out of `st₀` is still such a store after the action, whatever
comes of it. -/
def Spares (st₀ : Store) (a : Action α) : Prop := ∀ st, st₀.OnlyGrows st → st₀.OnlyGrows (a st).2

namespace Spares

theorem bind {a : Action α} {f : α → Action β} (ha : Spares st₀ a) (hf : ∀ v, Spares st₀ (f v)) :
    Spares st₀ (a >>= f) := by
  intro st h
  have hst := ha st h
  rw [bind_apply]
  rcases hr : a st with ⟨e | v, st'⟩ <;> rw [hr] at hst
  · exact hst
  · exact hf v st' hst

theorem reads {a : Action α} (h : ∀ st, (a st).2 = st) : Spares st₀ a := fun st hst => by
  rw [h]
  exact hst

theorem newList (items : List Value) : Spares st₀ (newList items) :=
  fun _ h => h.trans (.newList items)

theorem newScope (parent : Option ScopeRef) : Spares st₀ (newScope parent) :=
  fun _ h => h.trans (.newScope parent)

theorem define {s : ScopeRef} (hs : st₀.scopes.size ≤ s.index) (key : String) (v : Value) :
    Spares st₀ (define s key v) :=
  fun _ h => h.define hs key v

theorem write (t : String) (refused : String → Failure) : Spares st₀ (write t refused) := by
  intro st h
  rw [Action.write]
  split
  · exact h.trans (.withSink _)
  · exact h

theorem adds {a : Action α} (h : a.Adds) : Spares st₀ a := by
  induction h with
  | reads hs _ => exact .reads hs
  | bind _ _ iha ihf => exact iha.bind ihf
  | newList items => exact .newList items
  | newScope parent => exact .newScope parent
  | write t => exact .write t _

/-- Names that are bound in a new scope change no scope that was there, wherever the binding
stops. -/
theorem bindAll {s : ScopeRef} (hs : st₀.scopes.size ≤ s.index) :
    ∀ names values : List Value, Spares st₀ (bindAll s names values)
  | [], _ => .reads fun _ => rfl
  | _ :: _, [] => .reads fun _ => rfl
  | name :: names, v :: values =>
    .bind (.reads fun st => by rw [keyText]; split <;> rfl) fun key =>
      .bind (.define hs key v) fun _ => bindAll hs names values

end Spares

theorem Spares.onlyGrows {a : Action α} {st : Store} (h : Spares st a) : st.OnlyGrows (a st).2 :=
  h st (.refl st)

/-- The scope of a call is new, and what is bound is bound in it. -/
theorem onlyGrows_bindParameters (params : Value) (args : List Value) (parent : ScopeRef)
    (st : Store) : st.OnlyGrows (bindParameters params args parent st).2 := by
  have hnew (f : ScopeRef → Action ScopeRef) (hf : Spares st (f ⟨st.scopes.size⟩)) :
      st.OnlyGrows ((newScope (some parent) >>= f) st).2 := hf _ (.newScope _)
  refine hnew _ ?_
  cases params with
  | symbol name =>
    exact .bind (.newList args) fun v => .bind (.define (Nat.le_refl _) name v) fun _ =>
      .reads fun _ => rfl
  | list r =>
    refine .bind (.reads fun _ => rfl) fun st₁ => ?_
    have hbind : Spares st (bindAll ⟨st.scopes.size⟩ (st₁.items r) args >>= fun _ =>
        (pure ⟨st.scopes.size⟩ : Action ScopeRef)) :=
      .bind (.bindAll (Nat.le_refl _) _ args) fun _ => .reads fun _ => rfl
    dsimp only
    split
    · exact .bind (.reads fun _ => rfl) fun _ => hbind
    · exact hbind
  | _ => exact .bind (.reads fun _ => rfl) fun _ => .reads fun _ => rfl

end Action

theorem Value.Within.mono {strict : Bool} {st st' : Store} {v : Value} (h : v.Within strict st)
    (hg : st.Grows st') : v.Within strict st' := by
  refine ⟨h.below.mono hg.lists.size_le hg.scopes, fun hs => ?_⟩
  have hw := h.wellFormed hs
  cases v with
  | lambda c =>
    show 3 ≤ (st'.items c.form).length
    rw [hg.lists.items_eq _ (h.below.list _ rfl)]
    exact hw
  | expander c =>
    show 3 ≤ (st'.items c.form).length
    rw [hg.lists.items_eq _ (h.below.list _ rfl)]
    exact hw
  | _ => trivial

/-! ## Ranks -/

namespace Store

/-- The rank falls from a list to the lists behind its elements. -/
def Descends (st : Store) (rank : ListRef → Nat) : Prop :=
  ∀ r, ∀ v ∈ st.items r, ∀ q, v.list? = some q → rank q < rank r

/-- No list contains itself, directly or by way of others. -/
def Acyclic (st : Store) : Prop := ∃ rank, st.Descends rank

/-- No list contains itself, and `n` ranks are enough. -/
def Ranked (st : Store) (n : Nat) : Prop :=
  ∃ rank, st.Descends rank ∧ ∀ r : ListRef, r.index < st.lists.size → rank r < n

variable {st : Store} {n : Nat}

theorem Ranked.acyclic (h : st.Ranked n) : st.Acyclic :=
  let ⟨rank, hd, _⟩ := h
  ⟨rank, hd⟩

theorem Ranked.mono {m : Nat} (h : st.Ranked n) (hm : n ≤ m) : st.Ranked m :=
  let ⟨rank, hd, hn⟩ := h
  ⟨rank, hd, fun r hr => Nat.lt_of_lt_of_le (hn r hr) hm⟩

/-- The number of lists of smaller rank is a rank as well. -/
theorem Acyclic.ranked (h : st.Acyclic)
    (hc : ∀ r, ∀ v ∈ st.items r, ∀ q, v.list? = some q → q.index < st.lists.size) :
    st.Ranked st.lists.size := by
  obtain ⟨rank, hd⟩ := h
  let smaller (r : ListRef) : Finset Nat :=
    (Finset.range st.lists.size).filter fun i => rank ⟨i⟩ < rank r
  refine ⟨fun r => (smaller r).card, fun r v hv q hq => Finset.card_lt_card ?_, fun r hr => ?_⟩
  · have hlt := hd r v hv q hq
    refine Finset.ssubset_iff_of_subset (fun i hi => ?_) |>.mpr ⟨q.index, ?_, ?_⟩
    · rw [Finset.mem_filter] at hi ⊢
      exact ⟨hi.1, Nat.lt_trans hi.2 hlt⟩
    · exact Finset.mem_filter.mpr ⟨Finset.mem_range.mpr (hc r v hv q hq), hlt⟩
    · exact fun hm => Nat.lt_irrefl _ (Finset.mem_filter.mp hm).2
  · have hs : smaller r ⊂ Finset.range st.lists.size :=
      Finset.ssubset_iff_of_subset (Finset.filter_subset _ _) |>.mpr
        ⟨r.index, Finset.mem_range.mpr hr, fun hm => Nat.lt_irrefl _ (Finset.mem_filter.mp hm).2⟩
    exact Nat.lt_of_lt_of_eq (Finset.card_lt_card hs) (Finset.card_range _)

/-- Stores with the same lists have the same ranks. -/
theorem Ranked.of_lists_eq {st' : Store} (h : st.Ranked n) (hl : st'.lists = st.lists) :
    st'.Ranked n := by
  obtain ⟨rank, hd, hn⟩ := h
  have hi : ∀ r, st'.items r = st.items r := fun r => by rw [Store.items, Store.items, hl]
  exact ⟨rank, fun r => hi r ▸ hd r, hl ▸ hn⟩

/-- A new list is given a rank above those of its elements. -/
theorem Descends.newList {rank : ListRef → Nat} (h : st.Descends rank) {vs : List Value} {k : Nat}
    (hc : ∀ r, ∀ v ∈ st.items r, ∀ q, v.list? = some q → q.index < st.lists.size)
    (hv : ∀ v ∈ vs, ∀ q, v.list? = some q → q.index < st.lists.size ∧ rank q < k) :
    (st.newList vs).2.Descends fun r => if r = ⟨st.lists.size⟩ then k else rank r := by
  have hold : ∀ q : ListRef, q.index < st.lists.size → q ≠ ⟨st.lists.size⟩ := fun q hq he =>
    Nat.lt_irrefl _ (he ▸ hq)
  intro r v hr q hq
  dsimp only
  rcases lt_or_eq_of_newList (lt_of_mem_items hr) with hl | rfl
  · rw [items_newList_of_lt vs hl] at hr
    rw [if_neg (hold q (hc r v hr q hq)), if_neg (hold r hl)]
    exact h r v hr q hq
  · obtain ⟨hl, hk⟩ := hv v (by rwa [← items_newList_self st vs]) q hq
    rw [if_neg (hold q hl), if_pos rfl]
    exact hk

theorem lt_of_newList {rank : ListRef → Nat} {vs : List Value} {k m : Nat} (hk : k < m)
    (hn : ∀ r : ListRef, r.index < st.lists.size → rank r < m) (r : ListRef)
    (hr : r.index < (st.newList vs).2.lists.size) :
    (if r = ⟨st.lists.size⟩ then k else rank r) < m := by
  rcases lt_or_eq_of_newList hr with hl | rfl
  · rw [if_neg fun he => Nat.lt_irrefl _ (he ▸ hl)]
    exact hn r hl
  · rw [if_pos rfl]
    exact hk

/-- A new list ranks above all that is there. -/
theorem Ranked.newList (h : st.Ranked n) {vs : List Value}
    (hc : ∀ r, ∀ v ∈ st.items r, ∀ q, v.list? = some q → q.index < st.lists.size)
    (hv : ∀ v ∈ vs, ∀ q, v.list? = some q → q.index < st.lists.size) :
    (st.newList vs).2.Ranked (n + 1) := by
  obtain ⟨rank, hd, hn⟩ := h
  exact ⟨_, hd.newList hc fun v hm q hq => ⟨hv v hm q hq, hn q (hv v hm q hq)⟩,
    lt_of_newList (Nat.lt_succ_self n) fun r hr => Nat.lt_succ_of_lt (hn r hr)⟩

/-- A new list without elements needs no rank of its own. -/
theorem Ranked.newNil (h : st.Ranked n) (hp : 0 < n)
    (hc : ∀ r, ∀ v ∈ st.items r, ∀ q, v.list? = some q → q.index < st.lists.size) :
    (st.newList []).2.Ranked n := by
  obtain ⟨rank, hd, hn⟩ := h
  exact ⟨_, hd.newList hc nofun, lt_of_newList hp hn⟩

end Store

/-! ## Tidy stores -/

namespace Store

/-- Nothing refers beyond the store, and scopes lie in older scopes. -/
structure Sealed (strict : Bool) (st : Store) : Prop where
  items : ∀ r, ∀ v ∈ st.items r, v.Within strict st
  bindings : ∀ s, ∀ b ∈ (st.scopeAt s).bindings, b.2.Within strict st
  parent_lt : ∀ s p, (st.scopeAt s).parent = some p → p.index < s.index

/-- Nothing refers beyond the store, no list contains itself, and scopes lie in older
scopes. -/
structure Tidy (strict : Bool) (st : Store) : Prop where
  items : ∀ r, ∀ v ∈ st.items r, v.Within strict st
  bindings : ∀ s, ∀ b ∈ (st.scopeAt s).bindings, b.2.Within strict st
  parent_lt : ∀ s p, (st.scopeAt s).parent = some p → p.index < s.index
  acyclic : st.Acyclic

namespace Sealed

variable {strict : Bool} {st : Store}

theorem tidy (h : st.Sealed strict) (ha : st.Acyclic) : st.Tidy strict := { h with acyclic := ha }

theorem within_items (h : st.Sealed strict) {v w : Value} (hw : w ∈ v.items st) :
    w.Within strict st := by
  rw [Value.items] at hw
  cases hl : v.list? with
  | none =>
    rw [hl] at hw
    cases hw
  | some r =>
    rw [hl] at hw
    exact h.items r w hw

/-- The lists behind elements are in the store. -/
theorem closed (h : st.Sealed strict) :
    ∀ r, ∀ v ∈ st.items r, ∀ q, v.list? = some q → q.index < st.lists.size :=
  fun r v hv => (h.items r v hv).below.list

theorem newList (h : st.Sealed strict) {vs : List Value} (hv : ∀ v ∈ vs, v.Within strict st) :
    (st.newList vs).2.Sealed strict where
  items r v hr := by
    rcases lt_or_eq_of_newList (lt_of_mem_items hr) with hl | rfl
    · rw [items_newList_of_lt vs hl] at hr
      exact (h.items r v hr).mono (grows_newList vs)
    · exact (hv v (by rwa [← items_newList_self st vs])).mono (grows_newList vs)
  bindings s b hb := (h.bindings s b hb).mono (grows_newList vs)
  parent_lt := h.parent_lt

theorem newScope (h : st.Sealed strict) {parent : Option ScopeRef}
    (hp : ∀ p, parent = some p → p.index < st.scopes.size) :
    (st.newScope parent).2.Sealed strict where
  items r v hr := (h.items r v hr).mono (grows_newScope parent)
  bindings s b hb := by
    rcases lt_or_eq_of_newScope (lt_of_mem_bindings hb) with hs | rfl
    · rw [scopeAt_newScope_of_lt parent hs] at hb
      exact (h.bindings s b hb).mono (grows_newScope parent)
    · rw [scopeAt_newScope_self] at hb
      cases hb
  parent_lt s p hs := by
    rcases lt_or_eq_of_newScope (lt_of_parent hs) with hl | rfl
    · rw [scopeAt_newScope_of_lt parent hl] at hs
      exact h.parent_lt s p hs
    · rw [scopeAt_newScope_self] at hs
      exact hp p hs

theorem withSink (h : st.Sealed strict) (sink : Sink) : { st with sink }.Sealed strict where
  items r v hr := (h.items r v hr).mono (grows_withSink sink)
  bindings s b hb := (h.bindings s b hb).mono (grows_withSink sink)
  parent_lt := h.parent_lt

end Sealed

namespace Tidy

variable {strict : Bool} {st : Store}

theorem sealed (h : st.Tidy strict) : st.Sealed strict := { h with }

/-- What procedures look like need not be known. -/
theorem lax (h : st.Tidy strict) : st.Tidy false where
  items r v hr := (h.items r v hr).below.within
  bindings s b hb := (h.bindings s b hb).below.within
  parent_lt := h.parent_lt
  acyclic := h.acyclic

theorem ranked (h : st.Tidy strict) : st.Ranked st.lists.size := h.acyclic.ranked h.sealed.closed

theorem newList (h : st.Tidy strict) {vs : List Value} (hv : ∀ v ∈ vs, v.Within strict st) :
    (st.newList vs).2.Tidy strict :=
  (h.sealed.newList hv).tidy
    (h.ranked.newList h.sealed.closed fun v hm => (hv v hm).below.list).acyclic

theorem empty (sink : Sink) : ({ sink } : Store).Tidy strict where
  items _ _ hr := absurd (lt_of_mem_items hr) (Nat.not_lt_zero _)
  bindings _ _ hb := absurd (lt_of_mem_bindings hb) (Nat.not_lt_zero _)
  parent_lt _ _ hs := absurd (lt_of_parent hs) (Nat.not_lt_zero _)
  acyclic := ⟨fun _ => 0, fun _ _ hr => absurd (lt_of_mem_items hr) (Nat.not_lt_zero _)⟩

theorem newScope (h : st.Tidy strict) {parent : Option ScopeRef}
    (hp : ∀ p, parent = some p → p.index < st.scopes.size) :
    (st.newScope parent).2.Tidy strict := (h.sealed.newScope hp).tidy h.acyclic

end Tidy

end Store

namespace Bindings

theorem mem_insert {b : Bindings} {key : String} {v : Value} {e : String × Value}
    (h : e ∈ b.insert key v) : e ∈ b ∨ e = (key, v) := by
  induction b with
  | nil => exact .inr (List.mem_singleton.mp h)
  | cons p rest ih =>
    obtain ⟨k, w⟩ := p
    rw [insert] at h
    by_cases hk : k = key
    · rw [if_pos hk, hk] at h
      rcases List.mem_cons.mp h with rfl | h
      · exact .inr rfl
      · exact .inl (List.mem_cons_of_mem _ h)
    · rw [if_neg hk] at h
      rcases List.mem_cons.mp h with rfl | h
      · exact .inl (List.mem_cons_self ..)
      · exact (ih h).imp_left (List.mem_cons_of_mem _)

theorem map_insert (f : Value → Value) (b : Bindings) (key : String) (v : Value) :
    (b.insert key v).map (fun e => (e.1, f e.2)) =
      Bindings.insert (b.map fun e => (e.1, f e.2)) key (f v) := by
  induction b with
  | nil => rfl
  | cons p rest ih =>
    obtain ⟨k, w⟩ := p
    by_cases hk : k = key
    · simp [insert, hk]
    · simp [insert, hk, ih]

theorem get?_map (f : Value → Value) (b : Bindings) (key : String) :
    Bindings.get? (b.map fun e => (e.1, f e.2)) key = (b.get? key).map f := by
  induction b with
  | nil => rfl
  | cons p rest ih =>
    obtain ⟨k, w⟩ := p
    by_cases hk : k = key
    · simp [get?, hk]
    · simp [get?, hk, ih]

theorem mem_of_get? {b : Bindings} {key : String} {v : Value} (h : b.get? key = some v) :
    (key, v) ∈ b := by
  induction b with
  | nil => cases h
  | cons p rest ih =>
    obtain ⟨k, w⟩ := p
    rw [get?] at h
    by_cases hk : k = key
    · rw [if_pos hk] at h
      cases h
      exact hk ▸ List.mem_cons_self ..
    · rw [if_neg hk] at h
      exact List.mem_cons_of_mem _ (ih h)

end Bindings

theorem Store.Sealed.define {strict : Bool} {st : Store} (h : st.Sealed strict) (s : ScopeRef)
    (key : String) {v : Value} (hv : v.Within strict st) : (st.define s key v).Sealed strict where
  items r w hr := (h.items r w hr).mono (grows_define s key v)
  bindings t b hb := by
    by_cases ht : t = s
    · subst ht
      by_cases hl : t.index < st.scopes.size
      · rw [scopeAt_define_self key v hl] at hb
        rcases Bindings.mem_insert hb with hb | rfl
        · exact (h.bindings t b hb).mono (grows_define t key v)
        · exact hv.mono (grows_define t key v)
      · exact absurd (lt_of_mem_bindings hb) (by simpa using hl)
    · rw [scopeAt_define_of_ne key v ht] at hb
      exact (h.bindings t b hb).mono (grows_define s key v)
  parent_lt t p hp := by
    by_cases ht : t = s
    · subst ht
      by_cases hl : t.index < st.scopes.size
      · rw [scopeAt_define_self key v hl] at hp
        exact h.parent_lt t p hp
      · exact absurd (lt_of_parent hp) (by simpa using hl)
    · rw [scopeAt_define_of_ne key v ht] at hp
      exact h.parent_lt t p hp

end LispEngines
