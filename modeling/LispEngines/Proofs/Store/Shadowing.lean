import LispEngines.Proofs.Store.Reading

/-!
# What an outer scope shows through

Scopes make a tree of tables that change in place, so one definition or assignment can be
seen from many scopes: from those whose chain passes the scope it is made in, unless a nearer scope
binds the same name.  This module says exactly from which.

`Store.Exposed t s key` is the condition: `s` is on the chain of `t`, and no scope before it binds
`key`.  Everything follows from two remarks.  A scope means by a name what the first
scope of its chain that binds the name says (`Store.lookup?_eq`), and that scope is the exposed one
that binds it (`Store.find?_eq_some_iff`).  A definition moves no chain and adds one name to one
scope, so it makes a difference to `t` exactly where it is made in a scope exposed to `t`
(`Store.find?_define_of_exposed`, `Store.find?_define_of_not_exposed`).

The only assumption is that chains end (`Store.Rooted`), which holds where a scope is younger
than the one around it, and goes on to hold after a definition.  A chain that ends has no scope twice, so it is no longer
than the store has scopes, and `chain` gives all of it (`Store.Chain.chain_eq`).

`Store.Rooted.lexical` is the result for looking up, defining and assigning.
-/

namespace LispEngines

namespace Store

variable {st : Store} {s t u : ScopeRef} {key : String} {v : Value}

/-! ## Chains that end -/

/-- A scope and the scopes around it, nearest first, out to one that has none around it. -/
inductive Chain (st : Store) : ScopeRef → List ScopeRef → Prop
  | root {s : ScopeRef} (hs : s.index < st.scopes.size) (hp : (st.scopeAt s).parent = none) :
    Chain st s [s]
  | inner {s p : ScopeRef} {ts : List ScopeRef} (hp : (st.scopeAt s).parent = some p)
      (hc : Chain st p ts) : Chain st s (s :: ts)

namespace Chain

theorem lt_size {ts : List ScopeRef} (hc : st.Chain s ts) (ht : t ∈ ts) :
    t.index < st.scopes.size := by
  induction hc with
  | root hs _ => exact List.mem_singleton.mp ht ▸ hs
  | inner hp _ ih =>
    rcases List.mem_cons.mp ht with rfl | ht
    · exact lt_of_parent hp
    · exact ih ht

/-- A scope has one chain. -/
theorem unique {ts us : List ScopeRef} (hc : st.Chain s ts) (hd : st.Chain s us) : ts = us := by
  induction hc generalizing us with
  | root _ hp =>
    cases hd with
    | root => rfl
    | inner hq _ => rw [hp] at hq; cases hq
  | inner hp _ ih =>
    cases hd with
    | root _ hq => rw [hp] at hq; cases hq
    | inner hq hd =>
      rw [hp] at hq
      cases hq
      exact congrArg _ (ih hd)

/-- The chain of a scope on a chain is what is left of it. -/
theorem of_mem {ts : List ScopeRef} (hc : st.Chain s ts) (ht : t ∈ ts) :
    ∃ us, st.Chain t us ∧ us.length ≤ ts.length := by
  induction hc with
  | root hs hp =>
    cases List.mem_singleton.mp ht
    exact ⟨_, .root hs hp, Nat.le_refl _⟩
  | inner hp hc ih =>
    rcases List.mem_cons.mp ht with rfl | ht
    · exact ⟨_, .inner hp hc, Nat.le_refl _⟩
    · obtain ⟨us, hu, hl⟩ := ih ht
      exact ⟨us, hu, Nat.le_succ_of_le hl⟩

/-- No scope is around itself. -/
theorem nodup {ts : List ScopeRef} (hc : st.Chain s ts) : ts.Nodup := by
  induction hc with
  | root => exact List.nodup_singleton _
  | @inner s p ts hp hc ih =>
    refine List.nodup_cons.mpr ⟨fun hs => ?_, ih⟩
    obtain ⟨us, hu, hl⟩ := hc.of_mem hs
    rw [hu.unique (.inner hp hc), List.length_cons] at hl
    omega

theorem length_le {ts : List ScopeRef} (hc : st.Chain s ts) : ts.length ≤ st.scopes.size := by
  have hn : (ts.map ScopeRef.index).Nodup :=
    hc.nodup.map fun a b (h : a.index = b.index) => by cases a; cases b; exact congrArg _ h
  have hr : ts.map ScopeRef.index ⊆ List.range st.scopes.size := fun i hi => by
    obtain ⟨t, ht, rfl⟩ := List.mem_map.mp hi
    exact List.mem_range.mpr (hc.lt_size ht)
  have hl := (hn.subperm hr).length_le
  rwa [List.length_map, List.length_range] at hl

theorem chainWithin_eq {ts : List ScopeRef} (hc : st.Chain s ts) :
    ∀ {fuel : Nat}, ts.length ≤ fuel → st.chainWithin fuel s = ts := by
  induction hc with
  | root _ hp =>
    rintro (_ | fuel) hf
    · cases hf
    · rw [chainWithin, hp]
  | inner hp _ ih =>
    rintro (_ | fuel) hf
    · cases hf
    · rw [chainWithin, hp]
      exact congrArg _ (ih (Nat.le_of_succ_le_succ hf))

/-- A chain that ends is computed in full. -/
theorem chain_eq {ts : List ScopeRef} (hc : st.Chain s ts) : st.chain s = ts :=
  hc.chainWithin_eq hc.length_le

end Chain

/-- Every scope has a chain that ends. -/
def Rooted (st : Store) : Prop := ∀ s : ScopeRef, s.index < st.scopes.size → ∃ ts, st.Chain s ts

/-- Chains end where the scope around a scope is an older one. -/
theorem rooted_of_parent_lt
    (hp : ∀ s p, (st.scopeAt s).parent = some p → p.index < s.index) : st.Rooted := by
  suffices h : ∀ n (s : ScopeRef), s.index = n → n < st.scopes.size → ∃ ts, st.Chain s ts from
    fun s hs => h _ s rfl hs
  intro n
  induction n using Nat.strongRecOn with
  | _ n ih =>
    rintro s rfl hs
    rcases hq : (st.scopeAt s).parent with _ | p
    · exact ⟨_, .root hs hq⟩
    · have hlt := hp s p hq
      obtain ⟨ts, ht⟩ := ih _ hlt p rfl (hlt.trans hs)
      exact ⟨_, .inner hq ht⟩

theorem Rooted.chain (h : st.Rooted) (hs : s.index < st.scopes.size) : st.Chain s (st.chain s) := by
  obtain ⟨ts, ht⟩ := h s hs
  exact ht.chain_eq.symm ▸ ht

/-! ## The first scope that binds a name -/

/-- A scope is on the chain of another, and no scope nearer to that one binds the name. -/
def Exposed (st : Store) (t s : ScopeRef) (key : String) : Prop :=
  ∃ nearer outer, st.chain t = nearer ++ s :: outer ∧ ∀ u ∈ nearer, st.binds u key = false

theorem find?_eq_some_iff :
    st.find? t key = some s ↔ st.Exposed t s key ∧ st.binds s key = true := by
  rw [find?, List.find?_eq_some_iff_append, and_comm]
  simp only [Exposed, Bool.not_eq_true']

theorem find?_eq_none_iff :
    st.find? t key = none ↔ ∀ s ∈ st.chain t, st.binds s key = false := by
  rw [find?, List.find?_eq_none]
  simp only [Bool.not_eq_true]

/-- As long as no scope of the chain binds the name, every scope is exposed. -/
theorem exposed_of_mem {nearer outer : List ScopeRef} (hc : st.chain t = nearer ++ outer)
    (hn : ∀ u ∈ nearer, st.binds u key = false) (hs : s ∈ nearer) : st.Exposed t s key := by
  obtain ⟨before, after, rfl⟩ := List.append_of_mem hs
  refine ⟨before, after ++ outer, by simpa using hc, fun u hu => hn u ?_⟩
  exact List.mem_append_left _ hu

/-- A name means what the nearest scope that binds it says. -/
theorem lookup?_eq : st.lookup? t key = (st.find? t key).bind fun s => st.local? s key := by
  rw [lookup?, find?]
  induction st.chain t with
  | nil => rfl
  | cons s ts ih =>
    rw [List.findSome?_cons, List.find?_cons, binds]
    cases hl : st.local? s key with
    | none => exact ih
    | some w => exact hl.symm

/-- The nearest scope that binds a name does bind it. -/
theorem exists_local?_of_find? (h : st.find? t key = some s) : ∃ w, st.local? s key = some w :=
  Option.isSome_iff_exists.mp (find?_eq_some_iff.mp h).2

/-! ## A definition -/

section Define

variable (key v)

theorem parent_define (s t : ScopeRef) :
    ((st.define s key v).scopeAt t).parent = (st.scopeAt t).parent := by
  by_cases ht : t = s
  · subst ht
    by_cases hs : t.index < st.scopes.size
    · rw [scopeAt_define_self key v hs]
    · rw [scopeAt_of_le (by simpa using hs), scopeAt_of_le (Nat.le_of_not_lt hs)]
  · rw [scopeAt_define_of_ne key v ht]

/-- A definition moves no chain. -/
theorem chain_define (s t : ScopeRef) : (st.define s key v).chain t = st.chain t := by
  rw [chain, chain, define_scopes_size]
  induction st.scopes.size generalizing t with
  | zero => rfl
  | succ fuel ih =>
    rw [chainWithin, chainWithin, parent_define]
    rcases (st.scopeAt t).parent with _ | p
    · rfl
    · exact congrArg _ (ih p)

theorem Rooted.define (h : st.Rooted) (s : ScopeRef) : (st.define s key v).Rooted := by
  intro t ht
  obtain ⟨ts, hc⟩ := h t (by simpa using ht)
  refine ⟨ts, ?_⟩
  clear ht
  induction hc with
  | root hs hp => exact .root (by simpa using hs) ((parent_define key v s _).trans hp)
  | inner hp _ ih => exact .inner ((parent_define key v s _).trans hp) ih

theorem local?_define_self (hs : s.index < st.scopes.size) :
    (st.define s key v).local? s key = some v := by
  rw [local?, scopeAt_define_self key v hs, Bindings.get?_insert_self]

end Define

/-- A definition touches one name of one scope. -/
theorem local?_define_of_ne {other : String} (hs : s.index < st.scopes.size)
    (h : ¬ (t = s ∧ other = key)) : (st.define s key v).local? t other = st.local? t other := by
  by_cases ht : t = s
  · subst ht
    rw [local?, scopeAt_define_self key v hs,
      Bindings.get?_insert_of_ne _ v fun hk => h ⟨rfl, hk.symm⟩, local?]
  · rw [local?, scopeAt_define_of_ne key v ht, local?]

theorem binds_define_of_ne {other : String} (hs : s.index < st.scopes.size)
    (h : ¬ (t = s ∧ other = key)) : (st.define s key v).binds t other = st.binds t other := by
  rw [binds, local?_define_of_ne hs h, binds]

/-- A definition in an exposed scope is the nearest one. -/
theorem find?_define_of_exposed (hst : st.Rooted) (hs : s.index < st.scopes.size)
    (ht : t.index < st.scopes.size) (h : st.Exposed t s key) :
    (st.define s key v).find? t key = some s := by
  obtain ⟨nearer, outer, hc, hn⟩ := h
  have hnodup := (hst.chain ht).nodup
  rw [hc] at hnodup
  -- The scope itself is not among the nearer ones, so those still bind nothing.
  have hne : s ∉ nearer := fun hm =>
    (List.nodup_append.mp hnodup).2.2 s hm s (List.mem_cons_self ..) rfl
  refine find?_eq_some_iff.mpr ⟨⟨nearer, outer, (chain_define ..).trans hc, fun u hu => ?_⟩, ?_⟩
  · rw [binds_define_of_ne hs fun he => hne (he.1 ▸ hu), hn u hu]
  · rw [binds, local?_define_self key v hs, Option.isSome_some]

/-- Where a definition is made in a scope that is not exposed, or of another name, the same
scope as before is the nearest that binds the name, and it is not the one that changed. -/
theorem find?_define_of_not_exposed {other : String} (hs : s.index < st.scopes.size)
    (h : ¬ (other = key ∧ st.Exposed t s key)) :
    (st.define s key v).find? t other = st.find? t other ∧
      ∀ u, st.find? t other = some u → ¬ (u = s ∧ other = key) := by
  rcases hf : st.find? t other with _ | u
  · refine ⟨find?_eq_none_iff.mpr fun w hw => ?_, fun u hu => nomatch hu⟩
    rw [chain_define] at hw
    have hn := find?_eq_none_iff.mp hf
    rw [binds_define_of_ne hs, hn w hw]
    rintro ⟨rfl, rfl⟩
    exact h ⟨rfl, exposed_of_mem (List.append_nil _).symm hn hw⟩
  · obtain ⟨⟨nearer, outer, hc, hn⟩, hb⟩ := find?_eq_some_iff.mp hf
    have hu : ¬ (u = s ∧ other = key) := by
      rintro ⟨rfl, rfl⟩
      exact h ⟨rfl, nearer, outer, hc, hn⟩
    refine ⟨find?_eq_some_iff.mpr ⟨⟨nearer, outer, (chain_define ..).trans hc, fun w hw => ?_⟩, ?_⟩,
      fun w hw => Option.some.inj hw ▸ hu⟩
    · rw [binds_define_of_ne hs, hn w hw]
      rintro ⟨rfl, rfl⟩
      exact h ⟨rfl, exposed_of_mem hc hn hw⟩
    · rw [binds_define_of_ne hs hu, hb]

theorem lookup?_define_of_exposed (hst : st.Rooted) (hs : s.index < st.scopes.size)
    (ht : t.index < st.scopes.size) (h : st.Exposed t s key) :
    (st.define s key v).lookup? t key = some v := by
  rw [lookup?_eq, find?_define_of_exposed hst hs ht h]
  exact local?_define_self key v hs

theorem lookup?_define_of_not_exposed {other : String} (hs : s.index < st.scopes.size)
    (h : ¬ (other = key ∧ st.Exposed t s key)) :
    (st.define s key v).lookup? t other = st.lookup? t other := by
  obtain ⟨hf, hne⟩ := find?_define_of_not_exposed (v := v) hs h
  rw [lookup?_eq, lookup?_eq, hf]
  rcases hu : st.find? t other with _ | u
  · rfl
  · exact local?_define_of_ne hs (hne u hu)

/-! ## Looking up, defining and assigning -/

theorem lookup_of_find? (h : st.find? t key = some s) :
    ∃ w, st.local? s key = some w ∧ Action.lookup t key st = (.ok w, st) := by
  obtain ⟨w, hw⟩ := exists_local?_of_find? h
  have hl : st.lookup? t key = some w := by rw [lookup?_eq, h]; exact hw
  exact ⟨w, hw, by rw [Action.lookup, hl]⟩

theorem lookup_of_find?_eq_none (h : st.find? t key = none) :
    Action.lookup t key st = (.error (.unbound key), st) := by
  have hl : st.lookup? t key = none := by rw [lookup?_eq, h]; rfl
  rw [Action.lookup, hl]

theorem lookup_eq_of_lookup? {st st' : Store} (h : st'.lookup? t key = st.lookup? t key) :
    (Action.lookup t key st').1 = (Action.lookup t key st).1 := by
  rw [Action.lookup, Action.lookup, h]
  rcases st.lookup? t key with _ | w <;> rfl

/-- The scopes of a store are lexical: what a name means, and what a definition and an
assignment do to what any name means in any scope, is decided by the chains alone. -/
structure Lexical (st : Store) : Prop where
  /-- The chain of a scope runs from it to a scope with none around it. -/
  chain : ∀ s : ScopeRef, s.index < st.scopes.size → st.Chain s (st.chain s)
  /-- The scope found for a name is the first one of the chain that binds it. -/
  find : ∀ t s key, st.find? t key = some s ↔ st.Exposed t s key ∧ st.binds s key = true
  /-- A name that is found means what the scope binds it to that was found. -/
  found : ∀ t s key, st.find? t key = some s →
    ∃ w, st.local? s key = some w ∧ Action.lookup t key st = (.ok w, st)
  /-- A name that is not found means nothing. -/
  missing : ∀ t key, st.find? t key = none →
    Action.lookup t key st = (.error (.unbound key), st)
  /-- A definition gives its name a new meaning in the scopes it is exposed to, and does
  nothing else. -/
  define : ∀ (s : ScopeRef) key v, s.index < st.scopes.size →
    ∃ st', Action.define s key v st = (.ok (), st') ∧
      ∀ (t : ScopeRef) other, t.index < st.scopes.size →
        (other = key ∧ st.Exposed t s key → (Action.lookup t other st').1 = .ok v) ∧
        (¬ (other = key ∧ st.Exposed t s key) →
          (Action.lookup t other st').1 = (Action.lookup t other st).1 ∧
            st'.find? t other = st.find? t other)
  /-- An assignment gives its name a new meaning in the scopes where the same binding of it is
  the nearest, and does nothing else. -/
  assign : ∀ (s : ScopeRef) key v u, s.index < st.scopes.size → st.find? s key = some u →
    ∃ st', Action.assign s key v st = (.ok (), st') ∧
      ∀ (t : ScopeRef) other, t.index < st.scopes.size →
        (other = key ∧ st.find? t key = some u → (Action.lookup t other st').1 = .ok v) ∧
        (¬ (other = key ∧ st.find? t key = some u) →
          (Action.lookup t other st').1 = (Action.lookup t other st).1) ∧
        st'.find? t other = st.find? t other
  /-- Without a binding an assignment fails and changes nothing. -/
  refused : ∀ s key v, st.find? s key = none →
    Action.assign s key v st = (.error (.setUndefined key), st)

/-- What a definition does to what names mean. -/
theorem Rooted.meaning_of_define (h : st.Rooted) (hs : s.index < st.scopes.size)
    (ht : t.index < st.scopes.size) (key other : String) (v : Value) :
    (other = key ∧ st.Exposed t s key →
      (Action.lookup t other (st.define s key v)).1 = .ok v) ∧
    (¬ (other = key ∧ st.Exposed t s key) →
      (Action.lookup t other (st.define s key v)).1 = (Action.lookup t other st).1 ∧
        (st.define s key v).find? t other = st.find? t other) := by
  refine ⟨?_, fun hn => ⟨lookup_eq_of_lookup? (lookup?_define_of_not_exposed hs hn),
    (find?_define_of_not_exposed hs hn).1⟩⟩
  rintro ⟨rfl, he⟩
  rw [Action.lookup, lookup?_define_of_exposed h hs ht he]

/-- What an assignment does to what names mean: it is a definition in the scope where the name is
bound, so it is exposed to a scope exactly if the name is found there. -/
theorem Rooted.meaning_of_assign (h : st.Rooted) (hs : s.index < st.scopes.size)
    (ht : t.index < st.scopes.size) (hu : st.find? s key = some u) (other : String) (v : Value) :
    (other = key ∧ st.find? t key = some u →
      (Action.lookup t other (st.define u key v)).1 = .ok v) ∧
    (¬ (other = key ∧ st.find? t key = some u) →
      (Action.lookup t other (st.define u key v)).1 = (Action.lookup t other st).1) ∧
    (st.define u key v).find? t other = st.find? t other := by
  have hul : u.index < st.scopes.size := (h.chain hs).lt_size (List.mem_of_find?_eq_some hu)
  have hexp : st.Exposed t u key ↔ st.find? t key = some u :=
    ⟨fun he => find?_eq_some_iff.mpr ⟨he, (find?_eq_some_iff.mp hu).2⟩,
      fun hf => (find?_eq_some_iff.mp hf).1⟩
  obtain ⟨hnew, hold⟩ := h.meaning_of_define hul ht key other v
  rw [hexp] at hnew hold
  refine ⟨hnew, fun hn => (hold hn).1, ?_⟩
  by_cases hsame : other = key ∧ st.find? t key = some u
  · obtain ⟨rfl, hf⟩ := hsame
    rw [find?_define_of_exposed h hul ht (hexp.mpr hf), hf]
  · exact (hold hsame).2

/-- **Lexical shadowing**: where chains end, names mean what the nearest binding says, a
definition is seen exactly from where it is exposed, and an assignment exactly from where the
binding it changes is the nearest. -/
theorem Rooted.lexical (h : st.Rooted) : st.Lexical where
  chain _ hs := h.chain hs
  find _ _ _ := find?_eq_some_iff
  found _ _ _ := lookup_of_find?
  missing _ _ := lookup_of_find?_eq_none
  define s key v hs := ⟨_, rfl, fun _ other ht => h.meaning_of_define hs ht key other v⟩
  assign s key v u hs hu :=
    ⟨st.define u key v, by rw [Action.assign, hu],
      fun _ other ht => h.meaning_of_assign hs ht hu other v⟩
  refused s key v hf := by rw [Action.assign, hf]

/-- Three scopes, one inside the other; the outermost and the innermost bind `x`. -/
def threeDeep : Store where
  scopes := #[{ bindings := [("x", .number 1)] }, { parent := some ⟨0⟩ },
    { bindings := [("x", .number 2)], parent := some ⟨1⟩ }]

theorem lexical_threeDeep : threeDeep.Rooted ∧ threeDeep.Lexical := by
  have hr : threeDeep.Rooted := rooted_of_parent_lt fun s p hp => by
    obtain ⟨i⟩ := s
    have hi : i < 3 := lt_of_parent hp
    match i, hi with
    | 0, _ => cases hp
    | 1, _ => cases hp; exact Nat.zero_lt_one
    | 2, _ => cases hp; exact Nat.lt_succ_self 1
  exact ⟨hr, hr.lexical⟩

-- A definition of `x` in the middle scope is seen there, and neither further in nor further out.
example : let st := threeDeep.define ⟨1⟩ "x" (.number 3)
    (st.lookup? ⟨0⟩ "x", st.lookup? ⟨1⟩ "x", st.lookup? ⟨2⟩ "x") =
      (some (.number 1), some (.number 3), some (.number 2)) := rfl

end Store

end LispEngines
