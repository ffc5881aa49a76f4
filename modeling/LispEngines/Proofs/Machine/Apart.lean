import LispEngines.Machine.Execute
import LispEngines.Proofs.Store.Steps

/-!
# Machines on paired stores

A machine refers to lists and scopes by its stack, its accumulator and its constants, so it can be
renamed like a value.  In the second of two paired stores the renamed machine does what the machine
does in the first one: every instruction fails alike, or both succeed and leave a machine and the
renamed one behind (`Machine.follows_step`).

Unlike the other engines a machine extends lists in place.  It reaches no list but those that
its stack, its accumulator and its constants lead to, so in the second store it changes nothing
but what stands for a list of the first one.  That is what `Moves` says.
-/

namespace LispEngines

/-- Nothing has become of the pair. -/
def Unmoved (ρ : Renaming) (st st' : Store) (ρ₁ : Renaming) (st₁ st₁' : Store) : Prop :=
  ρ₁ = ρ ∧ st₁ = st ∧ st₁' = st'

/-- What a value refers to is not lost when the pair moves. -/
theorem Moves.within {ρ ρ₁ : Renaming} {st st' st₁ st₁' : Store} (h : Moves ρ st st' ρ₁ st₁ st₁')
    {v : Value} (hv : v.Within false st) : v.Within false st₁ :=
  ⟨hv.below.mono h.lists_le h.scopes_le, nofun⟩

theorem Paired.inspected_rename {L : Link} {ρ : Renaming} {st st' : Store}
    (h : Paired L ρ st st') {v : Value} (hv : v.Within L.shares st) :
    (v.rename ρ).inspected st' = v.inspected st := by
  have hs := h.shown_rename hv
  cases v <;> first | rfl | exact hs

/-! ## Extending a list -/

namespace Store

variable {st : Store} {r : ListRef} {v : Value}

theorem mem_items_extend {q : ListRef} {w : Value} (h : w ∈ (st.extend r v).items q) :
    w ∈ st.items q ∨ w = v := by
  by_cases hq : q = r
  · subst hq
    by_cases hl : q.index < st.lists.size
    · rw [items_extend_self v hl] at h
      exact (List.mem_append.mp h).imp_right List.mem_singleton.mp
    · rw [items_of_le (by simpa using hl)] at h
      cases h
  · rw [items_extend_of_ne v hq] at h
    exact .inl h

theorem Sealed.extend (h : st.Sealed false) (hv : v.Within false st) :
    (st.extend r v).Sealed false := by
  have hm : ∀ w : Value, w.Within false st → w.Within false (st.extend r v) := fun w hw =>
    ⟨hw.below.mono (by simp) (Nat.le_refl _), nofun⟩
  refine ⟨fun q w hw => hm w ?_, fun s b hb => hm b.2 (h.bindings s b hb), h.parent_lt⟩
  rcases mem_items_extend hw with hw | rfl
  · exact h.items q w hw
  · exact hv

end Store

variable {L : Link} {ρ : Renaming} {st st' : Store} {r : ListRef} {v : Value}

/-- A list and what stands for it get the same element. -/
theorem Paired.extend (h : Paired L.lone ρ st st') (hr : r.index < st.lists.size)
    (hv : v.Within false st) :
    Paired L.lone ρ (st.extend r v) (st'.extend (ρ.list r) (v.rename ρ)) := by
  have hne {q : ListRef} (hq : q.index < st.lists.size) (he : q ≠ r) : ρ.list q ≠ ρ.list r :=
    fun hc => he ((h.list_inj q r hq hr hc).resolve_right fun hl => by cases hl.1)
  exact
    { sealed := h.sealed.extend hv
      list_lt := fun q hq => by
        rw [Store.extend_lists_size] at hq ⊢
        exact h.list_lt q hq
      scope_lt := h.scope_lt
      items := fun q hq => by
        rw [Store.extend_lists_size] at hq
        by_cases he : q = r
        · subst he
          rw [Store.items_extend_self _ (h.list_lt q hq), Store.items_extend_self _ hq,
            h.items q hq, List.map_append]
          rfl
        · rw [Store.items_extend_of_ne _ (hne hq he), Store.items_extend_of_ne _ he, h.items q hq]
      scopes := h.scopes
      list_inj := fun q p hq hp he => by
        rw [Store.extend_lists_size] at hq hp
        exact .inl ((h.list_inj q p hq hp he).resolve_right fun hl => by cases hl.1)
      scope_inj := h.scope_inj
      ranked := fun hL => by cases hL
      scopes_le := h.scopes_le
      sink := h.sink }

theorem Moves.extend (hr : r.index < st.lists.size) :
    Moves ρ st st' ρ (st.extend r v) (st'.extend (ρ.list r) (v.rename ρ)) where
  lists_le := by simp
  scopes_le := Nat.le_refl _
  lists_le' := by simp
  scopes_le' := Nat.le_refl _
  agree := .refl ρ st
  list_fresh q hq hl := absurd hl (by simpa using hq)
  scope_fresh s hs hl := absurd hl (Nat.not_lt_of_le hs)
  items_eq q _ hq := Store.items_extend_of_ne _ (hq r hr).symm
  scopes_eq _ _ _ := rfl

/-! ## Renamed machines -/

/-- The program in the other store. -/
def Program.rename (ρ : Renaming) (p : Program) : Program :=
  { p with data := p.data.map (Value.rename ρ) }

namespace Machine

variable {L : Link} {ρ ρ₁ : Renaming} {st st' st₁ st₁' : Store} {m : Machine}

/-- The machine refers to nothing beyond the store. -/
structure Within (st : Store) (m : Machine) : Prop where
  data : ∀ v ∈ m.program.data, v.Within false st
  stack : ∀ v ∈ m.stack, v.Within false st
  a : m.a.Within false st

/-- The machine in the other store. -/
def rename (ρ : Renaming) (m : Machine) : Machine :=
  { m with
    program := m.program.rename ρ
    stack := m.stack.map (Value.rename ρ)
    a := m.a.rename ρ }

/-- The second machine stands for the first one. -/
def StandsFor (ρ : Renaming) (st : Store) (m m' : Machine) : Prop :=
  m.Within st ∧ m' = m.rename ρ

theorem map_rename_array {ρ ρ₁ : Renaming} {st : Store} (h : ρ.Agree st ρ₁) {vs : Array Value}
    (hv : ∀ v ∈ vs, v.Within false st) :
    vs.map (Value.rename ρ₁) = vs.map (Value.rename ρ) :=
  Array.map_congr_left fun v hm => h.rename (hv v hm)

theorem StandsFor.moves {m' : Machine} (hm : m.StandsFor ρ st m')
    (h : Moves ρ st st' ρ₁ st₁ st₁') : m.StandsFor ρ₁ st₁ m' := by
  obtain ⟨hw, rfl⟩ := hm
  refine ⟨⟨fun v hv => h.within (hw.data v hv), fun v hv => h.within (hw.stack v hv),
    h.within hw.a⟩, ?_⟩
  rw [rename, rename, Program.rename, Program.rename, map_rename_array h.agree hw.data,
    map_rename_array h.agree hw.stack, h.agree.rename hw.a]

/-! ## Work of a machine -/

variable {α β γ δ : Type} {R : Renaming → Store → α → β → Prop}
  {S : Renaming → Store → γ → δ → Prop}

/-- What one machine finds is what the other one finds. -/
abbrev SameResult {α : Type} : Renaming → Store → α → α → Prop := fun _ _ x y => y = x

/-- Nothing is found. -/
abbrev Done : Renaming → Store → Unit → Unit → Prop := fun _ _ _ _ => True

/-- The renamed machine does in the second store what the machine does in the first one. -/
def Follows (L : Link) (ρ : Renaming) (st st' : Store) (R : Renaming → Store → α → β → Prop)
    (x : Step Machine α) (y : Step Machine β) (m : Machine) : Prop :=
  Step.Matched L.lone (Moves ρ st st') StandsFor R (x m st) (y (m.rename ρ) st')

/-- The same, where the stores are left alone. -/
def Reads (L : Link) (ρ : Renaming) (st st' : Store) (R : Renaming → Store → α → β → Prop)
    (x : Step Machine α) (y : Step Machine β) (m : Machine) : Prop :=
  Step.Matched L.lone (Unmoved ρ st st') StandsFor R (x m st) (y (m.rename ρ) st')

namespace Reads

variable {x : Step Machine α} {y : Step Machine β} {k : α → Step Machine γ}
  {k' : β → Step Machine δ}

theorem pure {v : α} {w : β} (h : Paired L.lone ρ st st') (hm : m.Within st) (hr : R ρ st v w) :
    Reads L ρ st st' R (pure v) (pure w) m :=
  .ok h ⟨rfl, rfl, rfl⟩ ⟨hm, rfl⟩ hr

theorem throw {e e' : Failure} (h : Paired L.lone ρ st st') (hm : m.Within st) (he : e' = e) :
    Reads L ρ st st' R (throw e) (throw e') m :=
  he ▸ .error h ⟨rfl, rfl, rfl⟩ ⟨hm, rfl⟩

theorem follows (h : Reads L ρ st st' R x y m) : Follows L ρ st st' R x y m :=
  h.imp fun hx => by
    obtain ⟨rfl, rfl, rfl⟩ := hx
    exact .refl _ _ _

theorem get {k : Machine → Step Machine γ} {k' : Machine → Step Machine δ}
    (h : Reads L ρ st st' S (k m) (k' (m.rename ρ)) m) :
    Reads L ρ st st' S (get >>= k) (get >>= k') m := h

theorem getStore {k : Store → Step Machine γ} {k' : Store → Step Machine δ}
    (h : Reads L ρ st st' S (k st) (k' st') m) :
    Reads L ρ st st' S (getThe Store >>= k) (getThe Store >>= k') m := h

/-- A change of the machine that renaming does not get in the way of. -/
theorem modify {u : Machine → Machine} {k : Unit → Step Machine γ} {k' : Unit → Step Machine δ}
    {u' : Machine → Machine} (hu : u' (m.rename ρ) = (u m).rename ρ)
    (h : Reads L ρ st st' S (k ()) (k' ()) (u m)) :
    Reads L ρ st st' S (modify u >>= k) (modify u' >>= k') m := by
  show Step.Matched _ _ _ S (k () (u m) st) (k' () (u' (m.rename ρ)) st')
  rwa [hu]

theorem change {u u' : Machine → Machine} (h : Paired L.lone ρ st st')
    (hu : u' (m.rename ρ) = (u m).rename ρ) (hm : (u m).Within st) :
    Reads L ρ st st' Done (MonadState.modifyGet fun m => ((), u m))
      (MonadState.modifyGet fun m => ((), u' m)) m := by
  show Step.Matched _ _ _ Done ((.ok (), u m), st) ((.ok (), u' (m.rename ρ)), st')
  rw [hu]
  exact .ok h ⟨rfl, rfl, rfl⟩ ⟨hm, rfl⟩ trivial

theorem bind (h : Reads L ρ st st' R x y m)
    (hk : ∀ {m₁ : Machine} {v : α} {w : β}, m₁.Within st → R ρ st v w →
      Reads L ρ st st' S (k v) (k' w) m₁) :
    Reads L ρ st st' S (x >>= k) (y >>= k') m :=
  Step.Matched.bind h id fun _ hx hm hr => by
    obtain ⟨rfl, rfl, rfl⟩ := hx
    obtain ⟨hm, rfl⟩ := hm
    exact hk hm hr

theorem follows_bind (h : Reads L ρ st st' R x y m)
    (hk : ∀ {m₁ : Machine} {v : α} {w : β}, m₁.Within st → R ρ st v w →
      Follows L ρ st st' S (k v) (k' w) m₁) :
    Follows L ρ st st' S (x >>= k) (y >>= k') m :=
  Step.Matched.bind h (fun hx => by
    obtain ⟨rfl, rfl, rfl⟩ := hx
    exact .refl _ _ _) fun _ hx hm hr => by
    obtain ⟨rfl, rfl, rfl⟩ := hx
    obtain ⟨hm, rfl⟩ := hm
    exact hk hm hr

end Reads

namespace Follows

variable {x : Step Machine α} {y : Step Machine β} {k : α → Step Machine γ}
  {k' : β → Step Machine δ}

theorem get {k : Machine → Step Machine γ} {k' : Machine → Step Machine δ}
    (h : Follows L ρ st st' S (k m) (k' (m.rename ρ)) m) :
    Follows L ρ st st' S (get >>= k) (get >>= k') m := h

theorem getStore {k : Store → Step Machine γ} {k' : Store → Step Machine δ}
    (h : Follows L ρ st st' S (k st) (k' st') m) :
    Follows L ρ st st' S (getThe Store >>= k) (getThe Store >>= k') m := h

theorem bind (h : Follows L ρ st st' R x y m)
    (hk : ∀ {ρ₁ : Renaming} {st₁ st₁' : Store} {m₁ : Machine} {v : α} {w : β},
      Paired L.lone ρ₁ st₁ st₁' → Moves ρ st st' ρ₁ st₁ st₁' → m₁.Within st₁ → R ρ₁ st₁ v w →
      Follows L ρ₁ st₁ st₁' S (k v) (k' w) m₁) :
    Follows L ρ st st' S (x >>= k) (y >>= k') m :=
  Step.Matched.bind h id fun h₁ hx hm hr => by
    obtain ⟨hm, rfl⟩ := hm
    exact (hk h₁ hx hm hr).imp hx.trans

theorem act {a : Action α} {b : Action β} (hm : m.Within st)
    (h : Action.Follows L.lone ρ st st' R a b) :
    Follows L ρ st st' R (Step.act a) (Step.act b) m :=
  Step.Matched.act h fun hx => ⟨hx.toMoves, .moves ⟨hm, rfl⟩ hx.toMoves⟩

end Follows

/-! ## Checked access -/

section

variable (h : Paired L.lone ρ st st') (hm : m.Within st)

include h hm

theorem reads_fault (f : Fault) : Reads L ρ st st' R (fault f) (fault f) m := .throw h hm rfl

theorem reads_slot (i : Nat) : Reads L ρ st st' (Value.StandsFor L.lone) (slot i) (slot i) m := by
  refine .get ?_
  have hs : (m.rename ρ).stack[i]? = m.stack[i]?.map (Value.rename ρ) := Array.getElem?_map ..
  rw [hs]
  rcases hv : m.stack[i]? with _ | v
  · exact reads_fault h hm _
  · exact .pure h hm ⟨hm.stack v (Array.mem_of_getElem? hv), rfl⟩

theorem reads_setSlot (i : Nat) {v : Value} (hv : v.Within false st) :
    Reads L ρ st st' Done (setSlot i v) (setSlot i (v.rename ρ)) m := by
  refine .get ?_
  have hs : (m.rename ρ).stack.size = m.stack.size := Array.size_map
  rw [hs]
  split
  · refine .change h ?_ ⟨hm.data, fun w hw => ?_, hm.a⟩
    · rw [rename, rename, Array.map_setIfInBounds]
    · rcases Array.mem_or_eq_of_mem_setIfInBounds hw with hw | rfl
      · exact hm.stack w hw
      · exact hv
  · exact reads_fault h hm _

theorem reads_top : Reads L ρ st st' (Value.StandsFor L.lone) top top m :=
  .get (reads_slot h hm m.sp)

theorem reads_setTop {v : Value} (hv : v.Within false st) :
    Reads L ρ st st' Done (setTop v) (setTop (v.rename ρ)) m :=
  .get (reads_setSlot h hm m.sp hv)

theorem reads_push {v : Value} (hv : v.Within false st) :
    Reads L ρ st st' Done (push v) (push (v.rename ρ)) m := by
  refine .get ?_
  have hs : (m.rename ρ).sp = m.sp := rfl
  rw [hs]
  rcases m.sp with _ | sp
  · exact reads_fault h hm _
  · exact .modify rfl (reads_setSlot (m := { m with sp := sp }) h { hm with } sp hv)

theorem reads_pop : Reads L ρ st st' (Value.StandsFor L.lone) pop pop m :=
  (reads_top h hm).bind fun hm₁ hv => .modify rfl (.pure h { hm₁ with } hv)

theorem reads_leftSide (keep : Bool) :
    Reads L ρ st st' (Value.StandsFor L.lone) (leftSide keep) (leftSide keep) m := by
  cases keep
  · exact reads_pop h hm
  · exact reads_top h hm

theorem reads_fetch : Reads L ρ st st' SameResult fetch fetch m := by
  refine .get (.get ?_)
  have hc : (m.rename ρ).program.code[(m.rename ρ).pc]? = m.program.code[m.pc]? := rfl
  rw [hc]
  rcases m.program.code[m.pc]? with _ | w
  · exact reads_fault h hm _
  · exact .modify rfl (.pure h { hm with } rfl)

theorem reads_target (n : Int64) : Reads L ρ st st' SameResult (target n) (target n) m := by
  rw [target]
  split
  · refine .get ?_
    have hc : (m.rename ρ).program.code.size = m.program.code.size := rfl
    rw [hc]
    split
    · exact .pure h hm rfl
    · exact reads_fault h hm _
  · exact reads_fault h hm _

theorem reads_constant (n : Int64) :
    Reads L ρ st st' (Value.StandsFor L.lone) (constant n) (constant n) m := by
  refine .get ?_
  have hc : (m.rename ρ).program.constant? n = (m.program.constant? n).map (Value.rename ρ) := by
    rw [Program.constant?, Program.constant?]
    rcases Opcode.position? n with _ | i
    · rfl
    · exact Array.getElem?_map ..
  rw [hc]
  rcases hv : m.program.constant? n with _ | v
  · exact reads_fault h hm _
  · refine .pure h hm ⟨?_, rfl⟩
    obtain ⟨i, -, hi⟩ := Option.bind_eq_some_iff.mp hv
    exact hm.data v (Array.mem_of_getElem? hi)

theorem reads_offset (base : Nat) (delta : Int64) :
    Reads L ρ st st' SameResult (offset base delta) (offset base delta) m := by
  rw [offset]
  split
  · exact .pure h hm rfl
  · exact reads_fault h hm _

theorem reads_savedRegister {v : Value} (hv : v.Within false st) :
    Reads L ρ st st' SameResult (savedRegister v) (savedRegister (v.rename ρ)) m := by
  have hn : (v.rename ρ).number? = v.number? := by cases v <;> rfl
  rw [savedRegister, savedRegister, hn]
  split
  · exact .pure h hm rfl
  · refine .getStore ?_
    rw [h.inspected_rename hv]
    exact reads_fault h hm _

theorem reads_setA {v : Value} (hv : v.Within false st) :
    Reads L ρ st st' Done (setA v) (setA (v.rename ρ)) m :=
  .change h rfl { hm with a := hv }

theorem reads_scopeOf (op : String) {v : Value} (hv : v.Within false st) :
    Reads L ρ st st' ScopeRef.StandsFor (scopeOf op v) (scopeOf op (v.rename ρ)) m := by
  rw [scopeOf, scopeOf, Value.scope?_rename, Value.kind_rename]
  rcases hs : v.scope? with _ | s
  · exact .throw h hm rfl
  · exact .pure h hm ⟨hv.below.scope s hs, rfl⟩

theorem follows_emit (text : String) : Follows L ρ st st' Done (emit text) (emit text) m :=
  .act hm (.write h text _)

end

/-! ## Instructions -/

theorem follows_newScope (h : Paired L.lone ρ st st') :
    Action.Follows L.lone ρ st st' ScopeRef.StandsFor (Action.newScope none)
      (Action.newScope none) :=
  .ok (h.newScope nofun) (.newScope nofun) ⟨by simp, (if_pos rfl).symm⟩

/-- What a kind has for an empty value, it has in both stores. -/
theorem follows_emptyValue (h : Paired L.lone ρ st st') (code : Int64) :
    Action.Follows L.lone ρ st st' (Value.StandsFor L.lone) (emptyValue code)
      (emptyValue code) := by
  rw [emptyValue]
  rcases Kind.ofCode? code with _ | k
  · exact .throw h rfl
  · cases k with
    | list => exact .newNil h
    | scope =>
      exact (follows_newScope h).bind fun h₁ _ hs =>
        .pure h₁ ⟨Value.within_scope hs.1, congrArg Value.scope hs.2⟩
    | symbol | text | number => exact .pure h (Value.standsFor_self rfl rfl)
    | _ => exact .throw h rfl

theorem within_closure {f : Closure → Value} (hl : ∀ c, (f c).list? = some c.form)
    (hs : ∀ c, (f c).scope? = some c.scope) {c : Closure} (hr : c.form.index < st.lists.size)
    (ht : c.scope.index < st.scopes.size) : (f c).Within false st := by
  refine ⟨⟨fun r he => ?_, fun s he => ?_⟩, nofun⟩
  · cases (hl c).symm.trans he
    exact hr
  · cases (hs c).symm.trans he
    exact ht

/-- A list becomes a closure over a scope that nothing else refers to. -/
theorem follows_closure (h : Paired L.lone ρ st st') {r : ListRef} (hr : r.index < st.lists.size)
    {f : Closure → Value} (hl : ∀ c, (f c).list? = some c.form)
    (hs : ∀ c, (f c).scope? = some c.scope)
    (hf : ∀ (ρ : Renaming) (c : Closure), (f c).rename ρ = f (c.rename ρ)) :
    Action.Follows L.lone ρ st st' (Value.StandsFor L.lone)
      (do return f ⟨r, ← Action.newScope none⟩)
      (do return f ⟨ρ.list r, ← Action.newScope none⟩) :=
  (follows_newScope h).bind fun {_ _ _ t _} h₁ hx ht => .pure h₁
    ⟨within_closure hl hs (c := ⟨r, t⟩) (Nat.lt_of_lt_of_le hr hx.lists_le) ht.1, by
      rw [hf, Closure.rename, hx.agree.list r hr, ht.2]⟩

theorem follows_converted (h : Paired L.lone ρ st st') {v : Value} (hv : v.Within false st)
    (wanted : Kind) :
    Action.Follows L.lone ρ st st' (Value.StandsFor L.lone) (converted v wanted)
      (converted (v.rename ρ) wanted) := by
  rw [converted, converted, Value.kind_rename]
  by_cases hk : v.kind = wanted
  · rw [if_pos hk, if_pos hk]
    exact .pure h ⟨hv, rfl⟩
  rw [if_neg hk, if_neg hk]
  have hrefuse : Action.Follows L.lone ρ st st' (Value.StandsFor L.lone)
      (throw (.mismatch (.notConvertible "CELLSETTYPE" v.kind wanted)))
      (throw (.mismatch (.notConvertible "CELLSETTYPE" v.kind wanted))) := .throw h rfl
  cases v with
  | list r =>
    have hr := hv.below.list r rfl
    cases wanted with
    | lambda =>
      exact follows_closure h hr (f := .lambda) (fun _ => rfl) (fun _ => rfl) fun _ _ => rfl
    | expander =>
      exact follows_closure h hr (f := .expander) (fun _ => rfl) (fun _ => rfl) fun _ _ => rfl
    | _ => exact hrefuse
  | lambda c =>
    cases wanted with
    | expander =>
      exact .pure h ⟨within_closure (f := .expander) (fun _ => rfl) (fun _ => rfl)
        (hv.below.list _ rfl) (hv.below.scope _ rfl), rfl⟩
    | list => exact .pure h ⟨Value.within_list (hv.below.list _ rfl), rfl⟩
    | _ => exact hrefuse
  | expander c =>
    cases wanted with
    | lambda =>
      exact .pure h ⟨within_closure (f := .lambda) (fun _ => rfl) (fun _ => rfl)
        (hv.below.list _ rfl) (hv.below.scope _ rfl), rfl⟩
    | list => exact .pure h ⟨Value.within_list (hv.below.list _ rfl), rfl⟩
    | _ => exact hrefuse
  | number n =>
    cases wanted with
    | symbol | text => exact .pure h (Value.standsFor_self rfl rfl)
    | _ => exact hrefuse
  | symbol s | text s =>
    cases wanted with
    | symbol | text => exact .pure h (Value.standsFor_self rfl rfl)
    | number =>
      dsimp only [Value.rename_symbol, Value.rename_text]
      cases Text.int64? s with
      | some n => exact .pure h (Value.standsFor_self rfl rfl)
      | none => exact hrefuse
    | _ => exact hrefuse
  | native p | scopeNative p | scope s => cases wanted <;> exact hrefuse

section

variable (h : Paired L.lone ρ st st') (hm : m.Within st)

include hm

theorem follows_setA_act {a b : Action Value}
    (ha : Action.Follows L.lone ρ st st' (Value.StandsFor L.lone) a b) :
    Follows L ρ st st' Done (do setA (← Step.act a)) (do setA (← Step.act b)) m :=
  (Follows.act hm ha).bind fun h₁ _ hm₁ hv => by
    obtain ⟨hv, rfl⟩ := hv
    exact (reads_setA h₁ hm₁ hv).follows

include h

theorem follows_comparison (op : Comparison) (keep : Bool) :
    Follows L ρ st st' Done (comparison op keep) (comparison op keep) m := by
  refine (reads_leftSide h hm keep).follows_bind fun {m₁ v _} hm₁ hv => ?_
  obtain ⟨hv, rfl⟩ := hv
  have hc : Action.Follows L.lone ρ st st' SameResult (Value.compare op v m₁.a)
      (Value.compare op (v.rename ρ) (m₁.a.rename ρ)) := by
    rw [← bind_pure (Value.compare op v m₁.a), ← bind_pure (Value.compare op (v.rename ρ) _)]
    exact Value.follows_compare h op hv hm₁.a fun t => .pure h rfl
  refine .get ((Follows.act hm₁ hc).bind fun h₂ _ hm₂ ht => ?_)
  obtain rfl := ht
  exact (reads_setA h₂ hm₂ (Value.within_of_none rfl rfl)).follows

theorem reads_equality (wanted keep : Bool) :
    Reads L ρ st st' Done (equality wanted keep) (equality wanted keep) m := by
  refine (reads_leftSide h hm keep).bind fun {m₁ v _} hm₁ hv => .get (.getStore ?_)
  obtain ⟨hv, rfl⟩ := hv
  have ha : (m₁.rename ρ).a = m₁.a.rename ρ := rfl
  rw [ha, h.same_rename hv hm₁.a]
  exact reads_setA h hm₁ (Value.within_of_none rfl rfl)

/-- A jump to a position that the code has. -/
theorem reads_jump (n : Int64) :
    Reads L ρ st st' Done (do let pc ← target n; modify fun m => { m with pc })
      (do let pc ← target n; modify fun m => { m with pc }) m :=
  (reads_target h hm n).bind fun hm₁ hp => by
    obtain rfl := hp
    exact .change h rfl { hm₁ with }

theorem reads_jumpIf (test : Int64 → Bool) (n : Int64) :
    Reads L ρ st st' Done (jumpIf test n) (jumpIf test n) m := by
  refine .get ?_
  have ha : (m.rename ρ).a.toInt = m.a.toInt := Value.toInt_rename ..
  rw [ha]
  split
  · exact reads_jump h hm n
  · exact .pure h hm trivial

theorem follows_invoke {callee scope : Value} {args : List Value} (hc : callee.Within false st)
    (ha : ∀ v ∈ args, v.Within false st) (hs : scope.Within false st) :
    Follows L ρ st st' (Value.StandsFor L.lone) (invoke callee args scope)
      (invoke (callee.rename ρ) (args.map (Value.rename ρ)) (scope.rename ρ)) m := by
  cases callee with
  | native p => exact .act hm (p.follows_call h ha)
  | scopeNative p =>
    refine (reads_scopeOf h hm _ hs).follows_bind fun hm₁ ht => ?_
    obtain ⟨ht, rfl⟩ := ht
    exact .act hm₁ (p.follows_call h _ _ ht)
  | _ =>
    refine .getStore ?_
    rw [h.shown_rename hc]
    exact (Reads.throw h hm rfl).follows

theorem reads_adjust (n : Int64) :
    Reads L ρ st st' Done (execute .adjust n) (execute .adjust n) m := by
  refine .get ((reads_offset h hm m.sp n).bind fun {m₁ _ sp} hm₁ hi => ?_)
  obtain rfl := hi
  refine .get ?_
  have hs : (m₁.rename ρ).stack.size = m₁.stack.size := Array.size_map
  rw [hs]
  split
  · exact .bind (R := Done) (reads_fault h hm₁ _) fun hm₂ _ => .change h rfl { hm₂ with }
  · exact .change h rfl { hm₁ with }

theorem reads_swap (n : Int64) : Reads L ρ st st' Done (execute .swap n) (execute .swap n) m := by
  refine .get ((reads_slot h hm _).bind fun hm₁ hl => (reads_slot h hm₁ _).bind fun hm₂ hu => ?_)
  obtain ⟨hl, rfl⟩ := hl
  obtain ⟨hu, rfl⟩ := hu
  exact (reads_setSlot h hm₂ _ hl).bind fun hm₃ _ => reads_setSlot h hm₃ _ hu

theorem reads_call (n : Int64) : Reads L ρ st st' Done (execute .call n) (execute .call n) m :=
  .get ((reads_push h hm (v := registerValue m.pc) (Value.within_of_none rfl rfl)).bind
    fun hm₁ _ => reads_jump h hm₁ n)

theorem reads_enter (n : Int64) : Reads L ρ st st' Done (execute .enter n) (execute .enter n) m := by
  refine .get ((reads_push h hm (v := registerValue m.bp) (Value.within_of_none rfl rfl)).bind
    fun {m₁ _ _} hm₁ _ => .modify (u := fun m => { m with bp := m.sp }) rfl ?_)
  have hm₂ : Within st { m₁ with bp := m₁.sp } := { hm₁ with }
  split
  · exact reads_fault h hm₂ _
  · refine .get ?_
    have hs : (rename ρ { m₁ with bp := m₁.sp }).sp = m₁.sp := rfl
    rw [hs]
    split
    · exact .change h rfl { hm₂ with }
    · exact reads_fault h hm₂ _

theorem reads_leave (n : Int64) : Reads L ρ st st' Done (execute .leave n) (execute .leave n) m := by
  refine .modify (u := fun m => { m with sp := m.bp }) rfl ?_
  refine (reads_pop (m := { m with sp := m.bp }) h { hm with }).bind fun hm₁ hv => ?_
  obtain ⟨hv, rfl⟩ := hv
  refine (reads_savedRegister h hm₁ hv).bind fun {m₂ _ bp} hm₂ hb => ?_
  obtain rfl := hb
  refine .modify (u := fun m => { m with bp }) rfl ?_
  refine (reads_pop (m := { m₂ with bp }) h { hm₂ with }).bind fun hm₃ hw => ?_
  obtain ⟨hw, rfl⟩ := hw
  refine (reads_savedRegister h hm₃ hw).bind fun hm₄ hp => ?_
  obtain rfl := hp
  exact .change h rfl { hm₄ with }

theorem reads_index (n : Int64) : Reads L ρ st st' Done (execute .index n) (execute .index n) m := by
  refine .get ((reads_top h hm).bind fun {m₁ v _} hm₁ hv => .getStore ?_)
  obtain ⟨hv, rfl⟩ := hv
  have ha : (m.rename ρ).a.toInt = m.a.toInt := Value.toInt_rename ..
  have hg : (Opcode.position? m.a.toInt).bind ((v.rename ρ).get? st') =
      ((Opcode.position? m.a.toInt).bind (v.get? st)).map (Value.rename ρ) := by
    rcases Opcode.position? m.a.toInt with _ | i
    · rfl
    · exact h.get?_rename hv i
  rw [ha, hg, h.inspected_rename hv]
  rcases hi : (Opcode.position? m.a.toInt).bind (v.get? st) with _ | w
  · exact reads_fault h hm₁ _
  · obtain ⟨i, -, hi⟩ := Option.bind_eq_some_iff.mp hi
    exact reads_setA h hm₁ (h.sealed.within_items (List.mem_of_getElem? hi))

theorem reads_setScope (n : Int64) :
    Reads L ρ st st' Done (execute .setScope n) (execute .setScope n) m := by
  refine .get ((reads_scopeOf h hm "CELLSETENV" hm.a).bind fun {m₁ s _} hm₁ hs => ?_)
  obtain ⟨hs, rfl⟩ := hs
  refine (reads_top h hm₁).bind fun {m₂ v _} hm₂ hv => ?_
  obtain ⟨hv, rfl⟩ := hv
  cases v with
  | lambda c =>
    exact reads_setTop h hm₂ (v := .lambda { c with scope := s })
      (within_closure (f := .lambda) (fun _ => rfl) (fun _ => rfl) (hv.below.list _ rfl) hs)
  | expander c =>
    exact reads_setTop h hm₂ (v := .expander { c with scope := s })
      (within_closure (f := .expander) (fun _ => rfl) (fun _ => rfl) (hv.below.list _ rfl) hs)
  | _ => exact .throw h hm₂ rfl

theorem reads_getScope (n : Int64) :
    Reads L ρ st st' Done (execute .getScope n) (execute .getScope n) m := by
  refine (reads_pop h hm).bind fun hm₁ hv => ?_
  obtain ⟨hv, rfl⟩ := hv
  refine (reads_scopeOf h hm₁ _ hv).bind fun hm₂ hs => ?_
  obtain ⟨hs, rfl⟩ := hs
  exact reads_setA h hm₂ (Value.within_scope hs)

theorem follows_convert (n : Int64) :
    Follows L ρ st st' Done (execute .convert n) (execute .convert n) m := by
  refine .get ?_
  have ha : (m.rename ρ).a = m.a.rename ρ := rfl
  dsimp only
  rw [ha, Value.toInt_rename]
  rcases Kind.ofCode? m.a.toInt with _ | wanted
  · refine .getStore ?_
    rw [h.shown_rename hm.a]
    exact (Reads.throw h hm rfl).follows
  · refine (reads_top h hm).follows_bind fun hm₁ hv => ?_
    obtain ⟨hv, rfl⟩ := hv
    refine (Follows.act hm₁ (follows_converted h hv wanted)).bind fun h₂ _ hm₂ hw => ?_
    obtain ⟨hw, rfl⟩ := hw
    exact (reads_setTop h₂ hm₂ hw).follows

theorem follows_invokeTop (n : Int64) :
    Follows L ρ st st' Done (execute .invoke n) (execute .invoke n) m := by
  refine (reads_pop h hm).follows_bind fun hm₁ hv => ?_
  obtain ⟨hv, rfl⟩ := hv
  refine (reads_pop h hm₁).follows_bind fun {m₂ _ _} hm₂ hs => .get (.getStore ?_)
  obtain ⟨hs, rfl⟩ := hs
  have ha : (m₂.rename ρ).a = m₂.a.rename ρ := rfl
  rw [ha, h.items_rename hv]
  refine (follows_invoke h hm₂ hm₂.a (fun w hw => h.sealed.within_items hw) hs).bind
    fun h₃ _ hm₃ hw => ?_
  obtain ⟨hw, rfl⟩ := hw
  exact (reads_setA h₃ hm₃ hw).follows

/-- A list grows in both stores. -/
theorem follows_extend (n : Int64) :
    Follows L ρ st st' Done (execute .extend n) (execute .extend n) m := by
  refine (reads_top h hm).follows_bind fun {m₁ v _} hm₁ hv => ?_
  obtain ⟨hv, rfl⟩ := hv
  cases v with
  | list r =>
    have hr := hv.below.list r rfl
    have hx : Moves ρ st st' ρ (st.extend r m₁.a) (st'.extend (ρ.list r) (m₁.a.rename ρ)) :=
      .extend hr
    exact .ok (h.extend hr hm₁.a) hx (.moves ⟨hm₁, rfl⟩ hx) trivial
  | _ => exact (Reads.throw h hm₁ rfl).follows

theorem follows_lookup (n : Int64) :
    Follows L ρ st st' Done (execute .lookup n) (execute .lookup n) m := by
  refine (reads_pop h hm).follows_bind fun {m₁ _ _} hm₁ hk => .get ?_
  obtain ⟨hk, rfl⟩ := hk
  refine (reads_scopeOf h hm₁ _ hm₁.a).follows_bind fun hm₂ hs => ?_
  obtain ⟨hs, rfl⟩ := hs
  exact follows_setA_act hm₂ (.keyText_bind h hk fun key => .lookup h key hs)

/-- A definition or an assignment by a program. -/
theorem follows_binding (op : String) {b : ScopeRef → String → Value → Action Unit}
    (hb : ∀ {ρ : Renaming} {st st' : Store}, Paired L.lone ρ st st' → ∀ {s : ScopeRef} (key : String)
      {v : Value}, s.index < st.scopes.size → v.Within false st →
      Action.Follows L.lone ρ st st' Done (b s key v) (b (ρ.scope s) key (v.rename ρ))) :
    Follows L ρ st st' Done
      (do
        let key ← Step.act (Action.keyText (← pop))
        let s ← scopeOf op (← top)
        Step.act (b s key (← get).a))
      (do
        let key ← Step.act (Action.keyText (← pop))
        let s ← scopeOf op (← top)
        Step.act (b s key (← get).a)) m := by
  refine (reads_pop h hm).follows_bind fun hm₁ hk => ?_
  obtain ⟨hk, rfl⟩ := hk
  refine (Follows.act hm₁ (.keyText h hk)).bind fun h₂ _ hm₂ hkey => ?_
  obtain rfl := hkey
  refine (reads_top h₂ hm₂).follows_bind fun hm₃ hv => ?_
  obtain ⟨hv, rfl⟩ := hv
  refine (reads_scopeOf h₂ hm₃ op hv).follows_bind fun hm₄ hs => .get ?_
  obtain ⟨hs, rfl⟩ := hs
  exact .act hm₄ (hb h₂ _ hs hm₄.a)

theorem follows_makeScope (n : Int64) :
    Follows L ρ st st' Done (execute .newScope n) (execute .newScope n) m := by
  refine (reads_pop h hm).follows_bind fun hm₁ hv => ?_
  obtain ⟨hv, rfl⟩ := hv
  refine (reads_pop h hm₁).follows_bind fun {m₂ _ _} hm₂ hk => .get ?_
  obtain ⟨hk, rfl⟩ := hk
  refine (reads_scopeOf h hm₂ _ hm₂.a).follows_bind fun hm₃ hs => .getStore ?_
  obtain ⟨hs, rfl⟩ := hs
  rw [h.items_rename hv]
  refine (Follows.act hm₃ (.bindParameters h hk (fun w hw => h.sealed.within_items hw) hs)).bind
    fun h₄ _ hm₄ ht => ?_
  obtain ⟨ht, rfl⟩ := ht
  exact (reads_setA h₄ hm₄ (Value.within_scope ht)).follows

/-- What a machine can be seen to be is the same in both stores. -/
theorem dump_rename : (m.rename ρ).dump st' = m.dump st := by
  have hslots : ∀ n i, (m.rename ρ).dumpSlots st' i n = m.dumpSlots st i n := by
    intro n
    induction n with
    | zero => exact fun _ => rfl
    | succ n ih =>
      intro i
      have hs : (m.rename ρ).stack[i]? = m.stack[i]?.map (Value.rename ρ) := Array.getElem?_map ..
      rw [dumpSlots, dumpSlots, hs, ih]
      rcases hv : m.stack[i]? with _ | v
      · rfl
      · rw [Option.map_some]
        dsimp only
        rw [h.inspected_rename (hm.stack v (Array.mem_of_getElem? hv))]
  have ha : (m.rename ρ).a.inspected st' = m.a.inspected st := h.inspected_rename hm.a
  rw [dump, dump, ha, hslots]
  rfl

theorem follows_halt (n : Int64) :
    Follows L ρ st st' Done (execute .halt n) (execute .halt n) m := by
  refine (reads_constant h hm n).follows_bind fun hm₁ hv => .getStore ?_
  obtain ⟨hv, rfl⟩ := hv
  rw [h.shown_rename hv]
  exact (follows_emit h hm₁ _).bind fun h₂ _ hm₂ _ =>
    Reads.follows (.change h₂ rfl { hm₂ with })

/-- In paired stores, an instruction does the same for a machine and for the renamed one. -/
theorem follows_execute (op : Opcode) (n : Int64) :
    Follows L ρ st st' Done (execute op n) (execute op n) m := by
  cases op with
  | nop => exact (Reads.pure h hm trivial).follows
  | load =>
    refine .get ((reads_offset h hm m.bp n).follows_bind fun hm₁ hi => ?_)
    obtain rfl := hi
    refine (reads_slot h hm₁ _).follows_bind fun hm₂ hv => ?_
    obtain ⟨hv, rfl⟩ := hv
    exact (reads_setA h hm₂ hv).follows
  | store =>
    refine .get ((reads_offset h hm m.bp n).follows_bind fun hm₁ hi => .get ?_)
    obtain rfl := hi
    exact (reads_setSlot h hm₁ _ hm₁.a).follows
  | adjust => exact (reads_adjust h hm n).follows
  | push => exact .get (reads_push h hm hm.a).follows
  | pop =>
    refine (reads_pop h hm).follows_bind fun hm₁ hv => ?_
    obtain ⟨hv, rfl⟩ := hv
    exact (reads_setA h hm₁ hv).follows
  | peek =>
    refine (reads_top h hm).follows_bind fun hm₁ hv => ?_
    obtain ⟨hv, rfl⟩ := hv
    exact (reads_setA h hm₁ hv).follows
  | dup =>
    refine (reads_top h hm).follows_bind fun hm₁ hv => ?_
    obtain ⟨hv, rfl⟩ := hv
    exact (reads_push h hm₁ hv).follows
  | swap => exact (reads_swap h hm n).follows
  | data =>
    refine (reads_constant h hm n).follows_bind fun hm₁ hv => ?_
    obtain ⟨hv, rfl⟩ := hv
    exact (reads_setA h hm₁ hv).follows
  | call => exact (reads_call h hm n).follows
  | enter => exact (reads_enter h hm n).follows
  | leave => exact (reads_leave h hm n).follows
  | jumpZero => exact (reads_jumpIf h hm (· == 0) n).follows
  | jumpNonzero => exact (reads_jumpIf h hm (· != 0) n).follows
  | jump => exact (reads_jump h hm n).follows
  | less | lessKeep | lessEqual | lessEqualKeep | greater | greaterKeep =>
    exact follows_comparison h hm _ _
  | equal | equalKeep | unequal | unequalKeep => exact (reads_equality h hm _ _).follows
  | sub =>
    refine (reads_pop h hm).follows_bind fun hm₁ hv => .get ?_
    obtain ⟨hv, rfl⟩ := hv
    exact follows_setA_act hm₁ (Value.follows_sub h hv hm₁.a)
  | mul =>
    refine (reads_pop h hm).follows_bind fun hm₁ hv => .get ?_
    obtain ⟨hv, rfl⟩ := hv
    exact follows_setA_act hm₁ (Value.follows_mul h hv hm₁.a)
  | new =>
    refine .get ?_
    have ha : (m.rename ρ).a.toInt = m.a.toInt := Value.toInt_rename ..
    rw [ha]
    exact follows_setA_act hm (follows_emptyValue h _)
  | kind =>
    refine .get ?_
    have ha : (m.rename ρ).a.kind = m.a.kind := Value.kind_rename ..
    rw [ha]
    exact (reads_setA h hm (Value.within_of_none rfl rfl)).follows
  | count =>
    refine .get (.getStore ?_)
    have ha : (m.rename ρ).a = m.a.rename ρ := rfl
    rw [ha, h.length_rename hm.a]
    exact (reads_setA h hm (Value.within_of_none rfl rfl)).follows
  | index => exact (reads_index h hm n).follows
  | setScope => exact (reads_setScope h hm n).follows
  | getScope => exact (reads_getScope h hm n).follows
  | extend => exact follows_extend h hm n
  | convert => exact follows_convert h hm n
  | invoke => exact follows_invokeTop h hm n
  | head =>
    refine (reads_top h hm).follows_bind fun hm₁ hv => ?_
    obtain ⟨hv, rfl⟩ := hv
    exact follows_setA_act hm₁ (Value.follows_head h hv)
  | tail =>
    refine (reads_top h hm).follows_bind fun hm₁ hv => ?_
    obtain ⟨hv, rfl⟩ := hv
    exact follows_setA_act hm₁ (Value.follows_tail h hv)
  | lookup => exact follows_lookup h hm n
  | assign => exact follows_binding h hm _ fun h s key v => .assign h key
  | define => exact follows_binding h hm _ fun h s key v => .define h key
  | newScope => exact follows_makeScope h hm n
  | exit => exact Reads.follows (.change h rfl { hm with })
  | print =>
    refine .get (.getStore ?_)
    have ha : (m.rename ρ).a = m.a.rename ρ := rfl
    rw [ha, h.shown_rename hm.a]
    exact follows_emit h hm _
  | halt => exact follows_halt h hm n
  | dump =>
    refine .get (.getStore ?_)
    rw [dump_rename h hm]
    exact follows_emit h hm _

/-- In paired stores, a machine and the renamed machine make the same step. -/
theorem follows_step : Follows L ρ st st' Done step step m := by
  refine .get (.get ?_)
  have hf : (m.rename ρ).finished = m.finished := rfl
  rw [hf]
  split
  · exact .error h (.refl ρ st st') ⟨hm, rfl⟩
  refine (reads_fetch h hm).follows_bind fun {m₁ _ word} hm₁ hw => ?_
  obtain rfl := hw
  rcases Opcode.ofWord? word with _ | op
  · exact .error h (.refl ρ st st') ⟨hm₁, rfl⟩
  have hexec (n : Int64) {m₂ : Machine} (hm₂ : m₂.Within st) :
      Follows L ρ st st' Done
        (do modify (fun m => { m with steps := m.steps + 1 }); execute op n)
        (do modify (fun m => { m with steps := m.steps + 1 }); execute op n) m₂ :=
    follows_execute (m := { m₂ with steps := m₂.steps + 1 }) h { hm₂ with } op n
  dsimp only
  split
  · exact hexec 0 hm₁
  · refine (reads_fetch h hm₁).follows_bind fun hm₂ hn => ?_
    obtain rfl := hn
    exact hexec _ hm₂

/-- In paired stores, a machine and the renamed machine run alike. -/
theorem follows_runFor (budget : Nat) :
    Follows L ρ st st' SameResult (runFor budget) (runFor budget) m := by
  induction budget generalizing ρ st st' m with
  | zero => exact (Reads.pure h hm rfl).follows
  | succ budget ih =>
    refine .get ?_
    have hf : (m.rename ρ).finished = m.finished := rfl
    rw [hf]
    split
    · exact (Reads.pure h hm rfl).follows
    · exact (follows_step h hm).bind fun h₁ _ hm₁ _ => ih h₁ hm₁

end

end Machine

end LispEngines
