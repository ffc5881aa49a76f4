import LispEngines.Proofs.Store.Reading
import LispEngines.SpecialForm

/-!
# Actions on paired stores

An action, carried out in the second of two paired stores on what stands for its arguments,
does there what it does in the first one: it fails alike or gives what stands for its value,
and leaves paired stores behind.  `Action.Follows` says so of two actions; it is shown here
for the actions that evaluation is made of, for the special forms and for the native library
(`Native.follows_call`).
-/

namespace LispEngines

/-- The outcomes of two actions match: both values, which then are related by `R` in what
the stores have become, or both the same failure. -/
inductive Matched {α β : Type} (L : Link) (ρ : Renaming) (st st' : Store)
    (R : Renaming → Store → α → β → Prop) :
    Except Failure α × Store → Except Failure β × Store → Prop
  | ok {ρ₁ : Renaming} {st₁ st₁' : Store} {x : α} {y : β} (hp : Paired L ρ₁ st₁ st₁')
      (hx : Extends L ρ st st' ρ₁ st₁ st₁') (hr : R ρ₁ st₁ x y) :
      Matched L ρ st st' R (.ok x, st₁) (.ok y, st₁')
  | error {ρ₁ : Renaming} {st₁ st₁' : Store} {e : Failure} (hp : Paired L ρ₁ st₁ st₁')
      (hx : Extends L ρ st st' ρ₁ st₁ st₁') :
      Matched L ρ st st' R (.error e, st₁) (.error e, st₁')

/-- The second value stands for the first one. -/
def Value.StandsFor (L : Link) (ρ : Renaming) (st : Store) (v w : Value) : Prop :=
  v.Within L.shares st ∧ w = v.rename ρ

/-- The second scope stands for the first one. -/
def ScopeRef.StandsFor (ρ : Renaming) (st : Store) (s t : ScopeRef) : Prop :=
  s.index < st.scopes.size ∧ t = ρ.scope s

namespace Action

variable {α β γ δ : Type} {L : Link} {ρ : Renaming} {st st' : Store}
  {R : Renaming → Store → α → β → Prop} {S : Renaming → Store → γ → δ → Prop}

/-- The second action does in the second store what the first one does in the first. -/
def Follows (L : Link) (ρ : Renaming) (st st' : Store) (R : Renaming → Store → α → β → Prop)
    (a : Action α) (b : Action β) : Prop :=
  Matched L ρ st st' R (a st) (b st')

namespace Follows

theorem pure {x : α} {y : β} (h : Paired L ρ st st') (hr : R ρ st x y) :
    Follows L ρ st st' R (pure x) (pure y) :=
  .ok h (.refl L ρ st st') hr

theorem throw {e e' : Failure} (h : Paired L ρ st st') (he : e' = e) :
    Follows L ρ st st' R (throw e) (throw e') :=
  he ▸ .error h (.refl L ρ st st')

/-- Reading the stores changes nothing. -/
theorem get {f : Store → Action γ} {g : Store → Action δ}
    (h : Follows L ρ st st' S (f st) (g st')) : Follows L ρ st st' S (get >>= f) (get >>= g) := h

theorem bind {a : Action α} {b : Action β} {f : α → Action γ} {g : β → Action δ}
    (h : Follows L ρ st st' R a b)
    (hf : ∀ {ρ₁ : Renaming} {st₁ st₁' : Store} {x : α} {y : β}, Paired L ρ₁ st₁ st₁' →
      Extends L ρ st st' ρ₁ st₁ st₁' → R ρ₁ st₁ x y →
      Follows L ρ₁ st₁ st₁' S (f x) (g y)) :
    Follows L ρ st st' S (a >>= f) (b >>= g) := by
  unfold Follows at h ⊢
  rcases ha : a st with ⟨e | x, st₁⟩ <;> rcases hb : b st' with ⟨e' | y, st₁'⟩ <;> rw [ha, hb] at h
  · rw [bind_error ha, bind_error hb]
    cases h with
    | error hp hx => exact .error hp hx
  · cases h
  · cases h
  · rw [bind_ok ha, bind_ok hb]
    cases h with
    | ok hp hx hr =>
      have hm := hf hp hx hr
      unfold Follows at hm
      generalize f x st₁ = out at hm ⊢
      generalize g y st₁' = out' at hm ⊢
      cases hm with
      | ok hp' hx' hr' => exact .ok hp' (hx.trans hx') hr'
      | error hp' hx' => exact .error hp' (hx.trans hx')

theorem newList (h : Paired L ρ st st') {vs : List Value} (hv : ∀ v ∈ vs, v.Within L.shares st) :
    Follows L ρ st st' (Value.StandsFor L) (newList vs) (newList (vs.map (Value.rename ρ))) :=
  .ok (h.newList hv) (.newList hv)
    ⟨Value.within_list (by simp), congrArg Value.list (if_pos rfl).symm⟩

theorem newNil (h : Paired L ρ st st') : Follows L ρ st st' (Value.StandsFor L) newNil newNil :=
  newList h (List.forall_mem_nil _)

theorem newScope (h : Paired L ρ st st') {p : ScopeRef} (hp : p.index < st.scopes.size) :
    Follows L ρ st st' ScopeRef.StandsFor (newScope (some p)) (newScope (some (ρ.scope p))) :=
  .ok (h.newScope fun _ hq => (by cases hq; exact hp))
    (.newScope fun _ hq => (by cases hq; exact h.scope_lt p hp)) ⟨by simp, (if_pos rfl).symm⟩

theorem define (h : Paired L ρ st st') {s : ScopeRef} (key : String) {v : Value}
    (hs : s.index < st.scopes.size) (hv : v.Within L.shares st) :
    Follows L ρ st st' (fun _ _ _ _ => True) (define s key v)
      (define (ρ.scope s) key (v.rename ρ)) :=
  .ok (h.define key hs hv) (.define key hs hv) trivial

theorem assign (h : Paired L ρ st st') {s : ScopeRef} (key : String) {v : Value}
    (hs : s.index < st.scopes.size) (hv : v.Within L.shares st) :
    Follows L ρ st st' (fun _ _ _ _ => True) (assign s key v)
      (assign (ρ.scope s) key (v.rename ρ)) := by
  unfold Follows Action.assign
  rw [h.find?_rename hs]
  rcases hf : st.find? s key with _ | t
  · exact .error h (.refl L ρ st st')
  · exact .ok (h.define key (h.find?_lt hs hf) hv) (.define key (h.find?_lt hs hf) hv) trivial

theorem lookup (h : Paired L ρ st st') {s : ScopeRef} (key : String)
    (hs : s.index < st.scopes.size) :
    Follows L ρ st st' (Value.StandsFor L) (lookup s key) (lookup (ρ.scope s) key) := by
  unfold Follows Action.lookup
  rw [h.lookup?_rename hs]
  rcases hv : st.lookup? s key with _ | v
  · exact .error h (.refl L ρ st st')
  · exact .ok h (.refl L ρ st st') ⟨h.lookup?_within hv, rfl⟩

theorem keyText (h : Paired L ρ st st') {v : Value} (hv : v.Within L.shares st) :
    Follows L ρ st st' (fun _ _ k k' => k' = k) (keyText v) (keyText (v.rename ρ)) := by
  unfold Follows Action.keyText
  rw [Value.keyText?_rename, Value.kind_rename, h.shown_rename hv]
  cases v.keyText? with
  | some key => exact .ok h (.refl L ρ st st') rfl
  | none => exact .error h (.refl L ρ st st')

/-- Reading a name changes nothing. -/
theorem keyText_bind (h : Paired L ρ st st') {v : Value} (hv : v.Within L.shares st)
    {f : String → Action γ} {g : String → Action δ}
    (hf : ∀ key, Follows L ρ st st' S (f key) (g key)) :
    Follows L ρ st st' S (Action.keyText v >>= f) (Action.keyText (v.rename ρ) >>= g) := by
  cases hk : v.keyText? with
  | some key =>
    rw [keyText_of_some hk, keyText_of_some ((Value.keyText?_rename ρ v).trans hk), pure_bind,
      pure_bind]
    exact hf key
  | none =>
    rw [keyText_of_none hk, keyText_of_none ((Value.keyText?_rename ρ v).trans hk), bind_assoc,
      bind_assoc]
    exact throw h (by rw [Value.kind_rename, h.shown_rename hv])

/-- What one output takes the other one takes. -/
theorem write (h : Paired L ρ st st') (t : String) (refused : String → Failure) :
    Follows L ρ st st' (fun _ _ _ _ => True) (write t refused) (write t refused) := by
  have hw := L.write h.sink t
  unfold Follows
  cases hk : st.sink.write? t <;> cases hk' : st'.sink.write? t <;> rw [hk, hk'] at hw <;> cases hw
  · rw [write_of_none hk, write_of_none hk']
    exact .error h (.refl L ρ st st')
  · rename_i hs
    rw [write_of_some hk, write_of_some hk']
    exact .ok (h.withSink hs) (.withSink _ _) trivial

/-- Binding parameters to arguments one by one. -/
theorem bindAll (names : List Value) :
    ∀ {st st' : Store} {s : ScopeRef} {vs : List Value}, Paired L ρ st st' →
      s.index < st.scopes.size → (∀ v ∈ names, v.Within L.shares st) → (∀ v ∈ vs, v.Within L.shares st) →
      Follows L ρ st st' (fun _ _ _ _ => True) (bindAll s names vs)
        (bindAll (ρ.scope s) (names.map (Value.rename ρ)) (vs.map (Value.rename ρ))) := by
  induction names generalizing ρ with
  | nil => intro st st' s vs h _ _ _; exact .pure h trivial
  | cons name names ih =>
    intro st st' s vs h hs hn hv
    rcases vs with _ | ⟨v, vs⟩
    · exact .pure h trivial
    rw [List.map_cons, List.map_cons, Action.bindAll, Action.bindAll]
    refine keyText_bind h (hn name (List.mem_cons_self ..)) fun key => ?_
    refine (define h key hs (hv v (List.mem_cons_self ..))).bind fun {ρ₁ st₁ st₁' _ _} h₁ hx _ => ?_
    have hn' : ∀ w ∈ names, w.Within L.shares st := fun w hw => hn w (List.mem_cons_of_mem _ hw)
    have hv' : ∀ w ∈ vs, w.Within L.shares st := fun w hw => hv w (List.mem_cons_of_mem _ hw)
    rw [← hx.agree.scope s hs, ← hx.agree.map_rename hn', ← hx.agree.map_rename hv']
    exact ih h₁ (Nat.lt_of_lt_of_le hs hx.grows.scopes) (fun w hw => (hn' w hw).mono hx.grows)
      (fun w hw => (hv' w hw).mono hx.grows)

/-- The scope of a call. -/
theorem bindParameters (h : Paired L ρ st st') {params : Value} {args : List Value}
    {parent : ScopeRef} (hn : params.Within L.shares st) (hv : ∀ v ∈ args, v.Within L.shares st)
    (hp : parent.index < st.scopes.size) :
    Follows L ρ st st' ScopeRef.StandsFor (bindParameters params args parent)
      (bindParameters (params.rename ρ) (args.map (Value.rename ρ)) (ρ.scope parent)) := by
  refine (newScope h hp).bind fun {ρ₁ st₁ st₁' s _} h₁ hx hs => ?_
  obtain ⟨hs, rfl⟩ := hs
  rw [← hx.agree.rename hn, ← hx.agree.map_rename hv]
  have hn₁ := hn.mono hx.grows
  have hv₁ : ∀ v ∈ args, v.Within L.shares st₁ := fun v hm => (hv v hm).mono hx.grows
  cases params with
  | symbol name =>
    refine (newList h₁ hv₁).bind fun {ρ₂ st₂ st₂' v _} h₂ hx₂ hw => ?_
    obtain ⟨hw, rfl⟩ := hw
    rw [← hx₂.agree.scope s hs]
    have hs₂ := Nat.lt_of_lt_of_le hs hx₂.grows.scopes
    refine (define h₂ name hs₂ hw).bind fun {ρ₃ st₃ st₃' _ _} h₃ hx₃ _ => ?_
    exact pure h₃ ⟨Nat.lt_of_lt_of_le hs₂ hx₃.grows.scopes, (hx₃.agree.scope s hs₂).symm⟩
  | list r =>
    refine get ?_
    rw [h₁.items r (hn₁.below.list r rfl)]
    dsimp only
    rw [List.length_map, List.length_map]
    have hb := (bindAll (st₁.items r) h₁ hs (fun w hw => h₁.sealed.items _ _ hw) hv₁).bind
      (f := fun _ => Pure.pure s) (g := fun _ => Pure.pure (ρ₁.scope s))
      (S := ScopeRef.StandsFor) fun {ρ₂ st₂ st₂' _ _} h₂ hx₂ _ =>
        pure h₂ ⟨Nat.lt_of_lt_of_le hs hx₂.grows.scopes, (hx₂.agree.scope s hs).symm⟩
    split
    · exact throw h₁ rfl
    · exact hb
  | _ =>
    refine get ?_
    exact throw h₁ (by rw [h₁.shown_rename hn₁])

end Follows

end Action

open LispEngines.Action (Follows)

/-! ## Operations on values -/

namespace Value

variable {L : Link} {ρ : Renaming} {st st' : Store} {γ δ : Type}
  {S : Renaming → Store → γ → δ → Prop}

/-- What refers to nothing stands for itself. -/
theorem standsFor_self {v : Value} (hl : v.list? = none) (hs : v.scope? = none) :
    StandsFor L ρ st v v := by
  refine ⟨within_of_none hl hs, ?_⟩
  cases v with
  | list r => cases hl
  | lambda c => cases hl
  | expander c => cases hl
  | scope s => cases hs
  | _ => rfl

/-- Reading numbers changes nothing. -/
theorem follows_numbers (h : Paired L ρ st st') (op : String) {a b : Value} (ha : a.Within L.shares st)
    (hb : b.Within L.shares st) {f : Int64 × Int64 → Action γ} {g : Int64 × Int64 → Action δ}
    (hf : ∀ p, Follows L ρ st st' S (f p) (g p)) :
    Follows L ρ st st' S (numbers op a b >>= f) (numbers op (a.rename ρ) (b.rename ρ) >>= g) := by
  unfold Follows
  rw [Action.bind_apply, Action.bind_apply]
  by_cases hn : ∃ x y, a = .number x ∧ b = .number y
  · obtain ⟨x, y, rfl, rfl⟩ := hn
    exact hf (x, y)
  · have hm : ∀ (a b : Value) (s : Store), (¬ ∃ x y, a = .number x ∧ b = .number y) →
        numbers op a b s =
          (.error (.mismatch (.numbers op a.kind (a.shown s) b.kind (b.shown s))), s) := by
      intro a b s hab
      rw [numbers]
      exact fun x y hx hy => hab ⟨x, y, hx, hy⟩
    have hr : ¬ ∃ x y, a.rename ρ = .number x ∧ b.rename ρ = .number y := by
      rintro ⟨x, y, hx, hy⟩
      cases a <;> cases hx
      cases b <;> cases hy
      exact hn ⟨x, y, rfl, rfl⟩
    rw [hm a b st hn, hm _ _ st' hr, kind_rename, kind_rename, h.shown_rename ha,
      h.shown_rename hb]
    exact .error h (.refl L ρ st st')

theorem follows_add (h : Paired L ρ st st') {a b : Value} (ha : a.Within L.shares st) (hb : b.Within L.shares st) :
    Follows L ρ st st' (StandsFor L) (add a b) (add (a.rename ρ) (b.rename ρ)) := by
  cases a with
  | number n => exact follows_numbers h "+" ha hb fun p => .pure h (standsFor_self rfl rfl)
  | text s =>
    rw [rename_text, add, add, atomText?_rename, kind_rename]
    cases b.atomText? with
    | some t => exact .pure h (standsFor_self rfl rfl)
    | none => exact .throw h rfl
  | symbol s =>
    rw [rename_symbol, add, add, atomText?_rename, kind_rename]
    cases b.atomText? with
    | some t => exact .pure h (standsFor_self rfl rfl)
    | none => exact .throw h rfl
  | list r =>
    cases b with
    | list q =>
      refine .get ?_
      rw [h.items r (ha.below.list r rfl), h.items q (hb.below.list q rfl), ← List.map_append]
      exact .newList h fun v hv => (List.mem_append.mp hv).elim (h.sealed.items _ _) (h.sealed.items _ _)
    | _ => exact .throw h rfl
  | _ => exact .throw h rfl

theorem follows_sub (h : Paired L ρ st st') {a b : Value} (ha : a.Within L.shares st) (hb : b.Within L.shares st) :
    Follows L ρ st st' (StandsFor L) (sub a b) (sub (a.rename ρ) (b.rename ρ)) :=
  follows_numbers h "-" ha hb fun _ => .pure h (standsFor_self rfl rfl)

theorem follows_mul (h : Paired L ρ st st') {a b : Value} (ha : a.Within L.shares st) (hb : b.Within L.shares st) :
    Follows L ρ st st' (StandsFor L) (mul a b) (mul (a.rename ρ) (b.rename ρ)) :=
  follows_numbers h "*" ha hb fun _ => .pure h (standsFor_self rfl rfl)

theorem follows_div (h : Paired L ρ st st') {a b : Value} (ha : a.Within L.shares st) (hb : b.Within L.shares st) :
    Follows L ρ st st' (StandsFor L) (div a b) (div (a.rename ρ) (b.rename ρ)) := by
  refine follows_numbers h "/" ha hb fun p => ?_
  dsimp only
  split
  · exact .throw h rfl
  · exact .pure h (standsFor_self rfl rfl)

theorem follows_compare (h : Paired L ρ st st') (op : Comparison) {a b : Value} (ha : a.Within L.shares st)
    (hb : b.Within L.shares st) {f : Bool → Action γ} {g : Bool → Action δ}
    (hf : ∀ t, Follows L ρ st st' S (f t) (g t)) :
    Follows L ρ st st' S (compare op a b >>= f) (compare op (a.rename ρ) (b.rename ρ) >>= g) := by
  rw [compare, compare, bind_assoc, bind_assoc]
  exact follows_numbers h op.name ha hb fun p => hf _

theorem follows_head (h : Paired L ρ st st') {v : Value} (hv : v.Within L.shares st) :
    Follows L ρ st st' (StandsFor L) v.head (v.rename ρ).head := by
  refine .get ?_
  rw [h.get?_rename hv]
  rcases hw : v.get? st 0 with _ | w
  · exact .newNil h
  · exact .pure h ⟨h.sealed.within_items (List.mem_of_getElem? hw), rfl⟩

theorem follows_tail (h : Paired L ρ st st') {v : Value} (hv : v.Within L.shares st) :
    Follows L ρ st st' (StandsFor L) v.tail (v.rename ρ).tail := by
  refine .get ?_
  rw [h.items_rename hv, ← List.map_drop]
  exact .newList h fun w hw => h.sealed.within_items (List.mem_of_mem_drop hw)

end Value

/-! ## The native library -/

namespace Native

open Value (StandsFor standsFor_self)

variable {L : Link} {ρ : Renaming} {st st' : Store}

/-- Two functions of a value do the same in every pair of stores. -/
def Follow₁ (f : Value → Action Value) : Prop :=
  ∀ {L : Link} {ρ : Renaming} {st st' : Store}, Paired L ρ st st' → ∀ {a : Value}, a.Within L.shares st →
    Follows L ρ st st' (StandsFor L) (f a) (f (a.rename ρ))

/-- Two functions of two values do the same in every pair of stores. -/
def Follow₂ (f : Value → Value → Action Value) : Prop :=
  ∀ {L : Link} {ρ : Renaming} {st st' : Store}, Paired L ρ st st' → ∀ {a b : Value}, a.Within L.shares st →
    b.Within L.shares st → Follows L ρ st st' (StandsFor L) (f a b) (f (a.rename ρ) (b.rename ρ))

variable {args : List Value}

theorem follows_unary (h : Paired L ρ st st') (hv : ∀ v ∈ args, v.Within L.shares st)
    {f : Value → Action Value} (hf : Follow₁ f) :
    Follows L ρ st st' (StandsFor L) (unary args f) (unary (args.map (Value.rename ρ)) f) := by
  rcases args with _ | ⟨a, _ | ⟨b, rest⟩⟩
  · exact .throw h rfl
  · exact hf h (hv a (List.mem_cons_self ..))
  · exact .throw h (by simp)

theorem follows_binary (h : Paired L ρ st st') (hv : ∀ v ∈ args, v.Within L.shares st)
    {f : Value → Value → Action Value} (hf : Follow₂ f) :
    Follows L ρ st st' (StandsFor L) (binary args f) (binary (args.map (Value.rename ρ)) f) := by
  rcases args with _ | ⟨a, _ | ⟨b, _ | ⟨c, rest⟩⟩⟩
  · exact .throw h rfl
  · exact .throw h rfl
  · exact hf h (hv a (List.mem_cons_self ..)) (hv b (by simp))
  · exact .throw h (by simp)

theorem follows_foldlM {f : Value → Value → Action Value} (hf : Follow₂ f) :
    ∀ (args : List Value) {ρ : Renaming} {st st' : Store}, Paired L ρ st st' → ∀ {first : Value},
      first.Within L.shares st → (∀ v ∈ args, v.Within L.shares st) →
      Follows L ρ st st' (StandsFor L) (args.foldlM f first)
        ((args.map (Value.rename ρ)).foldlM f (first.rename ρ)) := by
  intro args
  induction args with
  | nil => intro ρ st st' h first hw _; exact .pure h ⟨hw, rfl⟩
  | cons a args ih =>
    intro ρ st st' h first hw hv
    rw [List.map_cons, List.foldlM_cons, List.foldlM_cons]
    refine (hf h hw (hv a (List.mem_cons_self ..))).bind fun h₁ hx hr => ?_
    obtain ⟨hw₁, rfl⟩ := hr
    have hv' : ∀ v ∈ args, v.Within L.shares st := fun v hm => hv v (List.mem_cons_of_mem _ hm)
    rw [← hx.agree.map_rename hv']
    exact ih h₁ hw₁ fun v hm => (hv' v hm).mono hx.grows

theorem follows_folded (h : Paired L ρ st st') (hv : ∀ v ∈ args, v.Within L.shares st)
    {f : Value → Value → Action Value} (hf : Follow₂ f) :
    Follows L ρ st st' (StandsFor L) (folded args f) (folded (args.map (Value.rename ρ)) f) := by
  rcases args with _ | ⟨first, rest⟩
  · exact .throw h rfl
  · exact follows_foldlM hf rest h (hv first (List.mem_cons_self ..))
      fun v hm => hv v (List.mem_cons_of_mem _ hm)

theorem follows_compared (h : Paired L ρ st st') (hv : ∀ v ∈ args, v.Within L.shares st) (op : Comparison) :
    Follows L ρ st st' (StandsFor L) (compared args op) (compared (args.map (Value.rename ρ)) op) :=
  follows_binary h hv fun h _ _ ha hb =>
    Value.follows_compare h op ha hb fun _ => .pure h (standsFor_self rfl rfl)

theorem joined_rename (h : Paired L ρ st st') (hv : ∀ v ∈ args, v.Within L.shares st) :
    joined (args.map (Value.rename ρ)) st' = joined args st := by
  rw [joined, joined, List.map_map]
  exact congrArg Value.spaced (List.map_congr_left fun v hm => h.shown_rename (hv v hm))

/-- Reading the elements of an argument changes nothing. -/
theorem follows_expectList {γ δ : Type} {S : Renaming → Store → γ → δ → Prop}
    (h : Paired L ρ st st') (op : String) {a : Value} (ha : a.Within L.shares st)
    {f : List Value → Action γ} {g : List Value → Action δ}
    (hf : ∀ vs : List Value, (∀ v ∈ vs, v.Within L.shares st) →
      Follows L ρ st st' S (f vs) (g (vs.map (Value.rename ρ)))) :
    Follows L ρ st st' S (expectList op a >>= f) (expectList op (a.rename ρ) >>= g) := by
  unfold Follows
  rw [Action.bind_apply, Action.bind_apply]
  by_cases hn : ∃ r, a = .list r
  · obtain ⟨r, rfl⟩ := hn
    show Matched L ρ st st' S (f (st.items r) st) (g (st'.items (ρ.list r)) st')
    rw [h.items r (ha.below.list r rfl)]
    exact hf _ fun v hv => h.sealed.items _ _ hv
  · have hm : ∀ (a : Value) (s : Store), (¬ ∃ r, a = .list r) →
        expectList op a s = (.error (.mismatch (.notList op a.kind (a.shown s))), s) := by
      intro a s hr
      rw [expectList]
      exact fun r hx => hr ⟨r, hx⟩
    have hr : ¬ ∃ r, a.rename ρ = .list r := by
      rintro ⟨r, hx⟩
      cases a <;> cases hx
      exact hn ⟨_, rfl⟩
    rw [hm a st hn, hm _ st' hr, h.shown_rename ha, Value.kind_rename]
    exact .error h (.refl L ρ st st')

/-- A native procedure does the same in paired stores. -/
theorem follows_call (h : Paired L ρ st st') (p : Native) (hv : ∀ v ∈ args, v.Within L.shares st) :
    Follows L ρ st st' (StandsFor L) (p.call args) (p.call (args.map (Value.rename ρ))) := by
  cases p with
  | plus => exact follows_folded h hv Value.follows_add
  | minus => exact follows_folded h hv Value.follows_sub
  | times => exact follows_folded h hv Value.follows_mul
  | divide => exact follows_folded h hv Value.follows_div
  | less | lessEqual | greater | greaterEqual | equalNumber => exact follows_compared h hv _
  | same =>
    refine follows_binary h hv fun {L ρ st st'} h a b ha hb => .get ?_
    rw [h.same_rename ha hb]
    exact .pure h (standsFor_self rfl rfl)
  | head =>
    refine follows_unary h hv fun {L ρ st st'} h a ha => ?_
    rw [discard_bind, discard_bind]
    exact follows_expectList h "head" ha fun _ _ => Value.follows_head h ha
  | tail =>
    refine follows_unary h hv fun {L ρ st st'} h a ha => ?_
    rw [discard_bind, discard_bind]
    exact follows_expectList h "tail" ha fun _ _ => Value.follows_tail h ha
  | isNull =>
    refine follows_unary h hv fun {L ρ st st'} h a ha => .get ?_
    rw [h.isNil_rename ha]
    exact .pure h (standsFor_self rfl rfl)
  | list => exact .newList h hv
  | cons =>
    refine follows_binary h hv fun {L ρ st st'} h a b ha hb => ?_
    refine follows_expectList h "cons" hb fun rest hr => ?_
    rw [← List.map_cons]
    exact .newList h fun v hm => (List.mem_cons.mp hm).elim (fun he => he ▸ ha) (hr v)
  | append =>
    refine follows_binary h hv fun {L ρ st st'} h a b ha hb => ?_
    refine follows_expectList h "append" ha fun front hf => ?_
    refine follows_expectList h "append" hb fun back hk => ?_
    rw [← List.map_append]
    exact .newList h fun v hm => (List.mem_append.mp hm).elim (hf v) (hk v)
  | length =>
    refine follows_unary h hv fun {L ρ st st'} h a ha => ?_
    refine follows_expectList h "length" ha fun vs _ => ?_
    rw [List.length_map]
    exact .pure h (standsFor_self rfl rfl)
  | print =>
    refine .get ?_
    rw [joined_rename h hv]
    exact (Follows.write h _ _).bind fun h₁ _ _ =>
      (Follows.write h₁ _ _).bind fun h₂ _ _ => .newNil h₂
  | str =>
    refine .get ?_
    rw [joined_rename h hv]
    exact .pure h (standsFor_self rfl rfl)
  | describeScope =>
    refine follows_unary h hv fun {L ρ st st'} h a ha => ?_
    rw [Value.scope?_rename, Value.kind_rename]
    rcases hs : a.scope? with _ | s
    · exact .throw h rfl
    · refine .get ?_
      rw [h.describe_rename (ha.below.scope s hs)]
      exact .pure h (standsFor_self rfl rfl)

end Native

theorem ScopeNative.follows_call {L : Link} {ρ : Renaming} {st st' : Store}
    (h : Paired L ρ st st') (p : ScopeNative) (args args' : List Value) {s : ScopeRef}
    (hs : s.index < st.scopes.size) :
    Follows L ρ st st' (Value.StandsFor L) (p.call args s) (p.call args' (ρ.scope s)) := by
  cases p
  exact .pure h ⟨Value.within_scope hs, rfl⟩

/-! ## Special forms -/

namespace SpecialForm

open Value (StandsFor)

variable {L : Link} {ρ : Renaming} {st st' : Store} {items : List Value}

theorem ofItems?_rename (ρ : Renaming) (items : List Value) :
    ofItems? (items.map (Value.rename ρ)) = ofItems? items := by
  rcases items with _ | ⟨head, operands⟩
  · rfl
  · cases head <;> rfl

theorem follows_operand (h : Paired L ρ st st') (form : SpecialForm)
    (hv : ∀ v ∈ items, v.Within L.shares st) (i : Nat) :
    Follows L ρ st st' (StandsFor L) (form.operand items i)
      (form.operand (items.map (Value.rename ρ)) i) := by
  rw [operand, operand, List.getElem?_map]
  rcases hi : items[i]? with _ | v
  · exact .throw h rfl
  · exact .pure h ⟨hv v (List.mem_of_getElem? hi), rfl⟩

theorem follows_boundName (h : Paired L ρ st st') (form : SpecialForm)
    (hv : ∀ v ∈ items, v.Within L.shares st) :
    Follows L ρ st st' (fun _ _ k k' => k' = k) (form.boundName items)
      (form.boundName (items.map (Value.rename ρ))) := by
  refine (follows_operand h form hv 1).bind fun h₁ _ hv => ?_
  obtain ⟨hv, rfl⟩ := hv
  exact .keyText h₁ hv

theorem follows_selected (h : Paired L ρ st st') (hv : ∀ v ∈ items, v.Within L.shares st)
    (test : Value) :
    Follows L ρ st st' (StandsFor L) (selected items test)
      (selected (items.map (Value.rename ρ)) (test.rename ρ)) := by
  rw [selected, selected, Value.isTruthy_rename, List.getElem?_map]
  split
  · exact follows_operand h .branch hv 2
  · rcases hi : items[3]? with _ | v
    · exact .newNil h
    · exact .pure h ⟨hv v (List.mem_of_getElem? hi), rfl⟩

theorem follows_bind (h : Paired L ρ st st') (form : SpecialForm) (name : String) {v : Value}
    {s : ScopeRef} (hv : v.Within L.shares st) (hs : s.index < st.scopes.size) :
    Follows L ρ st st' (StandsFor L) (form.bind name v s)
      (form.bind name (v.rename ρ) (ρ.scope s)) := by
  have hd : ∀ {a b : Action Unit}, Follows L ρ st st' (fun _ _ _ _ => True) a b →
      Follows L ρ st st' (StandsFor L) (a >>= fun _ => pure v)
        (b >>= fun _ => pure (v.rename ρ)) := fun hab =>
    hab.bind fun h₁ hx _ => .pure h₁ ⟨hv.mono hx.grows, (hx.agree.rename hv).symm⟩
  cases form with
  | assign => exact hd (.assign h name hs hv)
  | _ => exact hd (.define h name hs hv)

theorem follows_close (h : Paired L ρ st st') (form : SpecialForm) {x : Value} {s : ScopeRef}
    (hx : x.Within L.shares st) (hs : s.index < st.scopes.size) :
    Follows L ρ st st' (StandsFor L) (form.close x s) (form.close (x.rename ρ) (ρ.scope s)) := by
  refine .get ?_
  cases x with
  | list r =>
    have hr := hx.below.list r rfl
    rw [Value.rename_list]
    dsimp only
    rw [h.items r hr, List.length_map]
    split
    · exact .throw h rfl
    · rename_i hl
      have hb : ∀ v : Value, v.list? = some r → v.scope? = some s → v.Below st.lists.size
          st.scopes.size := fun v hl hs' =>
        ⟨fun q hq => (by rw [hl] at hq; cases hq; exact hr),
          fun t ht => (by rw [hs'] at ht; cases ht; exact hs)⟩
      cases form with
      | expander => exact .pure h ⟨⟨hb _ rfl rfl, fun _ => Nat.le_of_not_lt hl⟩, rfl⟩
      | _ => exact .pure h ⟨⟨hb _ rfl rfl, fun _ => Nat.le_of_not_lt hl⟩, rfl⟩
  | _ =>
    dsimp only
    refine .throw h ?_
    rw [h.shown_rename hx]

end SpecialForm

theorem Closure.follows_part {L : Link} {ρ : Renaming} {st st' : Store} (h : Paired L ρ st st')
    {c : Closure} (hc : c.form.index < st.lists.size) (i : Nat) :
    Follows L ρ st st' (Value.StandsFor L) (c.part i) ((c.rename ρ).part i) := by
  refine .get ?_
  rw [h.part?_rename hc]
  rcases hp : c.part? st i with _ | v
  · exact .newNil h
  · exact .pure h ⟨h.sealed.items _ v (List.mem_of_getElem? hp), rfl⟩

end LispEngines
