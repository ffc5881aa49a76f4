import LispEngines.Proofs.Course.Recursion
import LispEngines.Proofs.Frame.Following

/-!
# The recursive engine on paired stores

In the second of two paired stores a walk over a renamed expression does what the walk over the
expression does in the first one, under the same depth limit and with the same fuel: neither
answers, or both count the same steps and end alike (`Classic.follows_evaluate`).
-/

namespace LispEngines

namespace Walk

variable {α β γ δ : Type} {L : Link} {ρ : Renaming} {st st' : Store} {n : Nat}
  {R : Renaming → Store → α → β → Prop} {S : Renaming → Store → γ → δ → Prop}

/-- The second walk does in the second store what the first one does in the first, and counts the
same steps. -/
def Follows (L : Link) (ρ : Renaming) (st st' : Store) (R : Renaming → Store → α → β → Prop)
    (x : Walk α) (y : Walk β) (n : Nat) : Prop :=
  Option.Rel (Step.Matched L (Extends L ρ st st') (fun _ _ k k' => k' = k) R) (x n st) (y n st')

namespace Follows

theorem pure {v : α} {w : β} (h : Paired L ρ st st') (hr : R ρ st v w) :
    Follows L ρ st st' R (pure v) (pure w) n :=
  .some (.ok h (.refl L ρ st st') rfl hr)

theorem throw (h : Paired L ρ st st') (e : Failure) :
    Follows L ρ st st' R (throw e) (throw e) n :=
  .some (.error h (.refl L ρ st st') rfl)

theorem act {a : Action α} {b : Action β} (h : Action.Follows L ρ st st' R a b) :
    Follows L ρ st st' R (Run.act a) (Run.act b) n :=
  .some (Step.Matched.act h fun hx => ⟨hx, rfl⟩)

theorem bind {x : Walk α} {y : Walk β} {f : α → Walk γ} {g : β → Walk δ}
    (h : Follows L ρ st st' R x y n)
    (hf : ∀ {ρ₁ : Renaming} {st₁ st₁' : Store} {n₁ : Nat} {v : α} {w : β}, Paired L ρ₁ st₁ st₁' →
      Extends L ρ st st' ρ₁ st₁ st₁' → R ρ₁ st₁ v w → Follows L ρ₁ st₁ st₁' S (f v) (g w) n₁) :
    Follows L ρ st st' S (x >>= f) (y >>= g) n := by
  unfold Follows at h ⊢
  rw [Run.bind_apply, Run.bind_apply]
  generalize x n st = out at h ⊢
  generalize y n st' = out' at h ⊢
  cases h with
  | none => exact .none
  | some h =>
    cases h with
    | error hp hx ht =>
      obtain rfl := ht
      exact .some (.error hp hx rfl)
    | @ok ρ₁ st₁ st₁' _ k v w hp hx ht hr =>
      obtain rfl := ht
      have hm : Follows L ρ₁ st₁ st₁' S (f v) (g w) k := hf hp hx hr
      unfold Follows at hm
      dsimp only [Option.bind_some]
      generalize f v k st₁ = out at hm ⊢
      generalize g w k st₁' = out' at hm ⊢
      cases hm with
      | none => exact .none
      | some hm => exact .some (hm.imp hx.trans)

/-- Reading the elements of a list changes nothing. -/
theorem items {r : ListRef} {f : List Value → Walk γ} {g : List Value → Walk δ}
    (h : Paired L ρ st st') (hr : r.index < st.lists.size)
    (hf : Follows L ρ st st' S (f (st.items r)) (g ((st.items r).map (Value.rename ρ))) n) :
    Follows L ρ st st' S (Run.act (do return (← get).items r) >>= f)
      (Run.act (do return (← get).items (ρ.list r)) >>= g) n := by
  show Option.Rel _ (f (st.items r) n st) (g (st'.items (ρ.list r)) n st')
  rwa [h.items r hr]

end Follows

end Walk

namespace Classic

open Walk (Follows)
open Value (StandsFor)

variable {L : Link} {ρ : Renaming} {st st' : Store} {n limit fuel left : Nat} {x : Value}
  {s : ScopeRef}

/-- The walk does the same in every pair of stores. -/
def Alike (L : Link) (e : Value → ScopeRef → Walk Value) : Prop :=
  ∀ ⦃ρ : Renaming⦄ ⦃st st' : Store⦄ ⦃n : Nat⦄ ⦃x : Value⦄ ⦃s : ScopeRef⦄, Paired L ρ st st' →
    x.Within L.shares st → s.index < st.scopes.size →
    Follows L ρ st st' (StandsFor L) (e x s) (e (x.rename ρ) (ρ.scope s)) n

variable {e : Value → ScopeRef → Walk Value}

theorem follows_forM (he : Alike L e) : ∀ {xs : List Value} {ρ : Renaming} {st st' : Store}
    {n : Nat}, Paired L ρ st st' → (∀ x ∈ xs, x.Within L.shares st) → s.index < st.scopes.size →
    Follows L ρ st st' (fun _ _ _ _ => True) (xs.forM fun x => discard (e x s))
      ((xs.map (Value.rename ρ)).forM fun x => discard (e x (ρ.scope s))) n := by
  intro xs
  induction xs with
  | nil => exact fun h _ _ => .pure h trivial
  | cons x xs ih =>
    intro ρ st st' n h hxs hs
    rw [List.map_cons, List.forM_eq_forM, List.forM_cons, List.forM_cons, discard_bind,
      discard_bind]
    refine (he h (hxs x (List.mem_cons_self ..)) hs).bind fun h₁ hx _ => ?_
    have hrest := fun y hy => hxs y (List.mem_cons_of_mem x hy)
    rw [← hx.agree.map_rename hrest, ← hx.agree.scope s hs]
    exact ih h₁ (fun y hy => (hrest y hy).mono hx.grows) (Nat.lt_of_lt_of_le hs hx.grows.scopes)

theorem follows_mapM (he : Alike L e) : ∀ {xs : List Value} {ρ : Renaming} {st st' : Store}
    {n : Nat}, Paired L ρ st st' → (∀ x ∈ xs, x.Within L.shares st) → s.index < st.scopes.size →
    Follows L ρ st st' (fun ρ st vs ws => (∀ v ∈ vs, v.Within L.shares st) ∧
        ws = vs.map (Value.rename ρ)) (xs.mapM fun x => e x s)
      ((xs.map (Value.rename ρ)).mapM fun x => e x (ρ.scope s)) n := by
  intro xs
  induction xs with
  | nil => exact fun h _ _ => .pure h ⟨nofun, rfl⟩
  | cons x xs ih =>
    intro ρ st st' n h hxs hs
    rw [List.map_cons, List.mapM_cons, List.mapM_cons]
    refine (he h (hxs x (List.mem_cons_self ..)) hs).bind fun h₁ hx hv => ?_
    obtain ⟨hv, rfl⟩ := hv
    have hrest := fun y hy => hxs y (List.mem_cons_of_mem x hy)
    rw [← hx.agree.map_rename hrest, ← hx.agree.scope s hs]
    refine (ih h₁ (fun y hy => (hrest y hy).mono hx.grows)
      (Nat.lt_of_lt_of_le hs hx.grows.scopes)).bind fun h₂ hx₂ hvs => ?_
    obtain ⟨hvs, rfl⟩ := hvs
    refine .pure h₂ ⟨fun w hw => ?_, ?_⟩
    · rcases List.mem_cons.mp hw with rfl | hw
      · exact hv.mono hx₂.grows
      · exact hvs w hw
    · rw [List.map_cons, hx₂.agree.rename hv]

/-- What is evaluated one level further down. -/
theorem alike_nested (he : ∀ left, Alike L (walk limit fuel left)) (left : Nat) :
    Alike L (nested limit fuel left) := by
  intro ρ st st' n x s h hx hs
  cases left with
  | zero => exact .throw h _
  | succ left => exact he left h hx hs

/-- A definition or an assignment. -/
theorem follows_binding (h : Paired L ρ st st') (he : Alike L e) (form : SpecialForm)
    {xs : List Value} (hxs : ∀ v ∈ xs, v.Within L.shares st) (hs : s.index < st.scopes.size) :
    Follows L ρ st st' (StandsFor L)
      (do
        let name ← Run.act (form.boundName xs)
        let v ← e (← Run.act (form.operand xs 2)) s
        Run.act (form.bind name v s))
      (do
        let name ← Run.act (form.boundName (xs.map (Value.rename ρ)))
        let v ← e (← Run.act (form.operand (xs.map (Value.rename ρ)) 2)) (ρ.scope s)
        Run.act (form.bind name v (ρ.scope s))) n := by
  refine (Follows.act (form.follows_boundName h hxs)).bind fun h₁ hx hk => ?_
  obtain rfl := hk
  rw [← hx.agree.map_rename hxs, ← hx.agree.scope s hs]
  have hs₁ := Nat.lt_of_lt_of_le hs hx.grows.scopes
  refine (Follows.act (form.follows_operand h₁ (fun v hv => (hxs v hv).mono hx.grows) 2)).bind
    fun h₂ hx₂ hv => ?_
  obtain ⟨hv, rfl⟩ := hv
  rw [← hx₂.agree.scope s hs₁]
  have hs₂ := Nat.lt_of_lt_of_le hs₁ hx₂.grows.scopes
  refine (he h₂ hv hs₂).bind fun h₃ hx₃ hw => ?_
  obtain ⟨hw, rfl⟩ := hw
  rw [← hx₃.agree.scope s hs₂]
  exact .act (form.follows_bind h₃ _ hw (Nat.lt_of_lt_of_le hs₂ hx₃.grows.scopes))

/-- What the walk does with an operator and the arguments of its call. -/
def called (limit fuel left : Nat) (s : ScopeRef) (callee : Value) (args : List Value) :
    Walk Value :=
  match callee with
  | .lambda c => do
    let t ← Run.act (do Action.bindParameters (← c.params) args c.scope)
    walk limit fuel left (← Run.act c.body) t
  | .native p => Run.act (p.call args)
  | .scopeNative p => Run.act (p.call args s)
  | other => Run.act (do throw (.notCallable (other.shown (← get))))

/-- What the walk does with an operator and the operands. -/
def combined (limit fuel left : Nat) (s : ScopeRef) (operands : List Value) (callee : Value) :
    Walk Value :=
  match callee with
  | .expander c => do
    let t ← Run.act (do Action.bindParameters (← c.params) operands c.scope)
    let expansion ← nested limit fuel left (← Run.act c.body) t
    walk limit fuel left expansion s
  | callee => do
    let args ← operands.mapM fun e => nested limit fuel left e s
    called limit fuel left s callee args

theorem follows_called (h : Paired L ρ st st') (he : ∀ left, Alike L (walk limit fuel left))
    (hs : s.index < st.scopes.size) {callee : Value} {args : List Value}
    (hc : callee.Within L.shares st) (ha : ∀ v ∈ args, v.Within L.shares st) :
    Follows L ρ st st' (StandsFor L) (called limit fuel left s callee args)
      (called limit fuel left (ρ.scope s) (callee.rename ρ) (args.map (Value.rename ρ))) n := by
  cases callee with
  | lambda c =>
    have hl := hc.below.list _ rfl
    refine (Follows.act (Frame.Handler.follows_callScope h hl (hc.below.scope _ rfl) ha)).bind
      fun {_ _ _ _ t _} h₁ hx ht => ?_
    obtain ⟨ht, rfl⟩ := ht
    rw [← hx.agree.rename_closure hc]
    refine (Follows.act (Closure.follows_part h₁ (Nat.lt_of_lt_of_le hl hx.lists_le) 2)).bind
      fun h₂ hx₂ hv => ?_
    obtain ⟨hv, rfl⟩ := hv
    rw [← hx₂.agree.scope t ht]
    exact he left h₂ hv (Nat.lt_of_lt_of_le ht hx₂.scopes_le)
  | native p => exact .act (p.follows_call h ha)
  | scopeNative p => exact .act (p.follows_call h _ _ hs)
  | _ =>
    refine .act (.get ?_)
    rw [h.shown_rename hc]
    exact .throw h rfl

/-- A conditional. -/
theorem follows_branch (h : Paired L ρ st st') (he : ∀ left, Alike L (walk limit fuel left))
    {xs : List Value} (hxs : ∀ v ∈ xs, v.Within L.shares st) (hs : s.index < st.scopes.size) :
    Follows L ρ st st' (StandsFor L)
      (do
        let test ← nested limit fuel left (← Run.act (SpecialForm.operand .branch xs 1)) s
        walk limit fuel left (← Run.act (SpecialForm.selected xs test)) s)
      (do
        let ys := xs.map (Value.rename ρ)
        let test ← nested limit fuel left (← Run.act (SpecialForm.operand .branch ys 1)) (ρ.scope s)
        walk limit fuel left (← Run.act (SpecialForm.selected ys test)) (ρ.scope s)) n := by
  refine (Follows.act (SpecialForm.follows_operand h .branch hxs 1)).bind fun h₁ hx hv => ?_
  obtain ⟨hv, rfl⟩ := hv
  rw [← hx.agree.map_rename hxs, ← hx.agree.scope s hs]
  have hs₁ := Nat.lt_of_lt_of_le hs hx.scopes_le
  have hxs₁ := fun v hv => (hxs v hv).mono hx.grows
  refine (alike_nested he left h₁ hv hs₁).bind fun h₂ hx₂ hw => ?_
  obtain ⟨hw, rfl⟩ := hw
  rw [← hx₂.agree.map_rename hxs₁, ← hx₂.agree.scope s hs₁]
  have hs₂ := Nat.lt_of_lt_of_le hs₁ hx₂.scopes_le
  have hxs₂ := fun v hv => (hxs₁ v hv).mono hx₂.grows
  refine (Follows.act (SpecialForm.follows_selected h₂ hxs₂ _)).bind fun h₃ hx₃ hb => ?_
  obtain ⟨hb, rfl⟩ := hb
  rw [← hx₃.agree.scope s hs₂]
  exact he left h₃ hb (Nat.lt_of_lt_of_le hs₂ hx₃.scopes_le)

/-- A sequence. -/
theorem follows_sequence (h : Paired L ρ st st') (he : ∀ left, Alike L (walk limit fuel left))
    {xs : List Value} (hxs : ∀ v ∈ xs, v.Within L.shares st) (hs : s.index < st.scopes.size) :
    Follows L ρ st st' (StandsFor L)
      (match xs.getLast? with
        | none => Run.act Action.newNil
        | some last => do
          xs.dropLast.forM fun e => discard (nested limit fuel left e s)
          walk limit fuel left last s)
      (match (xs.map (Value.rename ρ)).getLast? with
        | none => Run.act Action.newNil
        | some last => do
          (xs.map (Value.rename ρ)).dropLast.forM fun e =>
            discard (nested limit fuel left e (ρ.scope s))
          walk limit fuel left last (ρ.scope s)) n := by
  rcases xs.eq_nil_or_concat' with rfl | ⟨xs, last, rfl⟩
  · exact .act (.newNil h)
  rw [List.map_append, List.map_singleton, List.getLast?_concat, List.getLast?_concat,
    List.dropLast_concat, List.dropLast_concat]
  have hlast := hxs last (by simp)
  refine (follows_forM (alike_nested he left) h
    (fun x hx => hxs x (List.mem_append_left _ hx)) hs).bind fun h₁ hx _ => ?_
  rw [← hx.agree.rename hlast, ← hx.agree.scope s hs]
  exact he left h₁ (hlast.mono hx.grows) (Nat.lt_of_lt_of_le hs hx.scopes_le)

/-- The operator is evaluated, and then, unless it expands, the operands. -/
theorem follows_combined (h : Paired L ρ st st') (he : ∀ left, Alike L (walk limit fuel left))
    (hs : s.index < st.scopes.size) {callee : Value} {xs : List Value}
    (hc : callee.Within L.shares st) (hxs : ∀ v ∈ xs, v.Within L.shares st) :
    Follows L ρ st st' (StandsFor L) (combined limit fuel left s xs callee)
      (combined limit fuel left (ρ.scope s) (xs.map (Value.rename ρ)) (callee.rename ρ)) n := by
  cases callee with
  | expander c =>
    have hl := hc.below.list _ rfl
    refine (Follows.act (Frame.Handler.follows_callScope h hl (hc.below.scope _ rfl) hxs)).bind
      fun {_ _ _ _ t _} h₁ hx ht => ?_
    obtain ⟨ht, rfl⟩ := ht
    rw [← hx.agree.rename_closure (Paired.within_lambda_of_expander hc), ← hx.agree.scope s hs]
    have hs₁ := Nat.lt_of_lt_of_le hs hx.scopes_le
    refine (Follows.act (Closure.follows_part h₁ (Nat.lt_of_lt_of_le hl hx.lists_le) 2)).bind
      fun h₂ hx₂ hv => ?_
    obtain ⟨hv, rfl⟩ := hv
    rw [← hx₂.agree.scope t ht, ← hx₂.agree.scope s hs₁]
    have hs₂ := Nat.lt_of_lt_of_le hs₁ hx₂.scopes_le
    refine (alike_nested he left h₂ hv (Nat.lt_of_lt_of_le ht hx₂.scopes_le)).bind
      fun h₃ hx₃ hw => ?_
    obtain ⟨hw, rfl⟩ := hw
    rw [← hx₃.agree.scope s hs₂]
    exact he left h₃ hw (Nat.lt_of_lt_of_le hs₂ hx₃.scopes_le)
  | _ =>
    refine (follows_mapM (alike_nested he left) h hxs hs).bind fun h₁ hx hvs => ?_
    obtain ⟨hvs, rfl⟩ := hvs
    rw [← hx.agree.scope s hs, ← hx.agree.rename hc]
    exact follows_called h₁ he (Nat.lt_of_lt_of_le hs hx.scopes_le) (hc.mono hx.grows) hvs

/-- A walk over what stands for an expression. -/
theorem follows_walk (limit : Nat) : ∀ fuel left, Alike L (walk limit fuel left) := by
  intro fuel
  induction fuel with
  | zero => exact fun _ _ _ _ _ _ _ _ _ _ => .none
  | succ fuel ih =>
    intro left ρ st st' n x s h hx hs
    rw [walk, walk]
    show Follows L ρ st st' _ _ _ (n + 1)
    cases x with
    | list r =>
      refine .items h (hx.below.list r rfl) ?_
      have hxs : ∀ v ∈ st.items r, v.Within L.shares st := fun v hv => h.sealed.items r v hv
      rcases hi : st.items r with _ | ⟨head, operands⟩
      · exact .act (.newNil h)
      rw [hi] at hxs
      have hrest := fun v hv => hxs v (List.mem_cons_of_mem head hv)
      rw [SpecialForm.ofItems?_rename, List.map_cons]
      rcases SpecialForm.ofItems? (head :: operands) with _ | (_ | _ | _ | _ | _ | _ | _) <;>
        dsimp only
      case none =>
        refine Follows.bind (alike_nested ih left h (hxs head (List.mem_cons_self ..)) hs)
          fun h₁ hx₁ hv => ?_
        obtain ⟨hv, rfl⟩ := hv
        rw [← hx₁.agree.map_rename hrest, ← hx₁.agree.scope s hs]
        exact follows_combined h₁ ih (Nat.lt_of_lt_of_le hs hx₁.scopes_le) hv
          fun v hv => (hrest v hv).mono hx₁.grows
      case some.quote => exact .act (SpecialForm.follows_operand h .quote hxs 1)
      case some.branch => exact follows_branch h ih hxs hs
      case some.define => exact follows_binding h (alike_nested ih left) .define hxs hs
      case some.assign => exact follows_binding h (alike_nested ih left) .assign hxs hs
      case some.lambda => exact .act (SpecialForm.follows_close h .lambda hx hs)
      case some.expander => exact .act (SpecialForm.follows_close h .expander hx hs)
      case some.sequence => exact follows_sequence h ih hrest hs
    | symbol name => exact .act (.lookup h name hs)
    | _ => exact .pure h ⟨hx, rfl⟩

/-- In paired stores, an expression and what stands for it evaluate alike. -/
theorem follows_evaluate (limit fuel : Nat) : Alike L (evaluate limit fuel) := by
  intro ρ st st' n x s h hx hs
  cases limit with
  | zero => exact .throw h _
  | succ left => exact follows_walk _ fuel left h hx hs

end Classic

end LispEngines
