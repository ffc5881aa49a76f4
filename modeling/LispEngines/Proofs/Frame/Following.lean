import LispEngines.Proofs.Store.Steps

/-!
# Frames on paired stores

A frame refers to lists and scopes like any value does, so it can be renamed like one.  In
the second of two paired stores the renamed frame does what the frame does in the first one:
every handler fails alike or asks for the same, and leaves a renamed frame behind
(`Frame.follows_dispatch`).
-/

namespace LispEngines

/-! ## Renamed frames -/

namespace Frame

variable {L : Link} {strict : Bool} {ρ ρ₁ : Renaming} {st st' st₁ : Store} {f g : Frame}

/-- The frame refers to nothing beyond the store. -/
structure Within (strict : Bool) (st : Store) (f : Frame) : Prop where
  expr : f.expr.Within strict st
  scope : f.scope.index < st.scopes.size
  result : ∀ v ∈ f.result, v.Within strict st
  incoming : ∀ v ∈ f.incoming, v.Within strict st
  body : ∀ v ∈ f.body, v.Within strict st
  callee : ∀ v ∈ f.callee, v.Within strict st
  pending : ∀ v ∈ f.pending, v.Within strict st
  args : ∀ v ∈ f.args, v.Within strict st

/-- The frame in the other store. -/
def rename (ρ : Renaming) (f : Frame) : Frame :=
  { f with
    expr := f.expr.rename ρ
    scope := ρ.scope f.scope
    result := f.result.map (Value.rename ρ)
    incoming := f.incoming.map (Value.rename ρ)
    body := f.body.map (Value.rename ρ)
    callee := f.callee.map (Value.rename ρ)
    pending := f.pending.map (Value.rename ρ)
    args := f.args.map (Value.rename ρ) }

/-- The second frame stands for the first one. -/
def StandsFor (L : Link) (ρ : Renaming) (st : Store) (f g : Frame) : Prop :=
  f.Within L.shares st ∧ g = f.rename ρ

theorem Within.mono (h : f.Within strict st) (hg : st.Grows st₁) : f.Within strict st₁ where
  expr := h.expr.mono hg
  scope := Nat.lt_of_lt_of_le h.scope hg.scopes
  result v hv := (h.result v hv).mono hg
  incoming v hv := (h.incoming v hv).mono hg
  body v hv := (h.body v hv).mono hg
  callee v hv := (h.callee v hv).mono hg
  pending v hv := (h.pending v hv).mono hg
  args v hv := (h.args v hv).mono hg

theorem within_start {x : Value} {s : ScopeRef} (hx : x.Within strict st)
    (hs : s.index < st.scopes.size) : ({ expr := x, scope := s } : Frame).Within strict st where
  expr := hx
  scope := hs
  result := nofun
  incoming := nofun
  body := nofun
  callee := nofun
  pending := nofun
  args := nofun

end Frame

namespace Renaming.Agree

variable {strict : Bool} {ρ ρ₁ : Renaming} {st : Store}

theorem rename_closure (h : ρ.Agree st ρ₁) {c : Closure} (hc : (Value.lambda c).Within strict st) :
    c.rename ρ₁ = c.rename ρ := by
  rw [Closure.rename, Closure.rename, h.list _ (hc.below.list _ rfl), h.scope _ (hc.below.scope _ rfl)]

theorem map_rename_option (h : ρ.Agree st ρ₁) {o : Option Value}
    (ho : ∀ v ∈ o, v.Within strict st) : o.map (Value.rename ρ₁) = o.map (Value.rename ρ) := by
  cases o with
  | none => rfl
  | some v => exact congrArg some (h.rename (ho v rfl))

theorem rename_frame (h : ρ.Agree st ρ₁) {f : Frame} (hf : f.Within strict st) :
    f.rename ρ₁ = f.rename ρ := by
  rw [Frame.rename, Frame.rename, h.rename hf.expr, h.scope _ hf.scope, h.map_rename hf.body,
    h.map_rename hf.pending, h.map_rename hf.args, h.map_rename_option hf.result,
    h.map_rename_option hf.incoming, h.map_rename_option hf.callee]

end Renaming.Agree

theorem Frame.StandsFor.mono {L : Link} {ρ ρ₁ : Renaming} {st st' st₁ st₁' : Store} {f g : Frame}
    (h : StandsFor L ρ st f g) (hx : Extends L ρ st st' ρ₁ st₁ st₁') : StandsFor L ρ₁ st₁ f g :=
  ⟨h.1.mono hx.grows, h.2.trans (hx.agree.rename_frame h.1).symm⟩

namespace Frame

/-- What a handler asks for refers to nothing beyond the store. -/
def Flow.Within (strict : Bool) (st : Store) : Flow → Prop
  | .spawn x s => x.Within strict st ∧ s.index < st.scopes.size
  | _ => True

/-- What is asked for in the other store. -/
def Flow.rename (ρ : Renaming) : Flow → Flow
  | .spawn x s => .spawn (x.rename ρ) (ρ.scope s)
  | flow => flow

/-- The second request stands for the first one. -/
def Flow.StandsFor (L : Link) (ρ : Renaming) (st : Store) (a b : Flow) : Prop :=
  a.Within L.shares st ∧ b = a.rename ρ

/-! ## Handlers on paired stores -/

namespace Handler

variable {α β γ δ : Type} {L : Link} {ρ : Renaming} {st st' : Store} {f g : Frame}
  {R : Renaming → Store → α → β → Prop} {S : Renaming → Store → γ → δ → Prop}

/-- The second handler does to the second frame what the first one does to the first. -/
def Follows (L : Link) (ρ : Renaming) (st st' : Store) (R : Renaming → Store → α → β → Prop)
    (x : Handler α) (y : Handler β) (f g : Frame) : Prop :=
  Step.Matched L (Extends L ρ st st') (Frame.StandsFor L) R (x f st) (y g st')

namespace Follows

theorem pure {x : α} {y : β} (h : Paired L ρ st st') (hf : f.StandsFor L ρ st g)
    (hr : R ρ st x y) : Follows L ρ st st' R (pure x) (pure y) f g :=
  .ok h (.refl L ρ st st') hf hr

theorem get {k : Frame → Handler γ} {k' : Frame → Handler δ}
    (h : Follows L ρ st st' S (k f) (k' g) f g) :
    Follows L ρ st st' S (get >>= k) (get >>= k') f g := h

theorem modify {u u' : Frame → Frame} {k : Unit → Handler γ} {k' : Unit → Handler δ}
    (h : Follows L ρ st st' S (k ()) (k' ()) (u f) (u' g)) :
    Follows L ρ st st' S (modify u >>= k) (modify u' >>= k') f g := h

theorem act {a : Action α} {b : Action β} (hf : f.StandsFor L ρ st g)
    (h : Action.Follows L ρ st st' R a b) :
    Follows L ρ st st' R (Step.act a) (Step.act b) f g :=
  Step.Matched.act h fun hx => ⟨hx, hf.mono hx⟩

/-- An action, and what is done with its result. -/
theorem act_bind {a : Action α} {b : Action β} {k : α → Handler γ} {k' : β → Handler δ}
    (hf : f.StandsFor L ρ st g) (h : Action.Follows L ρ st st' R a b)
    (hk : ∀ {ρ₁ : Renaming} {st₁ st₁' : Store} {x : α} {y : β}, Paired L ρ₁ st₁ st₁' →
      Extends L ρ st st' ρ₁ st₁ st₁' → f.StandsFor L ρ₁ st₁ g → R ρ₁ st₁ x y →
      Follows L ρ₁ st₁ st₁' S (k x) (k' y) f g) :
    Follows L ρ st st' S (Step.act a >>= k) (Step.act b >>= k') f g :=
  Step.Matched.act_bind h (fun hx => ⟨hx, hf.mono hx⟩) fun hp hx hr =>
    (hk hp hx (hf.mono hx) hr).imp hx.trans

theorem finish {v w : Value} (h : Paired L ρ st st') (hf : f.StandsFor L ρ st g)
    (hv : v.StandsFor L ρ st w) :
    Follows L ρ st st' (Flow.StandsFor L) (finish v) (finish w) f g := by
  obtain ⟨hf, rfl⟩ := hf
  obtain ⟨hv, rfl⟩ := hv
  exact modify (pure h ⟨{ hf with result := fun _ hu => by cases hu; exact hv }, rfl⟩ ⟨trivial, rfl⟩)

/-- The value that an action finds ends the frame. -/
theorem finish_act {a b : Action Value} (hf : f.StandsFor L ρ st g)
    (ha : Action.Follows L ρ st st' (Value.StandsFor L) a b) :
    Follows L ρ st st' (Flow.StandsFor L) (do Handler.finish (← Step.act a))
      (do Handler.finish (← Step.act b)) f g :=
  act_bind hf ha fun h₁ _ hf hv => finish h₁ hf hv

theorem goOn (h : Paired L ρ st st') (hf : f.Within L.shares st) (stage : Stage) :
    Follows L ρ st st' (Flow.StandsFor L) (goOn stage) (goOn stage) f (f.rename ρ) :=
  modify (pure h ⟨{ hf with }, rfl⟩ ⟨trivial, rfl⟩)

theorem spawn (h : Paired L ρ st st') (hf : f.Within L.shares st) {x : Value}
    (hx : x.Within L.shares st) :
    Follows L ρ st st' (Flow.StandsFor L) (spawn x) (spawn (x.rename ρ)) f (f.rename ρ) :=
  get (pure h ⟨hf, rfl⟩ ⟨⟨hx, hf.scope⟩, rfl⟩)

theorem restart (h : Paired L ρ st st') (hf : f.Within L.shares st) {x : Value}
    (hx : x.Within L.shares st) {t : Option ScopeRef} (ht : ∀ s ∈ t, s.index < st.scopes.size) :
    Follows L ρ st st' (Flow.StandsFor L) (restart x t) (restart (x.rename ρ) (t.map ρ.scope)) f
      (f.rename ρ) := by
  refine modify (pure h ⟨{ hf with
    expr := hx
    scope := ?_
    callee := nofun
    args := nofun
    pending := nofun
    body := nofun }, ?_⟩ ⟨trivial, rfl⟩)
  · cases t with
    | none => exact hf.scope
    | some s => exact ht s rfl
  · cases t <;> rfl

theorem orNil (h : Paired L ρ st st') (hf : f.Within L.shares st) {o : Option Value}
    (ho : ∀ v ∈ o, v.Within L.shares st) :
    Follows L ρ st st' (Value.StandsFor L) (orNil o) (orNil (o.map (Value.rename ρ))) f
      (f.rename ρ) := by
  cases o with
  | none => exact act ⟨hf, rfl⟩ (.newNil h)
  | some v => exact pure h ⟨hf, rfl⟩ ⟨ho v rfl, rfl⟩

theorem bind {x : Handler α} {y : Handler β} {k : α → Handler γ} {k' : β → Handler δ}
    (h : Follows L ρ st st' R x y f g)
    (hk : ∀ {ρ₁ : Renaming} {st₁ st₁' : Store} {f₁ : Frame} {v : α} {w : β}, Paired L ρ₁ st₁ st₁' →
      f₁.Within L.shares st₁ → R ρ₁ st₁ v w →
      Follows L ρ₁ st₁ st₁' S (k v) (k' w) f₁ (f₁.rename ρ₁)) :
    Follows L ρ st st' S (x >>= k) (y >>= k') f g :=
  Step.Matched.bind h id fun h₁ hx hf hr => by
    obtain ⟨hf, rfl⟩ := hf
    exact (hk h₁ hf hr).imp hx.trans

theorem takeIncoming (h : Paired L ρ st st') (hf : f.Within L.shares st) :
    Follows L ρ st st' (Value.StandsFor L) takeIncoming takeIncoming f (f.rename ρ) :=
  get (modify (orNil (f := { f with wait := .ready, incoming := none }) h
    { hf with incoming := nofun } hf.incoming))

/-- Reading the elements of the expression changes nothing. -/
theorem items (h : Paired L ρ st st') (hf : f.Within L.shares st)
    {k : List Value → Handler γ} {k' : List Value → Handler δ}
    (hk : (∀ v ∈ f.expr.items st, v.Within L.shares st) →
      Follows L ρ st st' S (k (f.expr.items st))
        (k' ((f.expr.items st).map (Value.rename ρ))) f (f.rename ρ)) :
    Follows L ρ st st' S (items >>= k) (items >>= k') f (f.rename ρ) := by
  have hk := hk fun _ hv => h.sealed.within_items hv
  unfold Follows at *
  rw [items_bind, items_bind]
  show Step.Matched L _ _ S _ (k' ((f.expr.rename ρ).items st') _ st')
  rwa [h.items_rename hf.expr]

end Follows

/-! ## The handlers -/

theorem follows_enter (h : Paired L ρ st st') (hf : f.Within L.shares st) :
    Follows L ρ st st' (Flow.StandsFor L) enter enter f (f.rename ρ) := by
  refine .get ?_
  have he : (f.rename ρ).expr = f.expr.rename ρ := rfl
  have hx := hf.expr
  rw [he]
  cases hfx : f.expr with
  | symbol name => exact .finish_act ⟨hf, rfl⟩ (.lookup h name hf.scope)
  | list r =>
    refine .items h hf fun _ => ?_
    rw [List.isEmpty_map]
    split
    · exact .finish_act ⟨hf, rfl⟩ (.newNil h)
    · exact .goOn h hf .builtin
  | _ =>
    rw [hfx] at hx
    exact .finish h ⟨hf, rfl⟩ ⟨hx, rfl⟩

/-- A definition or an assignment is looked over before its value is evaluated. -/
theorem follows_binding (h : Paired L ρ st st') (hf : f.Within L.shares st) (form : SpecialForm)
    {xs : List Value} (hxs : ∀ v ∈ xs, v.Within L.shares st) :
    Follows L ρ st st' (Flow.StandsFor L)
      (do
        discard (Step.act (form.boundName xs))
        let v ← Step.act (form.operand xs 2)
        modify fun f : Frame => { f with stage := .define }
        Handler.spawn v)
      (do
        discard (Step.act (form.boundName (xs.map (Value.rename ρ))))
        let v ← Step.act (form.operand (xs.map (Value.rename ρ)) 2)
        modify fun f : Frame => { f with stage := .define }
        Handler.spawn v) f (f.rename ρ) := by
  rw [discard_bind, discard_bind]
  refine .act_bind ⟨hf, rfl⟩ (SpecialForm.follows_boundName h form hxs) fun h₁ hx hf₁ _ => ?_
  rw [← hx.agree.map_rename hxs]
  have hxs₁ := fun v hv => (hxs v hv).mono hx.grows
  refine .act_bind hf₁ (SpecialForm.follows_operand h₁ form hxs₁ 2) fun h₂ hx₂ hf₂ hv => ?_
  obtain ⟨hv, rfl⟩ := hv
  rw [hf₂.2]
  exact .modify (.spawn (f := { f with stage := .define }) h₂ { hf₂.1 with } hv)

theorem follows_builtin (h : Paired L ρ st st') (hf : f.Within L.shares st) :
    Follows L ρ st st' (Flow.StandsFor L) builtin builtin f (f.rename ρ) := by
  refine .get (.items h hf fun hxs => ?_)
  rw [SpecialForm.ofItems?_rename]
  have hs : f.StandsFor L ρ st (f.rename ρ) := ⟨hf, rfl⟩
  rcases SpecialForm.ofItems? (f.expr.items st) with _ | (_ | _ | _ | _ | _ | _ | _) <;> dsimp only
  case none => exact .goOn h hf .operator
  case some.quote => exact .finish_act hs (SpecialForm.follows_operand h .quote hxs 1)
  case some.lambda => exact .finish_act hs (SpecialForm.follows_close h .lambda hf.expr hf.scope)
  case some.expander =>
    exact .finish_act hs (SpecialForm.follows_close h .expander hf.expr hf.scope)
  case some.branch =>
    refine .act_bind hs (SpecialForm.follows_operand h .branch hxs 1) fun h₁ _ hf₁ hv => ?_
    obtain ⟨hv, rfl⟩ := hv
    rw [hf₁.2]
    exact .modify (.spawn (f := { f with stage := .branchTest }) h₁ { hf₁.1 with } hv)
  case some.define => exact follows_binding h hf .define hxs
  case some.assign => exact follows_binding h hf .assign hxs
  case some.sequence =>
    rw [← List.map_drop]
    exact .modify (.goOn (f := { f with body := (f.expr.items st).drop 1 }) h
      { hf with body := fun v hv => hxs v (List.mem_of_mem_drop hv) } .sequence)

theorem follows_sequence (h : Paired L ρ st st') (hf : f.Within L.shares st) :
    Follows L ρ st st' (Flow.StandsFor L) Handler.sequence Handler.sequence f (f.rename ρ) := by
  refine .get ?_
  have he : (f.rename ρ).body = f.body.map (Value.rename ρ) := rfl
  have hb := hf.body
  rw [he]
  rcases hfb : f.body with _ | ⟨e, _ | ⟨e', rest⟩⟩ <;> rw [hfb] at hb
  · refine .get (.modify (.bind (.orNil (f := { f with result := none }) h
      { hf with result := nofun } hf.result) fun h₁ hf₁ hv => .finish h₁ ⟨hf₁, rfl⟩ hv))
  · exact .modify (.restart (f := { f with body := [] }) (t := none) h { hf with body := nofun }
      (hb e (List.mem_cons_self ..)) nofun)
  · exact .modify (.spawn (f := { f with body := e' :: rest }) h
      { hf with body := fun v hv => hb v (List.mem_cons_of_mem _ hv) } (hb e (List.mem_cons_self ..)))

theorem follows_operator (h : Paired L ρ st st') (hf : f.Within L.shares st) :
    Follows L ρ st st' (Flow.StandsFor L) operator operator f (f.rename ρ) := by
  refine .items h hf fun hxs => ?_
  rcases hi : f.expr.items st with _ | ⟨head, rest⟩ <;> rw [hi] at hxs
  · refine .act_bind ⟨hf, rfl⟩ (.newNil h) fun h₁ _ hf₁ hv => ?_
    obtain ⟨hv, rfl⟩ := hv
    rw [hf₁.2]
    exact .spawn h₁ hf₁.1 hv
  · exact .spawn h hf (hxs head (List.mem_cons_self ..))

theorem follows_operands (h : Paired L ρ st st') (hf : f.Within L.shares st) :
    Follows L ρ st st' (Flow.StandsFor L) operands operands f (f.rename ρ) := by
  refine .get ?_
  have he : (f.rename ρ).pending = f.pending.map (Value.rename ρ) := rfl
  have hp := hf.pending
  rw [he]
  rcases hfp : f.pending with _ | ⟨x, rest⟩ <;> rw [hfp] at hp
  · exact .goOn h hf .apply
  · exact .modify (.spawn (f := { f with pending := rest }) h
      { hf with pending := fun v hv => hp v (List.mem_cons_of_mem _ hv) }
      (hp x (List.mem_cons_self ..)))

/-- The scope of a call. -/
theorem follows_callScope (h : Paired L ρ st st') {c : Closure} {args : List Value}
    (hl : c.form.index < st.lists.size) (hs : c.scope.index < st.scopes.size)
    (ha : ∀ v ∈ args, v.Within L.shares st) :
    Action.Follows L ρ st st' ScopeRef.StandsFor (Classic.callScope c args)
      (Classic.callScope (c.rename ρ) (args.map (Value.rename ρ))) := by
  refine (Closure.follows_part h hl 1).bind fun h₁ hx hv => ?_
  obtain ⟨hv, rfl⟩ := hv
  have hr : (c.rename ρ).scope = ρ.scope c.scope := rfl
  rw [hr, ← hx.agree.map_rename ha, ← hx.agree.scope _ hs]
  exact .bindParameters h₁ hv (fun v hm => (ha v hm).mono hx.grows)
    (Nat.lt_of_lt_of_le hs hx.grows.scopes)

/-- What a call does once the frame has given its arguments away. -/
def applied (callee : Option Value) (args : List Value) : Handler Flow :=
  match callee with
  | some (.native p) => do finish (← Step.act (p.call args))
  | some (.scopeNative p) => do finish (← Step.act (p.call args (← get).scope))
  | some (.lambda c) => do
    let t ← Step.act (Classic.callScope c args)
    restart (← Step.act c.body) (some t)
  | some (.expander c) => do
    let t ← Step.act (Classic.callScope c args)
    modify fun f => { f with stage := .expand }
    return .spawn (← Step.act c.body) t
  | other => do
    let v ← orNil other
    Step.act (do throw (.notCallable (v.shown (← get))))

theorem apply_eq (f : Frame) (st : Store) :
    Handler.apply f st = applied f.callee f.args { f with args := [] } st := rfl

/-- What cannot be called is named. -/
theorem follows_notCallable (h : Paired L ρ st st') (hf : f.Within L.shares st) {o : Option Value}
    (ho : ∀ v ∈ o, v.Within L.shares st) :
    Follows L ρ st st' (Flow.StandsFor L)
      (do
        let v ← Handler.orNil o
        Step.act (do throw (.notCallable (v.shown (← get)))))
      (do
        let v ← Handler.orNil (o.map (Value.rename ρ))
        Step.act (do throw (.notCallable (v.shown (← get))))) f (f.rename ρ) := by
  refine .bind (.orNil h hf ho) fun h₁ hf₁ hv => ?_
  obtain ⟨hv, rfl⟩ := hv
  exact .act ⟨hf₁, rfl⟩ (.get (.throw h₁ (by rw [h₁.shown_rename hv])))

theorem follows_applied (h : Paired L ρ st st') (hf : f.Within L.shares st) {callee : Option Value}
    {args : List Value} (hc : ∀ v ∈ callee, v.Within L.shares st)
    (ha : ∀ v ∈ args, v.Within L.shares st) :
    Follows L ρ st st' (Flow.StandsFor L) (applied callee args)
      (applied (callee.map (Value.rename ρ)) (args.map (Value.rename ρ))) f (f.rename ρ) := by
  have hs : f.StandsFor L ρ st (f.rename ρ) := ⟨hf, rfl⟩
  rcases callee with _ | v
  case none => exact follows_notCallable h hf nofun
  case some =>
    have hv := hc v rfl
    cases v with
    | native p => exact .finish_act hs (p.follows_call h ha)
    | scopeNative p => exact .get (.finish_act hs (p.follows_call h _ _ hf.scope))
    | lambda c =>
      have hl := hv.below.list _ rfl
      refine .act_bind hs (follows_callScope h hl (hv.below.scope _ rfl) ha)
        fun {_ _ _ t _} h₁ hx hf₁ ht => ?_
      obtain ⟨ht, rfl⟩ := ht
      rw [← hx.agree.rename_closure hv]
      refine .act_bind hf₁
        (Closure.follows_part h₁ (Nat.lt_of_lt_of_le hl hx.grows.lists.size_le) 2)
        fun h₂ hx₂ hf₂ hw => ?_
      obtain ⟨hw, rfl⟩ := hw
      rw [hf₂.2, ← hx₂.agree.scope t ht]
      exact .restart (t := some t) h₂ hf₂.1 hw fun s hs => by
        cases hs
        exact Nat.lt_of_lt_of_le ht hx₂.grows.scopes
    | expander c =>
      have hl := hv.below.list _ rfl
      refine .act_bind hs (follows_callScope h hl (hv.below.scope _ rfl) ha)
        fun {_ _ _ t _} h₁ hx hf₁ ht => ?_
      obtain ⟨ht, rfl⟩ := ht
      rw [← hx.agree.rename_closure (Paired.within_lambda_of_expander hv)]
      refine .modify (.act_bind (f := { f with stage := .expand }) ⟨{ hf₁.1 with }, by rw [hf₁.2]; rfl⟩
        (Closure.follows_part h₁ (Nat.lt_of_lt_of_le hl hx.grows.lists.size_le) 2)
        fun h₂ hx₂ hf₂ hw => ?_)
      obtain ⟨hw, rfl⟩ := hw
      rw [← hx₂.agree.scope t ht]
      exact .pure h₂ hf₂ ⟨⟨hw, Nat.lt_of_lt_of_le ht hx₂.grows.scopes⟩, rfl⟩
    | _ => exact follows_notCallable h hf hc

theorem follows_apply (h : Paired L ρ st st') (hf : f.Within L.shares st) :
    Follows L ρ st st' (Flow.StandsFor L) apply apply f (f.rename ρ) :=
  follows_applied (f := { f with args := [] }) h { hf with args := nofun } hf.callee hf.args

/-! ### Handlers that take a value -/

theorem follows_sequenceEnded (h : Paired L ρ st st') (hf : f.Within L.shares st) :
    Follows L ρ st st' (Flow.StandsFor L) sequenceEnded sequenceEnded f (f.rename ρ) := by
  refine .bind (.takeIncoming h hf) fun {ρ₁ st₁ st₁' f₁ v _} h₁ hf₁ hv => ?_
  obtain ⟨hv, rfl⟩ := hv
  exact .modify (.pure (f := { f₁ with result := some v }) h₁
    ⟨{ hf₁ with result := fun _ hu => by cases hu; exact hv }, rfl⟩ ⟨trivial, rfl⟩)

theorem follows_branchEnded (h : Paired L ρ st st') (hf : f.Within L.shares st) :
    Follows L ρ st st' (Flow.StandsFor L) branchEnded branchEnded f (f.rename ρ) := by
  refine .bind (.takeIncoming h hf) fun h₁ hf₁ hv => ?_
  obtain ⟨hv, rfl⟩ := hv
  refine .items h₁ hf₁ fun hxs => ?_
  refine .act_bind ⟨hf₁, rfl⟩ (SpecialForm.follows_selected h₁ hxs _) fun h₂ _ hf₂ hx => ?_
  obtain ⟨hx, rfl⟩ := hx
  rw [hf₂.2]
  exact .restart (t := none) h₂ hf₂.1 hx nofun

theorem follows_defineEnded (h : Paired L ρ st st') (hf : f.Within L.shares st) :
    Follows L ρ st st' (Flow.StandsFor L) defineEnded defineEnded f (f.rename ρ) := by
  refine .bind (.takeIncoming h hf) fun {_ _ _ f₁ _ _} h₁ hf₁ hv => ?_
  obtain ⟨hv, rfl⟩ := hv
  refine .items h₁ hf₁ fun hxs => ?_
  rw [SpecialForm.ofItems?_rename]
  refine .act_bind ⟨hf₁, rfl⟩ (SpecialForm.follows_boundName h₁ _ hxs) fun h₂ hx hf₂ hn => ?_
  subst hn
  rw [hf₂.2, ← hx.agree.rename hv]
  exact .get (.finish_act ⟨hf₂.1, rfl⟩
    (SpecialForm.follows_bind h₂ _ _ (hv.mono hx.grows) hf₂.1.scope))

theorem follows_operatorEnded (h : Paired L ρ st st') (hf : f.Within L.shares st) :
    Follows L ρ st st' (Flow.StandsFor L) operatorEnded operatorEnded f (f.rename ρ) := by
  refine .bind (.takeIncoming h hf) fun {_ _ _ f₁ v _} h₁ hf₁ hv => ?_
  obtain ⟨hv, rfl⟩ := hv
  refine .items h₁ hf₁ fun hxs => ?_
  rw [← List.map_drop]
  have hr : ∀ w ∈ (f₁.expr.items _).drop 1, w.Within L.shares _ := fun w hw =>
    hxs w (List.mem_of_mem_drop hw)
  have hc : ∀ w ∈ some v, w.Within L.shares _ := fun w hw => by cases hw; exact hv
  cases v with
  | expander c => exact .modify (.pure h₁ ⟨{ hf₁ with callee := hc, args := hr }, rfl⟩ ⟨trivial, rfl⟩)
  | _ =>
    exact .modify (.pure h₁ ⟨{ hf₁ with callee := hc, pending := hr, args := nofun }, rfl⟩
      ⟨trivial, rfl⟩)

theorem follows_operandEnded (h : Paired L ρ st st') (hf : f.Within L.shares st) :
    Follows L ρ st st' (Flow.StandsFor L) operandEnded operandEnded f (f.rename ρ) := by
  refine .bind (.takeIncoming h hf) fun {_ _ _ f₁ v _} h₁ hf₁ hv => ?_
  obtain ⟨hv, rfl⟩ := hv
  refine .modify (.pure (f := { f₁ with args := f₁.args ++ [v] }) h₁
    ⟨{ hf₁ with args := fun w hw => ?_ }, ?_⟩ ⟨trivial, rfl⟩)
  · rcases List.mem_append.mp hw with hw | hw
    · exact hf₁.args w hw
    · rw [List.mem_singleton.mp hw]
      exact hv
  · rw [Frame.rename, Frame.rename, List.map_append]
    rfl

theorem follows_expansionEnded (h : Paired L ρ st st') (hf : f.Within L.shares st) :
    Follows L ρ st st' (Flow.StandsFor L) expansionEnded expansionEnded f (f.rename ρ) := by
  refine .bind (.takeIncoming h hf) fun h₁ hf₁ hv => ?_
  obtain ⟨hv, rfl⟩ := hv
  exact .restart (t := none) h₁ hf₁ hv nofun

/-- In paired stores, a frame and the renamed frame do the same. -/
theorem follows_dispatch (h : Paired L ρ st st') (hf : f.Within L.shares st) :
    Follows L ρ st st' (Flow.StandsFor L) dispatch dispatch f (f.rename ρ) := by
  refine .get ?_
  have hs : (f.rename ρ).stage = f.stage := rfl
  have hw : (f.rename ρ).wait = f.wait := rfl
  have hp : (f.rename ρ).phase = f.phase := rfl
  rw [hs, hw, hp]
  split
  · exact follows_enter h hf
  · exact follows_builtin h hf
  · exact follows_sequence h hf
  · exact follows_sequenceEnded h hf
  · exact follows_branchEnded h hf
  · exact follows_defineEnded h hf
  · exact follows_operator h hf
  · exact follows_operatorEnded h hf
  · exact follows_operands h hf
  · exact follows_operandEnded h hf
  · exact follows_apply h hf
  · exact follows_expansionEnded h hf
  · exact .error h (.refl L ρ st st') ⟨hf, rfl⟩

end Handler

end Frame

end LispEngines
