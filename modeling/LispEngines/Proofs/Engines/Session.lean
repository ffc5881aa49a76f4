import LispEngines.Proofs.Engines.ProgramForm
import LispEngines.Proofs.Engines.Upkeep

/-!
# Sessions

Much of what is said about the engines is said of a tidy store, and of an expression and a scope
within it.  Here is where such stores come from.  A host begins with an empty store, builds
expressions and scopes in it, and has them evaluated; what comes of that it can use again.  Whatever
it does, the store is tidy and what it has at hand is within the store (`Session.tidy`).

To run a source is such a thing, form after form (`Session.source`).
-/

namespace LispEngines

namespace Engine

variable {engine engine₁ : Engine} {st : Store}

theorem Installed.of_fresh (he : engine.Installed st) (h : engine₁.fresh = engine.fresh) :
    engine₁.Installed st := by
  cases engine <;> cases engine₁ <;> cases h <;> exact he

theorem strategy_of_fresh (h : engine₁.fresh = engine.fresh) :
    engine₁.strategy = engine.strategy := by
  cases engine <;> cases engine₁ <;> cases h <;> rfl

end Engine

/-- The stores that a host comes to, and the values at its hand.  A host builds expressions, makes
lists and scopes, looks into lists, binds names, has programs assembled, takes the output, and has
what is at hand evaluated, by any of the engines and as often as it likes. -/
inductive Session : Store → List Value → Prop
  | start (sink : Sink) : Session { sink } []
  | form {st : Store} {vs : List Value} (h : Session st vs) (f : Form) :
      Session (f.build st).2 ((f.build st).1 :: vs)
  | list {st : Store} {vs items : List Value} (h : Session st vs) (hi : ∀ v ∈ items, v ∈ vs) :
      Session (st.newList items).2 (.list (st.newList items).1 :: vs)
  | element {st : Store} {vs : List Value} {v w : Value} (h : Session st vs) (hv : v ∈ vs)
      (hw : w ∈ v.items st) : Session st (w :: vs)
  | standardScope {st : Store} {vs : List Value} (h : Session st vs) :
      Session st.standardScope.2 (.scope st.standardScope.1 :: vs)
  | innerScope {st : Store} {vs : List Value} {s : ScopeRef} (h : Session st vs)
      (hs : .scope s ∈ vs) :
      Session (st.newScope (some s)).2 (.scope (st.newScope (some s)).1 :: vs)
  | define {st : Store} {vs : List Value} {v : Value} (h : Session st vs) (s : ScopeRef)
      (key : String) (hv : v ∈ vs) : Session (st.define s key v) vs
  | assemble {st : Store} {vs : List Value} (h : Session st vs) (source entry : String) :
      Session (Assembler.assemble source entry st).2 vs
  | takeOutput {st : Store} {vs : List Value} (h : Session st vs) : Session st.takeOutput.2 vs
  | value {st st' : Store} {vs : List Value} {x v : Value} {s : ScopeRef} {engine : Engine}
      (h : Session st vs) (hx : x ∈ vs) (hs : .scope s ∈ vs) (he : engine.Installed st)
      (hends : engine.Ends x s st (.ok v) st')
      (hfits : engine.strategy = .machine → st'.Fits) : Session st' (v :: vs)
  | failure {st st' : Store} {vs : List Value} {x : Value} {s : ScopeRef} {engine : Engine}
      {e : Failure} (h : Session st vs) (hx : x ∈ vs) (hs : .scope s ∈ vs)
      (he : engine.Installed st) (hends : engine.Ends x s st (.error e) st')
      (hfits : engine.strategy = .machine → st'.Fits) : Session st' vs

namespace Session

variable {st st' : Store} {vs : List Value} {x v : Value} {s : ScopeRef}

/-- The values at hand are within the store when it has grown. -/
theorem within_mono (hvs : ∀ v ∈ vs, v.Within true st) (hg : st.Grows st') :
    ∀ v ∈ vs, v.Within true st' :=
  fun v hv => (hvs v hv).mono hg

/-- **Whatever a host does, its store is tidy**, and what it has at hand is within the store. -/
theorem tidy (h : Session st vs) : st.Tidy true ∧ ∀ v ∈ vs, v.Within true st := by
  induction h with
  | start sink => exact ⟨.empty sink, List.forall_mem_nil _⟩
  | form _ f ih =>
    obtain ⟨ht, hvs⟩ := ih
    obtain ⟨ht', hg, ρ, hv, -⟩ := (f.follows_build (.refl ht rfl)).tidy rfl
    exact ⟨ht', List.forall_mem_cons.mpr ⟨hv, within_mono hvs hg⟩⟩
  | list _ hi ih =>
    obtain ⟨ht, hvs⟩ := ih
    exact ⟨ht.newList fun v hv => hvs v (hi v hv), List.forall_mem_cons.mpr
      ⟨Value.within_list (by simp [Store.newList]), within_mono hvs (Store.grows_newList _)⟩⟩
  | element _ hv hw ih =>
    obtain ⟨ht, hvs⟩ := ih
    exact ⟨ht, List.forall_mem_cons.mpr ⟨ht.sealed.within_items hw, hvs⟩⟩
  | standardScope _ ih =>
    obtain ⟨ht, hvs⟩ := ih
    obtain ⟨ht', hg, ρ, hs, -⟩ := (Store.follows_standardScope (.refl ht rfl)).tidy rfl
    exact ⟨ht', List.forall_mem_cons.mpr ⟨Value.within_scope hs, within_mono hvs hg⟩⟩
  | innerScope _ hs ih =>
    obtain ⟨ht, hvs⟩ := ih
    have hparent := (hvs _ hs).below.scope _ rfl
    refine ⟨ht.newScope fun p hp => ?_, List.forall_mem_cons.mpr
      ⟨Value.within_scope (by simp [Store.newScope]), within_mono hvs (Store.grows_newScope _)⟩⟩
    cases hp
    exact hparent
  | define _ s key hv ih =>
    obtain ⟨ht, hvs⟩ := ih
    exact ⟨(ht.sealed.define s key (hvs _ hv)).tidy ht.acyclic,
      within_mono hvs (Store.grows_define s key _)⟩
  | assemble _ source entry ih =>
    obtain ⟨ht, hvs⟩ := ih
    rw [Engine.assemble_store]
    exact ⟨ht.newList (List.forall_mem_nil _), within_mono hvs (Store.grows_newList [])⟩
  | takeOutput _ ih =>
    obtain ⟨ht, hvs⟩ := ih
    exact ⟨(ht.sealed.withSink _).tidy ht.acyclic, within_mono hvs (Store.grows_withSink _)⟩
  | value _ hx hs he hends hfits ih =>
    obtain ⟨ht, hvs⟩ := ih
    obtain ⟨ht', hg, hv⟩ := hends.leaves he ht (hvs _ hx) ((hvs _ hs).below.scope _ rfl) hfits
    exact ⟨ht', List.forall_mem_cons.mpr ⟨hv _ rfl, within_mono hvs hg⟩⟩
  | failure _ hx hs he hends hfits ih =>
    obtain ⟨ht, hvs⟩ := ih
    obtain ⟨ht', hg, -⟩ := hends.leaves he ht (hvs _ hx) ((hvs _ hs).below.scope _ rfl) hfits
    exact ⟨ht', within_mono hvs hg⟩

/-! ## Sources -/

variable {base : Store} {engine engine₁ : Engine} {fuel : Nat} {r : Except Failure Value}

/-- A machine that does not leave a list too long for it to count, after any number of forms, has
not been given one. -/
theorem fits_of_forms (forms : List Form) : ∀ {engine : Engine} {st : Store} {v : Value},
    engine.Installed base →
    Engine.evaluateForms fuel s v forms engine st = some ((r, engine₁), st') →
    (engine.strategy = .machine → st'.Fits) → engine.strategy = .machine → st.Fits := by
  induction forms with
  | nil =>
    intro engine st v he h hfits
    cases h
    exact hfits
  | cons f fs ih =>
    intro engine st v he h hfits
    rw [Engine.evaluateForms_cons] at h
    obtain ⟨⟨⟨r₁, engine₂⟩, st₁⟩, hx, h⟩ := Option.bind_eq_some_iff.mp h
    have hfresh := Engine.fresh_of_evaluate hx
    have hmid : engine.strategy = .machine → st₁.Fits := by
      rcases r₁ with e | w
      · cases h
        exact hfits
      · rw [← Engine.strategy_of_fresh hfresh] at hfits ⊢
        exact ih (he.of_fresh hfresh) h hfits
    have hends : engine.Ends (f.build st).1 s (f.build st).2 r₁ st₁ := ⟨fuel, engine₂, hx⟩
    exact fun hm => (hends.fits he hmid hm).of_keepsLists (Reader.builds f st).adds.toKeepsLists

/-- Forms are built and evaluated one after the other. -/
theorem forms (fs : List Form) : ∀ {st : Store} {vs : List Value} {engine : Engine} {v : Value},
    Session st vs → .scope s ∈ vs → v ∈ vs → engine.Installed st →
    Engine.evaluateForms fuel s v fs engine st = some ((r, engine₁), st') →
    (engine.strategy = .machine → st'.Fits) →
    ∃ vs', Session st' vs' ∧ vs ⊆ vs' ∧ (∀ w, r = .ok w → w ∈ vs') ∧ engine₁.Installed st' := by
  induction fs with
  | nil =>
    intro st vs engine v h hs hv he hev hfits
    cases hev
    exact ⟨vs, h, List.Subset.refl vs, fun w hw => by cases hw; exact hv, he⟩
  | cons f fs ih =>
    intro st vs engine v h hs hv he hev hfits
    rw [Engine.evaluateForms_cons] at hev
    obtain ⟨⟨⟨r₁, engine₂⟩, st₁⟩, hx, hev⟩ := Option.bind_eq_some_iff.mp hev
    have hends : engine.Ends (f.build st).1 s (f.build st).2 r₁ st₁ := ⟨fuel, engine₂, hx⟩
    have hfresh := Engine.fresh_of_evaluate hx
    have hmid : engine.strategy = .machine → st₁.Fits := by
      rcases r₁ with e | w
      · cases hev
        exact hfits
      · rw [← Engine.strategy_of_fresh hfresh] at hfits ⊢
        exact fits_of_forms fs (he.of_fresh hfresh) hev hfits
    have hbuilt := h.form f
    have hadds := (Reader.builds f st).adds
    have he' := he.mono ⟨hadds.toKeepsLists, Nat.le_of_eq (congrArg Array.size hadds.scopes_eq.symm)⟩
    have hx' : (f.build st).1 ∈ (f.build st).1 :: vs := List.mem_cons_self
    have hs' : .scope s ∈ (f.build st).1 :: vs := List.mem_cons_of_mem _ hs
    obtain ⟨ht, hvs⟩ := hbuilt.tidy
    have hleaves := hends.leaves he' ht (hvs _ hx') ((hvs _ hs').below.scope _ rfl) hmid
    have he₂ := (he'.mono hleaves.grows).of_fresh hfresh
    rcases r₁ with e | w
    · cases hev
      exact ⟨_, hbuilt.failure hx' hs' he' hends hmid, List.subset_cons_self .., nofun, he₂⟩
    · rw [← Engine.strategy_of_fresh hfresh] at hfits
      obtain ⟨vs', h', hsub, hlast, he₁⟩ := ih (hbuilt.value hx' hs' he' hends hmid)
        (List.mem_cons_of_mem _ hs') List.mem_cons_self he₂ hev hfits
      exact ⟨vs', h', fun v hv => hsub (List.mem_cons_of_mem _ (List.mem_cons_of_mem _ hv)), hlast,
        he₁⟩

/-- **A source goes on with a session**: what was at hand still is, and so is the value of the
source. -/
theorem source {source : String} {vs : List Value} {out : Except Engine.SourceError Value}
    (h : Session st vs) (hs : .scope s ∈ vs) (he : engine.Installed st)
    (hev : Engine.evaluateSource fuel source s engine st = some ((out, engine₁), st'))
    (hfits : engine.strategy = .machine → st'.Fits) :
    ∃ vs', Session st' vs' ∧ vs ⊆ vs' ∧ (∀ w, out = .ok w → w ∈ vs') ∧ engine₁.Installed st' := by
  rcases hread : Form.ofSource source with e | fs
  · rw [Engine.evaluateSource, hread] at hev
    cases hev
    exact ⟨vs, h, List.Subset.refl vs, fun w hw => (by cases hw), he⟩
  · obtain ⟨r, rfl, hforms⟩ := Engine.evaluateForms_of_source hread hev
    have hnil := h.list (List.forall_mem_nil _)
    obtain ⟨vs', h', hsub, hlast, he₁⟩ := hnil.forms fs (List.mem_cons_of_mem _ hs)
      List.mem_cons_self (he.mono (Store.grows_newList [])) hforms hfits
    refine ⟨vs', h', fun v hv => hsub (List.mem_cons_of_mem _ hv), fun w hw => ?_, he₁⟩
    rcases r with e | v <;> cases hw
    exact hlast _ rfl

end Session

end LispEngines
