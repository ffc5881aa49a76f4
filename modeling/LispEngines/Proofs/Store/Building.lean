import LispEngines.Proofs.Store.Following
import LispEngines.Reader.Form

/-!
# Building in paired stores

A form gets its place in a store, and a standard scope is made there.  Neither asks what else is
in the store, so in paired stores both come to the same (`Form.follows_build`,
`Store.follows_standardScope`).
-/

namespace LispEngines

open LispEngines.Action (Follows)

variable {L : Link} {ρ : Renaming} {st st' : Store}

/-- Work on a store that cannot fail, as an action. -/
def Action.always {α : Type} (a : StateM Store α) : Action α := fun st => (.ok (a st).1, (a st).2)

/-- The second values stand for the first ones. -/
def Value.AllStandFor (L : Link) (ρ : Renaming) (st : Store) (vs ws : List Value) : Prop :=
  (∀ v ∈ vs, v.Within L.shares st) ∧ ws = vs.map (Value.rename ρ)

/-! ## Forms -/

namespace Form

open LispEngines.Action (always)

theorem always_build_list (items : List Form) :
    always (build (.list items)) = always (buildAll items) >>= Action.newList := by
  rw [build]
  rfl

theorem always_buildAll_cons (f : Form) (fs : List Form) : always (buildAll (f :: fs)) =
    always (build f) >>= fun v => always (buildAll fs) >>= fun vs => pure (v :: vs) := by
  rw [buildAll]
  rfl

mutual

/-- A form is built alike in paired stores. -/
theorem follows_build : ∀ (f : Form) {ρ : Renaming} {st st' : Store}, Paired L ρ st st' →
    Follows L ρ st st' (Value.StandsFor L) (always f.build) (always f.build)
  | .number n, _, _, _, h => by rw [build]; exact .pure h (Value.standsFor_self rfl rfl)
  | .symbol s, _, _, _, h => by rw [build]; exact .pure h (Value.standsFor_self rfl rfl)
  | .text s, _, _, _, h => by rw [build]; exact .pure h (Value.standsFor_self rfl rfl)
  | .list items, _, _, _, h => by
    rw [always_build_list]
    refine (follows_buildAll items h).bind fun h₁ _ hvs => ?_
    obtain ⟨hvs, rfl⟩ := hvs
    exact .newList h₁ hvs

theorem follows_buildAll : ∀ (fs : List Form) {ρ : Renaming} {st st' : Store}, Paired L ρ st st' →
    Follows L ρ st st' (Value.AllStandFor L) (always (buildAll fs)) (always (buildAll fs))
  | [], _, _, _, h => by
    rw [buildAll]
    exact .pure h ⟨fun _ hv => absurd hv List.not_mem_nil, rfl⟩
  | f :: fs, _, _, _, h => by
    rw [always_buildAll_cons]
    refine (follows_build f h).bind fun h₁ _ hv => ?_
    refine (follows_buildAll fs h₁).bind fun h₂ hx hvs => ?_
    obtain ⟨hv, rfl⟩ := hv
    obtain ⟨hvs, rfl⟩ := hvs
    refine .pure h₂ ⟨List.forall_mem_cons.mpr ⟨hv.mono hx.grows, hvs⟩, ?_⟩
    rw [List.map_cons, hx.agree.rename hv]

end

end Form

/-! ## The standard scope -/

namespace Store

open LispEngines.Action (always)

/-- Names are bound in a scope, one after the other. -/
def defineAll (s : ScopeRef) (entries : List (String × Value)) : StateM Store Unit := fun st =>
  ((), entries.foldl (fun st (key, v) => st.define s key v) st)

theorem always_defineAll_cons (s : ScopeRef) (e : String × Value)
    (entries : List (String × Value)) : always (defineAll s (e :: entries)) =
      Action.define s e.1 e.2 >>= fun _ => always (defineAll s entries) := rfl

/-- What a standard scope binds, `empty` being the empty list. -/
def libraryEntries (empty : Value) : List (String × Value) :=
  [(Value.trueName, .ofBool true), (Value.falseName, .ofBool false), (Value.nilName, empty)] ++
    Kind.all.map (fun k => (k.label, .number k.code)) ++
    Native.all.map (fun p => (p.name, .native p)) ++
    ScopeNative.all.map (fun p => (p.name, .scopeNative p))

theorem plain_defineAll (s : ScopeRef) (entries : List (String × Value)) :
    (always (defineAll s entries)).Plain := by
  induction entries with
  | nil => exact .pure ()
  | cons e entries ih =>
    rw [always_defineAll_cons]
    exact (Action.Plain.define s e.1 e.2).bind fun _ => ih

theorem always_standardScope : always standardScope =
    always (fun st => st.newScope none) >>= fun s => Action.newNil >>= fun empty =>
      always (defineAll s (libraryEntries empty)) >>= fun _ => pure s := rfl

/-- What a standard scope binds refers to nothing but the empty list. -/
theorem libraryEntries_standFor {empty : Value} (he : empty.Within L.shares st) :
    (∀ e ∈ libraryEntries empty, e.2.Within L.shares st) ∧
      libraryEntries (empty.rename ρ) =
        (libraryEntries empty).map fun e => (e.1, e.2.rename ρ) := by
  constructor
  · intro e hm
    have hself {v : Value} (hl : v.list? = none) (hs : v.scope? = none) : v.Within L.shares st :=
      Value.within_of_none hl hs
    simp only [libraryEntries, List.mem_append, List.mem_cons, List.mem_map, List.not_mem_nil,
      or_false] at hm
    rcases hm with (((rfl | rfl | rfl) | ⟨k, -, rfl⟩) | ⟨p, -, rfl⟩) | ⟨p, -, rfl⟩
    · exact hself rfl rfl
    · exact hself rfl rfl
    · exact he
    · exact hself rfl rfl
    · exact hself rfl rfl
    · exact hself rfl rfl
  · simp only [libraryEntries, List.map_append, List.map_map, List.map_cons, List.map_nil]
    rfl

theorem follows_defineAll (entries : List (String × Value)) :
    ∀ {st st' : Store} {s : ScopeRef}, Paired L ρ st st' → s.index < st.scopes.size →
      (∀ e ∈ entries, e.2.Within L.shares st) →
      Follows L ρ st st' (fun _ _ _ _ => True) (always (defineAll s entries))
        (always (defineAll (ρ.scope s) (entries.map fun e => (e.1, e.2.rename ρ)))) := by
  induction entries generalizing ρ with
  | nil => exact fun h _ _ => .pure h trivial
  | cons e entries ih =>
    intro st st' s h hs he
    have hhead := he e (List.mem_cons_self ..)
    have htail : ∀ e ∈ entries, e.2.Within L.shares st :=
      fun e hm => he e (List.mem_cons_of_mem _ hm)
    rw [List.map_cons, always_defineAll_cons, always_defineAll_cons]
    refine (Follows.define h e.1 hs hhead).bind fun {ρ₁ st₁ st₁' _ _} h₁ hx _ => ?_
    have hsame : entries.map (fun e => (e.1, e.2.rename ρ₁)) =
        entries.map fun e => (e.1, e.2.rename ρ) :=
      List.map_congr_left fun e hm => congrArg (Prod.mk e.1) (hx.agree.rename (htail e hm))
    rw [← hsame, ← hx.agree.scope s hs]
    exact ih h₁ (Nat.lt_of_lt_of_le hs hx.grows.scopes) fun e hm => (htail e hm).mono hx.grows

/-- A standard scope is made alike in paired stores. -/
theorem follows_standardScope (h : Paired L ρ st st') :
    Follows L ρ st st' ScopeRef.StandsFor (always standardScope) (always standardScope) := by
  have hnew : Follows L ρ st st' ScopeRef.StandsFor (always fun st => st.newScope none)
      (always fun st => st.newScope none) :=
    .ok (h.newScope nofun) (.newScope nofun)
        ⟨by rw [newScope_scopes_size]; exact Nat.lt_succ_self _, (if_pos rfl).symm⟩
  rw [always_standardScope]
  refine hnew.bind fun {ρ₁ st₁ st₁' s _} h₁ _ hs => ?_
  obtain ⟨hs, rfl⟩ := hs
  refine (Follows.newNil h₁).bind fun {ρ₂ st₂ st₂' empty _} h₂ hx he => ?_
  obtain ⟨he, rfl⟩ := he
  obtain ⟨hentries, hrename⟩ := libraryEntries_standFor (ρ := ρ₂) he
  have hs₂ := Nat.lt_of_lt_of_le hs hx.grows.scopes
  rw [hrename, ← hx.agree.scope s hs]
  refine (follows_defineAll _ h₂ hs₂ hentries).bind fun h₃ hx₃ _ => ?_
  exact .pure h₃ ⟨Nat.lt_of_lt_of_le hs₂ hx₃.grows.scopes, (hx₃.agree.scope s hs₂).symm⟩

end Store

end LispEngines
