import LispEngines.Proofs.Engines.Apart
import LispEngines.Proofs.Machine.Sequence
import LispEngines.Proofs.Store.Copies
import LispEngines.Proofs.Store.Reserving
import LispEngines.Schedule.Task

/-!
# A source as one form

A task is one expression, so a source of many forms becomes a task as one form, the sequence of its
forms.  Run so, its lists are built all at once, where an engine that runs the source form by form
builds each form when its turn has come.  And all its forms but the last are evaluated one level
further down.

The stores differ from the beginning, so the evaluations are compared up to addresses.  Both are
copies of a third one, which runs the forms one by one and has no list for the value of a source
without forms.  Against the evaluation form by form it has one list less.  Against the sequence it
builds its lists later, where the lists for them are reserved (`exists_turn`, `exists_through`).
The level further down costs the recursive engine one more in its limit, and the machine the frame of
one more call (`Deepens.ends`).

* `Deepens`: an engine, and one that is to evaluate sequences in its place.
* `source_as_one_form`: they come to the same end with a source.
* `sealed_of_source`: a store in which nothing refers beyond it stays such a store, source after
  source.
-/

namespace LispEngines.Engine

variable {L : Link} {ρ ρ₁ : Renaming} {a st st' st₁ : Store} {s : ScopeRef} {engine engine₁ : Engine}
  {fuel : Nat} {r : Except Failure Value} {xs : List Value}

/-! ## Form by form -/

/-- What an engine puts aside stands for nothing. -/
theorem moves_aside (engine : Engine) (ρ : Renaming) (st st' : Store) (xs : List Value) :
    Moves ρ st st' ρ st (engine.aside xs st') := by
  cases engine with
  | machine => exact .newList_right ρ st st' xs
  | classic | frame => exact .refl ρ st st'

theorem paired_aside (engine : Engine) (h : Paired L ρ st st') (xs : List Value) :
    Paired L ρ st (engine.aside xs st') := by
  cases engine with
  | machine => exact h.newList_right xs
  | classic | frame => exact h

/-- A list that is new in the second store stands for nothing. -/
theorem private_of_le (h : Paired L ρ st st') {st'' : Store} {q : ListRef}
    (hq : st'.lists.size ≤ q.index) (hlt : q.index < st''.lists.size) : Private ρ st st'' q where
  lt := hlt
  ne r hr he := Nat.not_lt_of_le hq (he ▸ h.list_lt r hr)

/-- A form is built and evaluated in the first store; in the second one it is there already. -/
theorem exists_turn (f : Form) (he : engine.Portable ρ st) (hp : Paired L.lone ρ st st')
    (hr : Reserved ρ a (f.build a).2 st st') (hs : s.index < st.scopes.size)
    (h : Ends engine (f.build st).1 s (f.build st).2 r st₁) (xs : List Value) :
    ∃ ρ₁ ρ₂ st₁', Redeems ρ a (f.build a).2 st ρ₁ (f.build st).2 ∧
      Ends engine (f.build a).1 (ρ.scope s) (engine.aside xs st') (r.map (Value.rename ρ₂)) st₁' ∧
      Paired L.lone ρ₂ st₁ st₁' ∧
      Moves ρ₁ (f.build st).2 (engine.aside xs st') ρ₂ st₁ st₁' ∧
      (∀ q : ListRef, st'.lists.size ≤ q.index → q.index < (engine.aside xs st').lists.size →
        st₁'.items q = (engine.aside xs st').items q) ∧
      ∀ v, r = .ok v → v.Within false st₁ := by
  obtain ⟨ρ₁, hp₁, hr₁, hx, hw⟩ := f.redeem_build hp hr
  have hs₁ : s.index < (f.build st).2.scopes.size := hr₁.scopes_eq ▸ hs
  obtain ⟨ρ₂, st₁', hends, hp₂, hm, hv⟩ := h.follows (he.mono hr₁.agree hr₁.within)
    (paired_aside engine hp₁ xs) hx hs₁
  rw [hr₁.agree.scope s hs, ← hw] at hends
  exact ⟨ρ₁, ρ₂, st₁', hr₁, hends, hp₂, hm,
    fun q hq hq' => (private_of_le hp₁ hq hq').items_eq hm, hv⟩

/-- **Form by form**: what the forms of a source come to, the expressions come to that have been
built in advance. -/
theorem exists_through (fs : List Form) : ∀ {f : Form} {v : Value} {ρ : Renaming} {a st st' : Store}
    {engine : Engine}, engine.Portable ρ st → Paired L.lone ρ st st' →
    Reserved ρ a (Form.buildAll (f :: fs) a).2 st st' → s.index < st.scopes.size →
    evaluateForms fuel s v (f :: fs) engine st = some ((r, engine₁), st₁) →
    ∃ ρ₁ st₁', engine.fresh.EndsThrough (ρ.scope s) (Form.buildAll (f :: fs) a).1 st'
      (r.map (Value.rename ρ₁)) st₁' ∧ Paired L.lone ρ₁ st₁ st₁' ∧ ρ.Agree st ρ₁ ∧
      ∀ v, r = .ok v → v.Within false st₁ := by
  induction fs with
  | nil =>
    intro f v ρ a st st' engine he hp hr hs h
    rw [Reader.buildAll_cons] at hr ⊢
    have hend : Ends engine.fresh (f.build st).1 s (f.build st).2 r st₁ := by
      rw [evaluateForms_cons] at h
      obtain ⟨⟨⟨e | w, engine₂⟩, st₂⟩, hx, h⟩ := Option.bind_eq_some_iff.mp h <;> cases h <;>
        exact ends_fresh.mpr ⟨fuel, _, hx⟩
    obtain ⟨ρ₁, ρ₂, st₁', hr₁, hends, hp₂, hm, -, hv⟩ :=
      exists_turn f (he.of_fresh (fresh_fresh engine)) hp hr hs hend [(f.build a).1]
    exact ⟨ρ₂, st₁', .last hends, hp₂,
      hr₁.agree.trans hm.agree hr₁.lists_le (Nat.le_of_eq hr₁.scopes_eq.symm), hv⟩
  | cons g gs ih =>
    intro f v ρ a st st' engine he hp hr hs h
    rw [Reader.buildAll_cons] at hr ⊢
    obtain ⟨y, ys, hys⟩ : ∃ y ys, (Form.buildAll (g :: gs) (f.build a).2).1 = y :: ys :=
      ⟨_, _, by rw [Reader.buildAll_cons]⟩
    have hkeeps := (Reader.buildsAll (g :: gs) (f.build a).2).adds.toKeepsLists
    have hkeeps' := (Reader.builds f a).adds.toKeepsLists
    rw [evaluateForms_cons] at h
    obtain ⟨⟨⟨r₁, engine₂⟩, st₂⟩, hx, h⟩ := Option.bind_eq_some_iff.mp h
    have hend : Ends engine.fresh _ s _ r₁ st₂ := ends_fresh.mpr ⟨fuel, _, hx⟩
    obtain ⟨ρ₁, ρ₂, st₂', hr₁, hends, hp₂, hm, hkept, hv⟩ :=
      exists_turn f (he.of_fresh (fresh_fresh engine)) hp (hr.left hkeeps) hs hend
        ((f.build a).1 :: y :: ys)
    have hagree : ρ.Agree st ρ₂ :=
      hr₁.agree.trans hm.agree hr₁.lists_le (Nat.le_of_eq hr₁.scopes_eq.symm)
    dsimp only
    rw [hys]
    rcases r₁ with e | w
    · cases h
      exact ⟨ρ₂, st₂', .failed hends, hp₂, hagree, nofun⟩
    · -- the forms that are left are reserved still, and nothing else has changed
      have hrest : Reserved ρ₂ (f.build a).2 (Form.buildAll (g :: gs) (f.build a).2).2 st₂ st₂' :=
        (((hr.right hkeeps'.size_le).redeems hr₁).moves
          (moves_aside engine.fresh ρ₁ _ st' ((f.build a).1 :: y :: ys))).moves hm
      have hport : engine₂.Portable ρ₂ st₂ :=
        ((he.mono hr₁.agree hr₁.within).moves hm).of_fresh (fresh_of_evaluate hx)
      have hlists : st.lists.size ≤ st₂.lists.size := Nat.le_trans hr₁.lists_le hm.lists_le
      have hscopes : st.scopes.size ≤ st₂.scopes.size := hr₁.scopes_eq ▸ hm.scopes_le
      obtain ⟨ρ₃, st₁', hthrough, hp₃, hagree', hv'⟩ :=
        ih hport hp₂ hrest (Nat.lt_of_lt_of_le hs hscopes) h
      rw [hys, hagree.scope s hs, fresh_of_evaluate hx] at hthrough
      exact ⟨ρ₃, st₁', .next hends hkept hthrough, hp₃, hagree.trans hagree' hlists hscopes, hv'⟩

/-! ## As one form -/

/-- The form that a source is as a whole has been built: its lists, and then the list that holds
them. -/
theorem build_program (forms : List Form) (st : Store) :
    (Form.list (.symbol "begin" :: forms)).build st =
      (.list ⟨(Form.buildAll forms st).2.lists.size⟩,
        ((Form.buildAll forms st).2.newList
          (.symbol "begin" :: (Form.buildAll forms st).1)).2) := by
  have hsymbol : (Form.symbol "begin").build st = (.symbol "begin", st) := by
    rw [Form.build]
    rfl
  rw [Reader.build_list, Reader.buildAll_cons, hsymbol]

/-- Every form has a value. -/
theorem length_buildAll (forms : List Form) (st : Store) :
    (Form.buildAll forms st).1.length = forms.length := by
  induction forms generalizing st with
  | nil =>
    rw [Form.buildAll]
    rfl
  | cons f fs ih => rw [Reader.buildAll_cons, List.length_cons, ih, List.length_cons]

/-- A store is paired with itself. -/
theorem paired_self (ht : st.Sealed false) : Paired (Link.same false).lone .id st st :=
  .refl_of_sealed ht rfl nofun

/-- Where a source has been built as one form, the store is paired with what it was before. -/
theorem paired_program (ht : st.Sealed false) (forms : List Form) :
    Paired (Link.same false).lone .id st ((Form.list (.symbol "begin" :: forms)).build st).2 := by
  have hadds := (Reader.builds (.list (.symbol "begin" :: forms)) st).adds
  exact (paired_self ht).of_right hadds.size_le (Nat.le_of_eq (congrArg Array.size hadds.scopes_eq.symm))
    (fun r hr => hadds.items_eq r hr)
    (fun s _ => by rw [Store.scopeAt, Store.scopeAt, hadds.scopes_eq]) hadds.sink_eq

/-- The lists of the forms are reserved where the form that holds them has been built. -/
theorem reserved_program (forms : List Form) (st : Store) :
    Reserved .id st (Form.buildAll forms st).2 st
      ((Form.list (.symbol "begin" :: forms)).build st).2 := by
  rw [build_program]
  have hkeeps := Store.KeepsLists.newList (Form.buildAll forms st).2
    (.symbol "begin" :: (Form.buildAll forms st).1)
  exact
    { own := fun r hr hr' =>
        { lt := Nat.lt_of_lt_of_le hr' hkeeps.size_le
          ne := fun q hq he => Nat.not_lt_of_le hr (he ▸ hq) }
      items := fun r _ hr' => hkeeps.items_eq r hr' }

/-- An engine that evaluates sources, and one that is to evaluate them as one form each: it may nest
its evaluations one level deeper, or its stack has room for the frame of one more call. -/
inductive Deepens (st : Store) : Engine → Engine → Prop
  | classic (limit n n' : Nat) : Deepens st (.classic limit n) (.classic (limit + 1) n')
  | machine {p : Program} {size : Nat} (hp : Machine.Evaluator.Serves p st) (hsize : 16 ≤ size)
      (hlt : size + 8 < 2 ^ 63) (n n' : Nat) :
      Deepens st (.machine p size n) (.machine p (size + 8) n')

variable {deeper : Engine} {q : ListRef}

theorem Deepens.portable (h : Deepens st engine deeper) : engine.Portable .id st := by
  cases h with
  | classic => exact .classic ..
  | machine hp => exact .machine hp.data_within (hp.rename_eq fun _ _ => rfl) ..

/-- A sequence comes to the end that its expressions come to. -/
theorem Deepens.ends (h : Deepens st engine deeper) (he : engine.fresh.EndsThrough s xs st' r st₁)
    (hdeep : ∀ limit, r ≠ .error (.tooDeep limit)) (hfault : ∀ f, r ≠ .error (.fault f))
    (hl : engine.strategy = .machine → xs.length + 1 < 2 ^ 63)
    (hq : st'.items q = .symbol "begin" :: xs) : Ends deeper (.list q) s st' r st₁ := by
  cases h with
  | classic limit => exact he.classic (hdeep limit) hq
  | machine hp hsize hlt =>
    obtain ⟨empty, rfl, -⟩ := hp.program
    exact he.machine hsize hlt hfault hq (hl rfl)

/-- A source without forms, and the form that it is as a whole, both come to an empty list. -/
theorem Deepens.ends_bare (h : Deepens st engine deeper) (ht : st.Sealed false)
    (hp : Paired (Link.same false).lone .id st st') (hq : st'.items q = [.symbol "begin"]) :
    ∃ r', Ends deeper (.list q) s st' r' (st'.newList []).2 ∧
      SameEnd st (.ok (.list ⟨st.lists.size⟩)) (st.newList []).2 r' (st'.newList []).2 := by
  have hsealed : (st.newList []).2.Sealed false := ht.newList (List.forall_mem_nil _)
  have hcopied : Copied st (st.newList []).2 .id (Renaming.id.withList ⟨st.lists.size⟩ ⟨st'.lists.size⟩)
      (st.newList []).2 (st'.newList []).2 :=
    { left := paired_self hsealed
      right := hp.newList (List.forall_mem_nil _)
      left_agree := .refl .id st
      right_agree := Renaming.agree_withList .id st _
      scopes_le := Nat.le_refl _ }
  have hnew : (Value.list ⟨st.lists.size⟩).Within false (st.newList []).2 := Value.within_list (by simp)
  cases h with
  | classic =>
    have hto : (Value.list ⟨st.lists.size⟩).rename (Renaming.id.withList ⟨st.lists.size⟩
        ⟨st'.lists.size⟩) = .list ⟨st'.lists.size⟩ := congrArg Value.list (if_pos rfl)
    refine ⟨_, classic_ends_bare hq, ?_⟩
    rw [← hto]
    exact .value hcopied hnew hnew (.inl rfl)
  | machine hp hsize hlt =>
    obtain ⟨empty, rfl, he, hi⟩ := hp.program
    have hto : (Value.list empty).rename (Renaming.id.withList ⟨st.lists.size⟩ ⟨st'.lists.size⟩) =
        .list empty := congrArg Value.list (hcopied.right_agree.list empty he)
    have hold : (Value.list empty).Within false (st.newList []).2 :=
      Value.within_list (Nat.lt_of_lt_of_le he (by simp))
    refine ⟨_, machine_ends_bare (by omega) hlt hq, ?_⟩
    rw [← hto]
    exact .value hcopied hnew hold (.inr ⟨_, _, rfl, rfl, Store.items_newList_self st [],
      (Store.items_newList_of_lt [] he).trans hi⟩)

variable {source : String} {forms : List Form} {last : Store} {out : Except SourceError Value}

/-- A source that reads is evaluated as its forms are. -/
theorem evaluateForms_of_source (hread : Form.ofSource source = .ok forms)
    (h : evaluateSource fuel source s engine st = some ((out, engine₁), last)) :
    ∃ r : Except Failure Value, out = r.mapError .failed ∧
      evaluateForms fuel s (.list ⟨st.lists.size⟩) forms engine (st.newList []).2 =
        some ((r, engine₁), last) := by
  rw [evaluateSource, hread] at h
  obtain ⟨⟨⟨r, engine'⟩, st₁⟩, hx, h⟩ := Option.bind_eq_some_iff.mp h
  cases h
  exact ⟨r, rfl, hx⟩

/-- A source leaves no reference beyond the store. -/
theorem sealed_of_source (he : engine.Portable .id st) (ht : st.Sealed false)
    (hs : s.index < st.scopes.size)
    (h : evaluateSource fuel source s engine st = some ((out, engine₁), last)) :
    last.Sealed false := by
  rcases hread : Form.ofSource source with e | forms
  · rw [evaluateSource, hread] at h
    cases h
    exact ht
  · obtain ⟨r, -, hforms⟩ := evaluateForms_of_source hread h
    have hgrows := st.grows_newList []
    have hnil : (Value.list ⟨st.lists.size⟩).Within false (st.newList []).2 :=
      Value.within_list (by simp)
    rw [← Value.rename_id (.list _)] at hforms
    obtain ⟨r₀, ρ, st₁, hforms₀, -, hp, -⟩ :=
      exists_evaluateForms (he.mono (.refl .id st) fun hv => hv.mono hgrows)
        (paired_self (ht.newList (List.forall_mem_nil _))) hnil hs hforms
    rw [Value.rename_id] at hforms
    cases hforms₀.symm.trans hforms
    exact hp.sealed

/-- A standard scope, beside the empty list of the evaluator. -/
def standardStore : Store := ((({} : Store).newList []).2.standardScope).2

/-- The standard scope refers to nothing outside. -/
theorem standardStore_sealed : standardStore.Sealed false := by
  have hbase : (({} : Store).newList []).2.Sealed false := (Store.Tidy.empty {}).sealed.newList (List.forall_mem_nil _)
  have hfollows := Store.follows_standardScope (paired_self hbase)
  unfold Action.Follows Action.always at hfollows
  cases hfollows with
  | ok hp => exact hp.sealed

/-- The evaluator is ready there. -/
theorem standardStore_serves : Machine.Evaluator.Serves (Machine.Evaluator.program ⟨0⟩) standardStore :=
  ⟨{}, Machine.Evaluator.assemble_evaluatorText {}, by decide +kernel, by decide +kernel⟩

/-- **A source as one form**: an engine with one level more, or with room for one more call, comes to
the same end with it.  That is so unless the engine that runs the source form by form comes to the end
of its own levels or of its stack.  The machine counts the elements of a list in a signed word. -/
theorem source_as_one_form (hd : Deepens st engine deeper) (ht : st.Sealed false)
    (hs : s.index < st.scopes.size) (hread : Form.ofSource source = .ok forms)
    (hl : engine.strategy = .machine → forms.length + 1 < 2 ^ 63)
    (h : evaluateSource fuel source s engine st = some ((out, engine₁), last))
    (hdeep : ∀ limit, out ≠ .error (.failed (.tooDeep limit)))
    (hfault : ∀ f, out ≠ .error (.failed (.fault f))) :
    ∃ f r last', Form.program source = .ok f ∧ Ends deeper (f.build st).1 s (f.build st).2 r last' ∧
      SameEnd st out last (r.mapError .failed) last' := by
  obtain ⟨r₀, rfl, hforms⟩ := evaluateForms_of_source hread h
  have hprogram : Form.program source = .ok (.list (.symbol "begin" :: forms)) := by
    rw [Form.program, hread]
    rfl
  refine ⟨.list (.symbol "begin" :: forms), ?_⟩
  have hp := paired_program ht forms
  have hr := reserved_program forms st
  have hq : ((Form.list (.symbol "begin" :: forms)).build st).2.items
      ⟨(Form.buildAll forms st).2.lists.size⟩ = .symbol "begin" :: (Form.buildAll forms st).1 := by
    rw [build_program]
    exact Store.items_newList_self _ _
  rw [show ((Form.list (.symbol "begin" :: forms)).build st).1 =
    .list ⟨(Form.buildAll forms st).2.lists.size⟩ by rw [build_program]]
  rcases forms with _ | ⟨f, fs⟩
  · cases hforms
    have hnil : Form.buildAll [] st = ([], st) := by
      rw [Form.buildAll]
      rfl
    rw [hnil] at hq ⊢
    obtain ⟨r, hends, hsame⟩ := hd.ends_bare (s := s) ht hp hq
    exact ⟨r, _, hprogram, hends, hsame.mapError SourceError.failed⟩
  · rw [evaluateForms_cons, ← evaluateForms_cons (.number 0)] at hforms
    have hself := (paired_self ht).newList_right []
    have hnumber : (Value.number 0).Within false st := Value.within_of_none rfl rfl
    obtain ⟨r, ρ, mid, hmid, rfl, hleft, hm⟩ :=
      exists_evaluateForms hd.portable hself hnumber hs hforms
    obtain ⟨ρ', last', hthrough, hright, hagree, hv⟩ :=
      exists_through fs hd.portable hp hr hs hmid
    have hdeep' (limit : Nat) : r.map (Value.rename ρ') ≠ .error (.tooDeep limit) := fun he => by
      rcases r with e | w <;> cases he
      exact hdeep limit rfl
    have hfault' (f : Fault) : r.map (Value.rename ρ') ≠ .error (.fault f) := fun he => by
      rcases r with e | w <;> cases he
      exact hfault f rfl
    have hends := hd.ends hthrough hdeep' hfault' (by rw [length_buildAll]; exact hl) hq
    have hcopied : Copied st mid ρ ρ' last last' :=
      ⟨hleft, hright, hm.agree, hagree, hm.scopes_le⟩
    exact ⟨_, last', hprogram, hends, (hcopied.sameEnd hv).mapError SourceError.failed⟩

/-- A definition and its use as one form, on the machine. -/
theorem definition_as_one_form : ∃ engine₁ last f r last',
    evaluateSource 200 "(define x 1) x" ⟨0⟩ (.machine (Machine.Evaluator.program ⟨0⟩) 40 0)
      standardStore = some ((.ok (.number 1), engine₁), last) ∧
    Form.program "(define x 1) x" = .ok f ∧
    Ends (.machine (Machine.Evaluator.program ⟨0⟩) 48 0) (f.build standardStore).1 ⟨0⟩
      (f.build standardStore).2 r last' ∧
    SameEnd standardStore (.ok (.number 1)) last (r.mapError SourceError.failed) last' := by
  have hforms : ((Form.ofSource "(define x 1) x").toOption.map List.length) = some 2 := by
    decide +kernel
  obtain ⟨forms, hread, hlength⟩ := Option.map_eq_some_iff.mp hforms
  have hread : Form.ofSource "(define x 1) x" = .ok forms := by
    rcases h : Form.ofSource "(define x 1) x" with e | forms' <;> rw [h] at hread <;> cases hread
    rfl
  have hvalue : ((evaluateSource 200 "(define x 1) x" ⟨0⟩
      (.machine (Machine.Evaluator.program ⟨0⟩) 40 0) standardStore).map (·.1.1)) =
        some (.ok (.number 1)) := by
    decide +kernel
  obtain ⟨⟨⟨out, engine₁⟩, last⟩, hrun, rfl⟩ := Option.map_eq_some_iff.mp hvalue
  obtain ⟨f, r, last', hprogram, hends, hsame⟩ := source_as_one_form
    (.machine standardStore_serves (by decide) (by decide) 0 0) standardStore_sealed (by decide +kernel)
    hread (fun _ => by rw [hlength]; decide) hrun nofun nofun
  exact ⟨engine₁, last, f, r, last', hrun, hprogram, hends, hsame⟩

end LispEngines.Engine
