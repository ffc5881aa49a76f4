import LispEngines.Proofs.Machine.Running

/-!
# What the evaluator cannot do

However long the evaluator runs, and whether it ends or not, it is where the course of the
evaluation is or on the way to there.  So what is true of every such moment is true of the
whole run, as far as no list gets too long for the evaluator to count.  A run that never ends may
build ever longer lists, and so this is asked of the store of the moment in question only.

* `Evaluator.faultless`: no instruction fails for a reason of the machine, but for want of
  room on the stack.
* `Evaluator.lists_preserved`: no list that was there changes, and nothing refers to a list
  that `CELLPUSH` extends.
* `Evaluator.twins_clear`: a list that nothing refers to makes no difference.
-/

namespace LispEngines.Machine

variable {m m₁ m₂ : Machine} {st st' st₁ st₂ : Store} {a b i k n size : Nat}

/-! ## A moment of a run -/

/-- At the end of its way the machine has finished or fails.  Before that its next instruction
succeeds. -/
theorem Goes.next_or_end (h : Goes k m st m₁ st₁) (hi : Goes i m st m₂ st₂)
    (hn : m₁.finished = true ∨ ∃ e m' st', step m₁ st₁ = ((.error e, m'), st')) :
    (m₂.finished = false ∧ ∃ m' st', step m₂ st₂ = ((.ok (), m'), st')) ∨
      m₂ = m₁ ∧ st₂ = st₁ := by
  rcases Nat.lt_or_ge i k with hlt | hle
  · exact .inl (h.next hi hlt)
  · exact .inr (h.stop hi hle hn).2

/-- A machine that is about to extend a list has extended it after its next instruction, and
has not finished before. -/
theorem Goes.appends (h : Goes i m st m₁ st₁) {q : ListRef} (hq : q.index < st₁.lists.size)
    (ha : m₁.appended q ≠ []) :
    (Machine.storeAfter (i + 1) m st).items q =
      (Machine.storeAfter i m st).items q ++ m₁.appended q := by
  have hi : Machine.storeAfter i m st = st₁ := h.storeAfter 0
  have hf : m₁.finished = false := by
    rw [appended] at ha
    split at ha
    case isTrue hc => exact hc.1
    case isFalse => exact absurd rfl ha
  rw [h.storeAfter, hi, ← (extends_step m₁ st₁).items q hq]
  rcases hs : step m₁ st₁ with ⟨⟨e | u, m'⟩, st'⟩
  · rw [storeAfter_error 0 hf hs]
  · rw [storeAfter_ok 0 hf hs, storeAfter_zero]

theorem FailsIn.ends {op : Opcode} {e : Failure} (h : FailsIn m st op e st₁) :
    ∃ e m' st', step m st = ((.error e, m'), st') := by
  obtain ⟨m', hm⟩ := h.fails
  exact ⟨e, m', st₁, hm⟩

/-- The machine and the store after a number of instructions that succeed. -/
def after? : (n : Nat) → Machine → Store → Option (Machine × Store)
  | 0, m, st => some (m, st)
  | n + 1, m, st =>
    match m.finished, step m st with
    | false, ((.ok (), m₁), st₁) => after? n m₁ st₁
    | _, _ => none

theorem goes_of_after? : ∀ {n : Nat} {m m₁ : Machine} {st st₁ : Store},
    after? n m st = some (m₁, st₁) → Goes n m st m₁ st₁
  | 0, _, _, _, _, h => by
    cases h
    exact .refl
  | n + 1, m, _, st, _, h => by
    rw [after?] at h
    split at h
    case h_1 hf hs => exact .head hf hs (goes_of_after? h)
    case h_2 => cases h

namespace Evaluator

open Course (Leads)

variable {p : Program} {x : Value} {s : ScopeRef} {empty : ListRef} {ρ : Renaming} {c : Course}

theorem Refuses.ends {e : Failure} (h : Refuses e st m st₁) :
    m.finished = true ∨ ∃ e m' st', step m st₁ = ((.error e, m'), st') := by
  cases h with
  | fails _ h => exact .inr h.ends
  | halts _ h => exact .inl h.finished
  | closed _ _ h => exact .inr h.ends

theorem Runs.tracks (h : Runs empty size ρ st st' c m a b) :
    ∃ k ρ₁ st₁ last, b ≤ k ∧ Tracks empty ρ st st' m k ρ₁ st₁ last := by
  cases h with
  | on _ hk _ _ _ _ ht => exact ⟨_, _, _, _, hk, ht⟩
  | exits _ _ _ _ ht => exact ⟨b, _, _, _, Nat.le_refl b, ht b⟩
  | refuses _ _ _ _ ht => exact ⟨b, _, _, _, Nat.le_refl b, ht b⟩
  | overflows _ _ _ _ _ ht => exact ⟨b, _, _, _, Nat.le_refl b, ht b⟩

/-- A machine that has left its main part has the value of the course, and its store is the twin
of the one in which the course has ended. -/
theorem value_of_exit (h : Runs empty size ρ st st' c m a b) (hb : k < b) (hg : Goes k m st' m₁ st₁)
    (hf : m₁.finished = true) (hs : m₁.haltMessage = none) :
    ∃ (v : Value) (ρ₁ : Renaming) (st₂ : Store), v.Within true st₂ ∧ m₁.a = v.rename ρ₁ ∧
      ∀ i, Tracks empty ρ st st' m i ρ₁ st₂ st₁ := by
  cases h with
  | on _ hk _ hg₁ =>
    obtain ⟨hrun, -⟩ := hg₁.next hg (Nat.lt_of_lt_of_le hb hk)
    cases hf.symm.trans hrun
  | exits _ hg₁ hx hw ht =>
    obtain ⟨hrun, -⟩ | ⟨rfl, rfl⟩ := hg₁.next_or_end hg (.inl hx.finished)
    · cases hf.symm.trans hrun
    · exact ⟨_, _, _, hw, hx.a, ht⟩
  | refuses _ _ hg₁ hr =>
    obtain ⟨hrun, -⟩ | ⟨rfl, -⟩ := hg₁.next_or_end hg hr.ends
    · cases hf.symm.trans hrun
    · cases hr with
      | fails _ h => cases hf.symm.trans h.running
      | closed _ _ h => cases hf.symm.trans h.running
      | halts _ h => cases hs.symm.trans h.message
  | overflows _ _ hg₁ h =>
    obtain ⟨hrun, -⟩ | ⟨rfl, -⟩ := hg₁.next_or_end hg (.inr h.ends)
    · cases hf.symm.trans hrun
    · cases hf.symm.trans h.running

theorem unlimited_of_leads {d j : Nat} {c c₁ : Course}
    (h : Leads .afterValue d j c st c₁ st₁) (hl : st.sink.limit = none) :
    st₁.sink.limit = none := by
  induction h with
  | refl => exact hl
  | @head _ c _ _ st _ _ _ _ hs _ ih =>
    have hn := (Course.plain_step .afterValue c).unlimited hl
    rw [hs] at hn
    exact ih hn

/-- Where the course fails, the output has no limit if it had none. -/
theorem unlimited_of_failure {d j : Nat} {c c₁ : Course} {e : Failure} {ρ₁ : Renaming}
    {st₂ last : Store} (hl : Leads .afterValue d j c st c₁ st₁)
    (he : c₁.step .afterValue st₁ = (.error e, st₂)) (hp : Pursues empty ρ st st' ρ₁ st₂ last)
    (hsink : st.sink.limit = none) : last.sink.limit = none := by
  have hn := (Course.plain_step .afterValue c₁).unlimited (unlimited_of_leads hl hsink)
  rw [he] at hn
  exact (congrArg Sink.limit hp.twins.paired.sink).trans hn

/-- A message can be written to an output without a limit. -/
theorem Refuses.of_unlimited {e : Failure} (h : Refuses e st m st₁) (hs : st.sink.limit = none) :
    (∃ op : Opcode, op.acts = true ∧ FailsIn m st₁ op e st) ∨
      ∃ detail, e = .malformed detail ∧ Halts (Failure.malformedHalt ++ detail) st m st₁ := by
  cases h with
  | fails ho hf => exact .inl ⟨_, ho, hf⟩
  | halts he hh => exact .inr ⟨_, he, hh⟩
  | closed _ hw =>
    obtain ⟨sink, hsome, -⟩ := Link.write?_of_unlimited hs _
    cases hsome.symm.trans hw

/-! ## Every moment -/

/-- The evaluator is in order.  Its next instruction succeeds; or it has left its main part,
with its stack as it was on entry; or it has stopped with a message that rejects a form; or its
next instruction carries out what the program asks for, and the language does not allow that;
or there is no room on the stack. -/
inductive InOrder (size : Nat) (m : Machine) (st : Store) : Prop
  | goesOn {m₁ : Machine} {st₁ : Store} (hf : m.finished = false)
      (hs : step m st = ((.ok (), m₁), st₁))
  | exited (hf : m.finished = true) (hs : m.haltMessage = none) (hsp : m.sp + 4 = size)
      (hbp : m.bp + 4 = size)
  | halted {detail : String} (hf : m.finished = true)
      (hs : m.haltMessage = some (Failure.malformedHalt ++ detail))
  | refuses {op : Opcode} {e : Failure} {st₁ : Store} (hf : FailsIn m st op e st₁)
      (ho : op.acts = true) (he : e.OfLanguage)
  | overflows {op : Opcode} {st₁ : Store} (hf : FailsIn m st op (.fault .stackOverflow) st₁)
      (ho : op.grows = true)

/-- A machine that is in order at the end of its way has been so on the way. -/
theorem InOrder.of_goes (h : InOrder size m₁ st₁) (hg : Goes k m st m₁ st₁)
    (hi : Goes i m st m₂ st₂)
    (hn : m₁.finished = true ∨ ∃ e m' st', step m₁ st₁ = ((.error e, m'), st')) :
    InOrder size m₂ st₂ := by
  obtain ⟨hf, m', st', hs⟩ | ⟨rfl, rfl⟩ := hg.next_or_end hi hn
  · exact .goesOn hf hs
  · exact h

/-- The evaluator has been loaded with an expression and a scope of a tidy store. -/
structure Started (p : Program) (size : Nat) (x : Value) (s : ScopeRef) (st : Store)
    (m : Machine) : Prop where
  serves : Serves p st
  tidy : st.Tidy true
  within : x.Within true st
  scope_lt : s.index < st.scopes.size
  small : size < 2 ^ 63
  loaded : Engine.loaded p size x s st = (.ok m, st)

/-- Until some list gets too long, the evaluator runs on what stands for an expression in another
store. -/
theorem Started.runs {y : Value} {t : ScopeRef} (h : Started p size x s st m)
    (hp : p = program empty) (ht : Twins empty ρ st' st) (hy : y.Within true st')
    (hx : x = y.rename ρ) (hs : s = ρ.scope t) (hl : t.index < st'.scopes.size)
    (hfit : (storeAfter n m st).Fits) :
    ∃ a, Runs empty size ρ st' st (.start y t) m a (n + 1) := by
  have hloaded := h.loaded
  rw [hp, hx, hs] at hloaded
  exact (runs_of_loaded ht hy hl h.small hloaded).upTo hfit

theorem Started.runs_self (h : Started p size x s st m) :
    ∃ empty, Twins empty .id st st ∧ ∀ n, (storeAfter n m st).Fits →
      ∃ a, Runs empty size .id st st (.start x s) m a (n + 1) := by
  obtain ⟨empty, hp, hl, hi⟩ := h.serves.program
  have ht := Twins.refl h.tidy hl hi
  exact ⟨empty, ht, fun n => h.runs hp ht h.within (Value.rename_id x).symm rfl h.scope_lt⟩

/-- A store with a scope, with an empty list, and with a call of the native procedure `list`. -/
def callStore : Store :=
  (((({} : Store).newScope none).2.newList []).2.newList [.native .list, .number 1]).2

/-- The evaluator is started on the call, and comes to where it collects the argument.  It ends, and
no list has become long. -/
theorem started_on_call : ∃ m m₁ st₁, Started (program ⟨0⟩) 24 (.list ⟨1⟩) ⟨0⟩ callStore m ∧
    Goes 90 m callStore m₁ st₁ ∧ 2 < st₁.lists.size ∧ m₁.appended ⟨2⟩ = [.number 1] ∧
    ∀ n, (storeAfter n m callStore).Fits := by
  have hserves : Serves (program ⟨0⟩) callStore :=
    ⟨{}, assemble_evaluatorText {}, by decide, rfl⟩
  have htidy : callStore.Tidy true := by
    have hscope : (({} : Store).newScope none).2.Tidy true :=
      .newScope (.empty {}) fun _ hp => by cases hp
    refine .newList (.newList hscope fun _ hv => by cases hv) fun v hv => ?_
    simp only [List.mem_cons, List.not_mem_nil, or_false] at hv
    rcases hv with rfl | rfl <;> exact Value.within_of_none rfl rfl
  obtain ⟨m, hm⟩ : ∃ m,
      Engine.loaded (program ⟨0⟩) 24 (.list ⟨1⟩) ⟨0⟩ callStore = (.ok m, callStore) :=
    loaded_of_room _ _ _ _ (by decide) (by decide)
  have hrun : ((Engine.loaded (program ⟨0⟩) 24 (.list ⟨1⟩) ⟨0⟩ callStore).1.toOption.any fun m =>
      (after? 90 m callStore).any fun x =>
        (run 200 m callStore).any (fun out => out.2.lists.all (·.length < 2 ^ 63)) &&
          (decide (2 < x.2.lists.size) && x.1.appended ⟨2⟩ == [.number 1])) = true := by
    decide +kernel
  rw [hm] at hrun
  change (after? 90 m callStore).any _ = true at hrun
  obtain ⟨⟨m₁, st₁⟩, ha, hc⟩ := (Option.any_eq_true _ _).mp hrun
  rw [Bool.and_eq_true, Bool.and_eq_true, beq_iff_eq, decide_eq_true_eq] at hc
  obtain ⟨hends, hl, happ⟩ := hc
  obtain ⟨⟨⟨r, m'⟩, last⟩, hlast, hfit⟩ := (Option.any_eq_true _ _).mp hends
  exact ⟨m, m₁, st₁, ⟨hserves, htidy, Value.within_list (by decide), by decide, by decide, hm⟩,
    goes_of_after? ha, hl, happ, fits_of_run hlast (Store.fits_of_all hfit)⟩

/-- After any number of instructions the evaluator is in order, unless it has come to make a list
that is too long for it to count. -/
theorem faultless (hm : Started p size x s st m) (hsink : st.sink.limit = none)
    (h : Goes i m st m₁ st₁) (hfit : st₁.Fits) : InOrder size m₁ st₁ := by
  obtain ⟨empty, -, hruns⟩ := hm.runs_self
  have hnow : storeAfter i m st = st₁ := h.storeAfter 0
  obtain ⟨a, hrun⟩ := hruns i (hnow ▸ hfit)
  cases hrun with
  | on _ hk _ hg =>
    obtain ⟨hf, m', st', hs⟩ := hg.next h hk
    exact .goesOn hf hs
  | exits _ hg hx =>
    exact .of_goes (.exited hx.finished hx.silent hx.sp hx.bp) hg h (.inl hx.finished)
  | overflows _ _ hg hf ho => exact .of_goes (.overflows hf ho) hg h (.inr hf.ends)
  | @refuses _ _ _ c₁ _ _ _ _ _ _ _ hl he hg hr htr =>
    have hlang := (Course.plain_step .afterValue c₁).ofLanguage he
    obtain ⟨op, ho, hf⟩ | ⟨detail, -, hh⟩ :=
      hr.of_unlimited (unlimited_of_failure hl he (htr 0).pursues hsink)
    · exact .of_goes (.refuses hf ho hlang) hg h (.inr hf.ends)
    · exact .of_goes (.halted hh.finished hh.message) hg h (.inl hh.finished)

/-- While the call is evaluated the evaluator is in order. -/
theorem faultless_in_call : ∃ m, Started (program ⟨0⟩) 24 (.list ⟨1⟩) ⟨0⟩ callStore m ∧
    ∀ i m₁ st₁, Goes i m callStore m₁ st₁ → InOrder 24 m₁ st₁ := by
  obtain ⟨m, -, -, hm, -, -, -, hfit⟩ := started_on_call
  refine ⟨m, hm, fun i m₁ st₁ h => faultless hm rfl h ?_⟩
  exact h.fits (Nat.le_refl i) (hfit i)

/-! ## Lists that nothing refers to -/

/-- The store with one list emptied. -/
def clear (st : Store) (q : ListRef) : Store :=
  { st with lists := st.lists.setIfInBounds q.index [] }

@[simp] theorem clear_lists_size (st : Store) (q : ListRef) :
    (clear st q).lists.size = st.lists.size := Array.size_setIfInBounds

theorem items_clear (st : Store) (q r : ListRef) :
    (clear st q).items r = if r = q then [] else st.items r := by
  by_cases hr : r = q
  · subst hr
    rw [if_pos rfl]
    by_cases hl : r.index < st.lists.size
    · simp [clear, Store.items, hl]
    · exact Store.items_of_le (by simpa using hl)
  · have hi : q.index ≠ r.index := fun hi => hr (by cases q; cases r; exact congrArg _ hi.symm)
    rw [if_neg hr, Store.items, Store.items, clear, Array.getD_eq_getD_getElem?,
      Array.getElem?_setIfInBounds_ne hi, Array.getD_eq_getD_getElem?]

/-- What does not refer to a list does not miss it. -/
theorem within_clear (empty : ListRef) {q : ListRef} {v : Value} (h : v.Within true st) (hq : v.list? ≠ some q) :
    v.Within true (clear st q) ∧ v = v.rename (Renaming.id.withList q empty) := by
  have hform : ∀ r, v.list? = some r → r ≠ q := by
    rintro r hr rfl
    exact hq hr
  refine ⟨⟨⟨fun r hr => ?_, h.below.scope⟩, fun _ => ?_⟩, ?_⟩
  · rw [clear_lists_size]
    exact h.below.list r hr
  · have hw := h.wellFormed rfl
    cases v with
    | lambda c | expander c =>
      show 3 ≤ ((clear st q).items c.form).length
      rw [items_clear, if_neg (hform _ rfl)]
      exact hw
    | _ => trivial
  · have hr : v.rename (Renaming.id.withList q empty) = v.rename .id :=
      Value.rename_congr (fun r hr => if_neg (hform r hr)) fun _ _ => rfl
    rw [hr, Value.rename_id]

/-- A store is twin to what is left of it without a list that nothing refers to.  What stood
for itself still does, but for the list, for which the empty list stands. -/
theorem twins_clear {q : ListRef} (ht : st.Tidy true) (hl : empty.index < st.lists.size)
    (hi : st.items empty = []) (hne : q ≠ empty) (hq : ¬ st.Mentions q) :
    Twins empty (Renaming.id.withList q empty) (clear st q) st := by
  have hitem {r : ListRef} {v : Value} (hv : v ∈ st.items r) : v.list? ≠ some q := fun h =>
    hq (.inl ⟨r, v, hv, h⟩)
  have hbound {s : ScopeRef} {b : String × Value} (hb : b ∈ (st.scopeAt s).bindings) :
      b.2.list? ≠ some q := fun h => hq (.inr ⟨s, b, hb, h⟩)
  have hsub {r : ListRef} {v : Value} (hv : v ∈ (clear st q).items r) : v ∈ st.items r := by
    rw [items_clear] at hv
    split at hv
    · cases hv
    · exact hv
  have hold {r : ListRef} (hr : r ≠ q) : (Renaming.id.withList q empty).list r = r := if_neg hr
  have hnew : (Renaming.id.withList q empty).list q = empty := if_pos rfl
  have htidy : (clear st q).Tidy true := by
    obtain ⟨rank, hd⟩ := ht.acyclic
    exact
      { items := fun r v hv => (within_clear empty (ht.items r v (hsub hv))
          (hitem (hsub hv))).1
        bindings := fun s b hb => (within_clear empty (ht.bindings s b hb) (hbound hb)).1
        parent_lt := ht.parent_lt
        acyclic := ⟨rank, fun r v hv => hd r v (hsub hv)⟩ }
  have hitems (r : ListRef) : st.items ((Renaming.id.withList q empty).list r) =
      ((clear st q).items r).map (Value.rename (Renaming.id.withList q empty)) := by
    rw [items_clear]
    by_cases hr : r = q
    · subst hr
      rw [if_pos rfl, hnew, hi]
      rfl
    · rw [if_neg hr, hold hr]
      have hsame : ∀ v ∈ st.items r, v = v.rename (Renaming.id.withList q empty) :=
        fun v hv => (within_clear empty (ht.items r v hv) (hitem hv)).2
      exact (List.map_id _).symm.trans (List.map_congr_left hsame)
  have hbindings (s : ScopeRef) : st.scopeAt s =
      ((clear st q).scopeAt s).rename (Renaming.id.withList q empty) := by
    have hsame : ∀ b ∈ (st.scopeAt s).bindings,
        b = (b.1, b.2.rename (Renaming.id.withList q empty)) :=
      fun b hb => congrArg (Prod.mk b.1) (within_clear empty (ht.bindings s b hb) (hbound hb)).2
    have hparent : (st.scopeAt s).parent = (st.scopeAt s).parent.map fun t => t :=
      Option.map_id'.symm
    show _ = Scope.rename _ (st.scopeAt s)
    rw [Scope.rename, ← (List.map_id _).symm.trans (List.map_congr_left hsame)]
    exact congrArg (Scope.mk _) hparent
  have hcover {v : Value} (hv : v.Within true st) (hn : v.list? ≠ some q) :
      ∃ w : Value, w.Within true (clear st q) ∧ v = w.rename (Renaming.id.withList q empty) :=
    ⟨v, within_clear empty hv hn⟩
  exact
    { paired :=
        { sealed := htidy.sealed
          list_lt := fun r hr => by
            by_cases he : r = q
            · rwa [he, hnew]
            · rw [hold he]
              rwa [clear_lists_size] at hr
          scope_lt := fun s hs => hs
          items := fun r _ => hitems r
          scopes := fun s _ => hbindings s
          list_inj := fun r r' _ _ he => by
            rw [items_clear]
            by_cases hr : r = q
            · exact .inr ⟨rfl, if_pos hr⟩
            rw [hold hr] at he
            by_cases hr' : r' = q
            · -- the list is the empty one, for which two lists stand now
              rw [hr', hnew] at he
              exact .inr ⟨rfl, by rw [he, hi, ite_self]⟩
            · rw [hold hr'] at he
              exact .inl he
          scope_inj := fun s t _ _ he => he
          ranked := fun _ => by
            have hr := htidy.ranked
            rw [clear_lists_size] at hr ⊢
            rwa [Nat.min_self]
          scopes_le := Nat.le_refl _
          sink := rfl }
      covered :=
        { items := fun r v hv => hcover (ht.items r v hv) (hitem hv)
          bindings := fun s b hb => hcover (ht.bindings s b hb) (hbound hb)
          parent_lt := ht.parent_lt }
      nil := ⟨empty, by rwa [clear_lists_size], by rw [items_clear, hi, ite_self],
        hold hne.symm⟩ }

theorem private_clear {q : ListRef} (hq : q.index < st.lists.size) (hne : q ≠ empty) :
    Private (Renaming.id.withList q empty) (clear st q) st q where
  lt := hq
  ne r _ he := by
    by_cases hr : r = q
    · have hnew : (Renaming.id.withList q empty).list r = empty := if_pos hr
      exact hne (he.symm.trans hnew)
    · have hold : (Renaming.id.withList q empty).list r = r := if_neg hr
      exact hr (hold.symm.trans he)

/-- Nothing that outlasts a run refers to the list at any moment of it until some list gets too
long: no list, no scope, and not the value that it ends with. -/
structure Unseen (m : Machine) (st : Store) (q : ListRef) : Prop where
  stored : ∀ n, (storeAfter n m st).Fits → ¬ (storeAfter n m st).Mentions q
  value : ∀ k m₁ st₁, Goes k m st m₁ st₁ → st₁.Fits → m₁.finished = true →
    m₁.haltMessage = none → m₁.a.list? ≠ some q

/-- A list that stands for nothing from some moment on has never been seen. -/
theorem unseen_of_private {q : ListRef} (least : Nat)
    (hruns : ∀ n, (storeAfter n m st').Fits →
      ∃ a b, n < b ∧ least ≤ b ∧ Runs empty size ρ st st' c m a b)
    (hpriv : ∀ {k ρ₁ st₁ last}, Tracks empty ρ st st' m k ρ₁ st₁ last → least ≤ k →
      Private ρ₁ st₁ last q) : Unseen m st' q where
  stored n hfit hmention := by
    obtain ⟨a, b, hn, hb, hrun⟩ := hruns n hfit
    obtain ⟨k, ρ₁, st₁, last, hk, htr⟩ := hrun.tracks
    obtain ⟨r, hr, he⟩ := htr.mentioned (Nat.le_trans (Nat.le_of_lt hn) hk) hmention
    exact (hpriv htr (Nat.le_trans hb hk)).ne r hr he
  value k m₁ st₁ hg hfit hfin hsilent hq := by
    have hnow : storeAfter k m st' = st₁ := hg.storeAfter 0
    obtain ⟨a, b, hk, hb, hrun⟩ := hruns k (hnow ▸ hfit)
    obtain ⟨v, ρ₁, st₂, hw, hav, htr⟩ := value_of_exit hrun hk hg hfin hsilent
    rw [hav, Value.list?_rename] at hq
    obtain ⟨r, hr, he⟩ := Option.map_eq_some_iff.mp hq
    exact (hpriv (htr least) (Nat.le_refl _)).ne r (hw.below.list r hr) he

/-- As long as no list gets too long for the evaluator to count, no list that was there has changed
after any number of instructions.  A list that the evaluator extends is never seen outside, and a
list that nothing refers to at the beginning, such as one that was extended in an earlier run,
remains unseen. -/
theorem lists_preserved (hm : Started p size x s st m) :
    (∀ n (r : ListRef), (storeAfter n m st).Fits → r.index < st.lists.size →
      (storeAfter n m st).items r = st.items r) ∧
      (∀ i m₁ st₁ (q : ListRef), Goes i m st m₁ st₁ → st₁.Fits → q.index < st₁.lists.size →
        m₁.appended q ≠ [] → Unseen m st q) ∧
      ∀ q : ListRef, q.index < st.lists.size → ¬ st.Mentions q → x.list? ≠ some q →
        (∀ v ∈ p.data, v.list? ≠ some q) → Unseen m st q := by
  obtain ⟨empty, htwins, hruns⟩ := hm.runs_self
  refine ⟨fun n r hfit hr => ?_, fun i m₁ st₁ q hg hfit hq ha => ?_, fun q hq hn hx hp => ?_⟩
  · obtain ⟨a, hrun⟩ := hruns n hfit
    obtain ⟨k, ρ₁, st₁, last, hk, htr⟩ := hrun.tracks
    obtain ⟨ρ₂, st₂, hpursue⟩ := htr.kept (Nat.le_of_succ_le hk)
    exact hpursue.items_eq htwins hr
  · have hi : storeAfter i m st = st₁ := hg.storeAfter 0
    have hne : (storeAfter (i + 1) m st).items q ≠ (storeAfter i m st).items q := by
      rw [hg.appends hq ha]
      simpa using ha
    have hbeyond (n : Nat) (hfit' : (storeAfter n m st).Fits) : ∃ a b, n < b ∧ i + 1 ≤ b ∧
        Runs empty size .id st st (.start x s) m a b := by
      rcases Nat.le_total n i with hle | hle
      · obtain ⟨a, hrun⟩ := hruns i (hi.symm ▸ hfit)
        exact ⟨a, i + 1, Nat.lt_succ_of_le hle, Nat.le_refl _, hrun⟩
      · obtain ⟨a, hrun⟩ := hruns n hfit'
        exact ⟨a, n + 1, Nat.lt_succ_self n, Nat.succ_le_succ hle, hrun⟩
    exact unseen_of_private (i + 1) hbeyond fun htr hk =>
      htr.filled (Nat.le_succ i) hk (by rwa [hi]) hne
  · obtain ⟨empty, rfl, hl, hi⟩ := hm.serves.program
    have hempty : Value.list empty ∈ (program empty).data := by
      simp [program, constants]
    have hne : q ≠ empty := by
      rintro rfl
      exact hp _ hempty rfl
    obtain ⟨hw, hr⟩ := within_clear empty hm.within hx
    have hcleared (n : Nat) (hfit : (storeAfter n m st).Fits) : ∃ a b, n < b ∧ 0 ≤ b ∧
        Runs empty size (Renaming.id.withList q empty) (clear st q) st (.start x s) m a b := by
      obtain ⟨a, hrun⟩ :=
        hm.runs rfl (twins_clear hm.tidy hl hi hne hn) hw hr rfl hm.scope_lt hfit
      exact ⟨a, n + 1, Nat.lt_succ_self n, Nat.zero_le _, hrun⟩
    exact unseen_of_private 0 hcleared fun htr _ => (private_clear hq hne).mono htr.pursues.carries

/-- While the call is evaluated, nothing refers to the list of its arguments. -/
theorem lists_preserved_in_call :
    ∃ m m₁ st₁, Started (program ⟨0⟩) 24 (.list ⟨1⟩) ⟨0⟩ callStore m ∧
      Goes 90 m callStore m₁ st₁ ∧ m₁.appended ⟨2⟩ = [.number 1] ∧
      (∀ n, (storeAfter n m callStore).items ⟨0⟩ = []) ∧
      ∀ n, ¬ (storeAfter n m callStore).Mentions ⟨2⟩ := by
  obtain ⟨m, m₁, st₁, hm, hg, hq, ha, hfit⟩ := started_on_call
  obtain ⟨hold, hnew, -⟩ := lists_preserved hm
  have hunseen : Unseen m callStore ⟨2⟩ :=
    hnew 90 m₁ st₁ ⟨2⟩ hg (hg.fits (Nat.le_refl 90) (hfit 90)) hq (by simp [ha])
  exact ⟨m, m₁, st₁, hm, hg, ha, fun n => hold n ⟨0⟩ (hfit n) (by decide),
    fun n => hunseen.stored n (hfit n)⟩

end Evaluator

end LispEngines.Machine
