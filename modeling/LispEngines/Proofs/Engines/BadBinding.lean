import LispEngines.Proofs.Course.Nesting
import LispEngines.Proofs.Engines.FrameAgreement
import LispEngines.Proofs.Engines.MachineAgreement
import Mathlib

/-!
# Definitions and assignments with bad operands

All three engines reject a definition or an assignment without a name, without a value, or with
something else in place of the name.  They do not do it in the same way.  The recursive and the
resumable engine look at both operands first, and so nothing has happened when they fail.  The
evaluator first looks whether there are enough operands, and then evaluates the value; that what
stands in place of the name is none it finds out when it binds the name.  By then the value may
have printed something, changed a scope, or failed.

* `Engine.rejected_by_walkers`: the recursive and the resumable engine.
* `Engine.rejected_by_machine`: the evaluator, when an operand is missing.
* `Engine.rejected_after_value`: the evaluator, when the name is bad.
* `Engine.bad_binding_rejected`: all three together.
* `Engine.value_printed_before_rejection`: `(define 1 (print 5))`, where they differ.
-/

namespace LispEngines

open Course (EndsIn AvoidsBadBinding)

namespace SpecialForm

variable {form : SpecialForm} {items : List Value} {s : ScopeRef} {st : Store}

/-- The failure for a missing operand. -/
def missing (form : SpecialForm) (i : Nat) : Failure :=
  .malformed ("'" ++ form.keyword ++ "' is missing operand " ++ toString i)

/-- Why a definition or an assignment with bad operands is rejected. -/
def rejection (form : SpecialForm) (items : List Value) (st : Store) : Failure :=
  match items[1]? with
  | none => form.missing 1
  | some name =>
    match name.keyText? with
    | none => .mismatch (.notName name.kind (name.shown st))
    | some _ => form.missing 2

theorem operand_some {i : Nat} {v : Value} (h : items[i]? = some v) :
    form.operand items i = pure v := by
  rw [operand, h]

theorem operand_none {i : Nat} (h : items[i]? = none) :
    form.operand items i = throw (form.missing i) := by
  rw [operand, h, missing]

/-- The operands are bad if one is missing, or what stands in place of the name is none. -/
theorem rejects_iff : form.Rejects items st ↔
    items[2]? = none ∨ ∃ name, items[1]? = some name ∧ name.keyText? = none := by
  constructor
  · intro h
    rcases hv : items[2]? with _ | v
    · exact .inl rfl
    · refine .inr ?_
      rcases h with ⟨e, he⟩ | ⟨e, he⟩
      · rcases hn : items[1]? with _ | name
        · rw [List.getElem?_eq_none_iff] at hn
          have := (List.getElem?_eq_some_iff.mp hv).1
          omega
        · refine ⟨name, rfl, ?_⟩
          rcases hk : name.keyText? with _ | key
          · rfl
          · rw [boundName, operand_some hn, pure_bind, Action.keyText_of_some hk] at he
            cases he
      · rw [operand_some hv] at he
        cases he
  · intro h
    by_contra hr
    obtain ⟨name, v, key, hn, hv, hk⟩ := operands_of_not_rejects hr
    rcases h with hv' | ⟨name', hn', hk'⟩
    · cases hv'.symm.trans hv
    · cases hn'.symm.trans hn
      cases hk'.symm.trans hk

/-- A value that waits for a name which is none is not bound. -/
theorem resume_bad_name {name : Value} (h : name.keyText? = none) (v : Value) :
    Classic.Pending.resume (.bind form name) s v st =
      (.error (.mismatch (.notName name.kind (name.shown st))), st) := by
  show (do Classic.Next.ofValue (form.bind (← Action.keyText name) v s) : Action Classic.Next) st = _
  rw [Action.keyText_of_none h]
  rfl

/-- Whoever looks at the operands first rejects bad ones at once. -/
theorem binding_rejected (h : form.Rejects items st) :
    Classic.binding .beforeValue form items s st = (.error (form.rejection items st), st) := by
  rw [Classic.binding, boundName, rejection]
  rcases hn : items[1]? with _ | name
  · rw [operand_none hn]
    rfl
  · rw [operand_some hn, pure_bind, discard_bind]
    dsimp only
    rcases hk : name.keyText? with _ | key
    · rw [Action.keyText_of_none hk]
      rfl
    · rw [Action.keyText_of_some hk, pure_bind]
      rcases hv : items[2]? with _ | v
      · rw [operand_none hv]
        rfl
      · rcases rejects_iff.mp h with hv' | ⟨name', hn', hk'⟩
        · cases hv'.symm.trans hv
        · cases hn'.symm.trans hn
          cases hk'.symm.trans hk

end SpecialForm

namespace Engine

open Machine.Evaluator (Serves)

variable {form : SpecialForm} {r : ListRef} {s : ScopeRef} {st st' : Store} {p : Program}
  {size n : Nat}

/-- The evaluation of a definition or an assignment begins with its operands. -/
theorem enter_binding (check : Classic.NameCheck)
    (hf : SpecialForm.ofItems? (st.items r) = some form) (hb : form = .define ∨ form = .assign) :
    Classic.enter check (.list r) s st = Classic.binding check form (st.items r) s st := by
  show Classic.form check (.list r) s (st.items r) st = _
  rcases hi : st.items r with _ | ⟨head, operands⟩
  · rw [hi] at hf
    cases hf
  · rw [hi] at hf
    rw [Classic.form, hf]
    rcases hb with rfl | rfl <;> rfl

/-- The recursive and the resumable engine reject bad operands before they do anything. -/
theorem rejected_by_walkers (hf : SpecialForm.ofItems? (st.items r) = some form)
    (hb : form = .define ∨ form = .assign) (h : form.Rejects (st.items r) st) :
    (∀ limit n, Ends (.classic (limit + 1) n) (.list r) s st
      (.error (form.rejection (st.items r) st)) st) ∧
    ∀ n depth, Ends (.frame n depth) (.list r) s st
      (.error (form.rejection (st.items r) st)) st := by
  have hs : (Course.start (.list r) s).step .beforeValue st =
      (.error (form.rejection (st.items r) st), st) :=
    Course.step_eval_error ((enter_binding .beforeValue hf hb).trans
      (SpecialForm.binding_rejected h))
  have he : EndsIn .beforeValue 1 [] 0 (.start (.list r) s) st
      (.error (form.rejection (st.items r) st)) st := .failure (.refl (Nat.le_refl 1)) hs
  refine ⟨fun limit n => classic_of_course ⟨0, he⟩ (Nat.succ_le_succ (Nat.zero_le limit)),
    fun n depth => ?_⟩
  have havoid : (Course.start (.list r) s).AvoidsBareSequence .beforeValue st := by
    rintro bound k c st₁ hl ⟨r', s', hc, hi⟩
    cases hl with
    | refl =>
      cases hc
      rw [hi] at hf
      rcases hb with rfl | rfl <;> exact absurd hf (by decide)
    | head _ _ hs' _ => cases hs.symm.trans hs'
  have hrep := FrameStack.start_represents (.list r) s st (havoid 1 0 _ st (.refl (Nat.le_refl 1)))
  obtain ⟨m, hm⟩ := FrameStack.run_of_endsIn 3 hrep havoid he (by decide)
  exact frame_ends_iff_run.mpr ⟨_, m, hm⟩

section

variable (hp : Serves p st) (ht : st.Tidy true) (hr : r.index < st.lists.size)
  (hs : s.index < st.scopes.size) (hsink : st.sink.limit = none)
  (hf : SpecialForm.ofItems? (st.items r) = some form) (hb : form = .define ∨ form = .assign)
  (hsmall : size < 2 ^ 63)
include hp ht hr hs hsink hf hb hsmall

/-- The evaluator rejects a definition or an assignment that lacks an operand before it does
anything. -/
theorem rejected_by_machine (hfit : st.Fits) (hv : (st.items r)[2]? = none)
    (hsize : 14 ≤ size) :
    MachineEnds p size n (.list r) s st
      (.error (.malformed ("'" ++ form.keyword ++ "' needs a name and a value"))) st := by
  have hstep : (Course.start (.list r) s).step .afterValue st =
      (.error (.malformed ("'" ++ form.keyword ++ "' needs a name and a value")), st) := by
    refine Course.step_eval_error ((enter_binding .afterValue hf hb).trans ?_)
    rw [Classic.binding, hv]
    rcases (st.items r)[1]? <;> rfl
  exact machineEnds_of_course hp ht (Value.within_list hr) hs hsink hfit
    (.failure (.refl (Nat.le_refl 1)) hstep) hsize hsmall

/-- The evaluator evaluates the value of a definition or an assignment before it rejects the
name. -/
theorem rejected_after_value {name v : Value} (hn : (st.items r)[1]? = some name)
    (hk : name.keyText? = none) (hv : (st.items r)[2]? = some v) {limit k : Nat}
    {r' : Except Failure Value} (hfit : st'.Fits) (ha : (Course.start v s).AvoidsBadBinding st)
    (h : Ends (.classic limit k) v s st r' st') (hl : r' ≠ .error (.tooDeep limit))
    (hsize : 10 * (limit + 1) + 4 ≤ size) :
    MachineEnds p size n (.list r) s st
      (r'.bind fun _ => .error (.mismatch (.notName name.kind (name.shown st')))) st' := by
  obtain ⟨j, hj⟩ := course_of_classic h hl
  have henter : Classic.enter .afterValue (.list r) s st =
      (.ok (.nested v s (.bind form name)), st) := by
    rw [enter_binding .afterValue hf hb, Classic.binding, hn, hv]
    rfl
  have hvalue := (Course.endsIn_afterValue hj ha).within [⟨.bind form name, s⟩]
  have hend : EndsIn .afterValue (limit + 1) [] (j + 1) (.start (.list r) s) st
      (r'.bind fun _ => .error (.mismatch (.notName name.kind (name.shown st')))) st' := by
    refine .head (Nat.succ_le_succ (Nat.zero_le limit)) rfl (Course.step_eval_ok henter) ?_
    cases hvalue with
    | value hlead =>
      exact .failure hlead (Course.step_value_error (SpecialForm.resume_bad_name hk _))
    | failure hlead hfail => exact .failure hlead hfail
  exact machineEnds_of_course hp ht (Value.within_list hr) hs hsink hfit hend hsize hsmall

/-- A definition or an assignment with bad operands.  The recursive and the resumable engine
fail at once.  So does the evaluator if an operand is missing; if it is the name that is bad, it
evaluates the value first, and fails after that. -/
theorem bad_binding_rejected (hfit : st.Fits)
    (h : (st.items r)[2]? = none ∨ ∃ name, (st.items r)[1]? = some name ∧ name.keyText? = none) :
    (∀ limit n, Ends (.classic (limit + 1) n) (.list r) s st
      (.error (form.rejection (st.items r) st)) st) ∧
    (∀ n depth, Ends (.frame n depth) (.list r) s st
      (.error (form.rejection (st.items r) st)) st) ∧
    ((st.items r)[2]? = none → 14 ≤ size → MachineEnds p size n (.list r) s st
      (.error (.malformed ("'" ++ form.keyword ++ "' needs a name and a value"))) st) ∧
    ∀ name v, (st.items r)[1]? = some name → (st.items r)[2]? = some v →
      ∀ limit k r' st', st'.Fits → (Course.start v s).AvoidsBadBinding st →
        Ends (.classic limit k) v s st r' st' → r' ≠ .error (.tooDeep limit) →
        10 * (limit + 1) + 4 ≤ size →
        MachineEnds p size n (.list r) s st
          (r'.bind fun _ => .error (.mismatch (.notName name.kind (name.shown st')))) st' := by
  obtain ⟨hclassic, hframe⟩ := rejected_by_walkers hf hb (SpecialForm.rejects_iff.mpr h)
  refine ⟨hclassic, hframe,
    fun hv hsize => rejected_by_machine hp ht hr hs hsink hf hb hsmall hfit hv hsize,
    fun name v hn hv limit k r' st' hfit' ha he hl hsize => ?_⟩
  have hk : name.keyText? = none := by
    rcases h with hv' | ⟨name', hn', hk'⟩
    · cases hv'.symm.trans hv
    · cases hn'.symm.trans hn
      exact hk'
  exact rejected_after_value hp ht hr hs hsink hf hb hsmall hn hk hv hfit' ha he hl hsize

end

/-- A store with an empty list, the call `(print 5)` and the definition `(define 1 (print 5))`. -/
def printStore : Store :=
  ((((({} : Store).newScope none).2.newList []).2.newList [.native .print, .number 5]).2.newList
    [.symbol "define", .number 1, .list ⟨1⟩]).2

theorem printStore_tidy : printStore.Tidy true := by
  have hscope : (({} : Store).newScope none).2.Tidy true :=
    .newScope (.empty {}) fun _ hp => by cases hp
  refine .newList (.newList (.newList hscope fun _ hv => by cases hv) fun v hv => ?_) fun v hv => ?_
  · simp only [List.mem_cons, List.not_mem_nil, or_false] at hv
    rcases hv with rfl | rfl <;> exact Value.within_of_none rfl rfl
  · simp only [List.mem_cons, List.not_mem_nil, or_false] at hv
    rcases hv with rfl | rfl | rfl
    · exact Value.within_of_none rfl rfl
    · exact Value.within_of_none rfl rfl
    · exact Value.within_list (by decide)

/-- What is no name here is shown as it is written. -/
theorem shown_one (st : Store) : (Value.number 1).shown st = "1" := by cbv

theorem printStore_rejection :
    SpecialForm.define.rejection (printStore.items ⟨2⟩) printStore =
      .mismatch (.notName .number "1") :=
  congrArg (fun shown => Failure.mismatch (.notName .number shown)) (shown_one printStore)

theorem printStore_serves : Serves (Machine.Evaluator.program ⟨0⟩) printStore :=
  ⟨{}, Machine.Evaluator.assemble_evaluatorText {}, by decide, rfl⟩

/-- The call ends with an empty list. -/
theorem print_ends : ∃ st', Ends (.classic 2 0) (.list ⟨1⟩) ⟨0⟩ printStore (.ok (.list ⟨3⟩)) st' ∧
    st'.Fits ∧ st'.sink.written = "5\n" := by
  have hrun : ((evaluate 5 (.list ⟨1⟩) ⟨0⟩ (.classic 2 0) printStore).any fun x =>
      x.1.1.toOption == some (.list ⟨3⟩) &&
        (x.2.lists.all fun items => decide (items.length < 2 ^ 63)) &&
        x.2.sink.written == "5\n") = true := by cbv
  obtain ⟨⟨⟨r, e⟩, st'⟩, he, h⟩ := (Option.any_eq_true _ _).mp hrun
  simp only [Bool.and_eq_true, beq_iff_eq] at h
  obtain ⟨⟨hr, hfit⟩, hw⟩ := h
  rcases r with e | v
  · cases hr
  · cases hr
    exact ⟨st', ⟨5, e, he⟩, Store.fits_of_all hfit, hw⟩

theorem print_avoids : (Course.start (.list ⟨1⟩) ⟨0⟩).AvoidsBadBinding printStore :=
  Course.avoidsBadBinding_of_noForm (by cbv : Course.holdsUntilEnd .beforeValue
    Course.evaluatesNoForm 9 (.start (.list ⟨1⟩) ⟨0⟩) printStore = true)

/-- An evaluator that ends like an engine that has printed has printed. -/
theorem MachineEnds.written {x : Value} {m : Mismatch} {t : String}
    (h : MachineEnds p size n x s st (.error (.mismatch m)) st') (ht : st'.sink.written = t) :
    ∃ last, last.sink.written = t ∧ Ends (.machine p size n) x s st (.error (.mismatch m)) last := by
  obtain ⟨ρ, last, -, hp, hend | ⟨_, _, he, -⟩⟩ := h
  · exact ⟨last, ht ▸ congrArg Sink.written hp.sink, hend⟩
  · cases he

theorem bad_binding_rejected_in_print :
    Ends (.classic 1 0) (.list ⟨2⟩) ⟨0⟩ printStore
        (.error (.mismatch (.notName .number "1"))) printStore ∧
      ∃ last, last.sink.written = "5\n" ∧
        Ends (.machine (Machine.Evaluator.program ⟨0⟩) 34 0) (.list ⟨2⟩) ⟨0⟩ printStore
          (.error (.mismatch (.notName .number "1"))) last := by
  obtain ⟨st', hend, hfit, hw⟩ := print_ends
  obtain ⟨hclassic, -, -, hmachine⟩ := bad_binding_rejected (r := ⟨2⟩) (s := ⟨0⟩) (n := 0)
    printStore_serves printStore_tidy (by decide) (by decide) rfl (by decide) (.inl rfl)
    (by decide : 34 < 2 ^ 63) (Store.fits_of_all (by decide +kernel))
    (.inr ⟨.number 1, rfl, rfl⟩)
  have hprints := hmachine (.number 1) (.list ⟨1⟩) rfl rfl 2 0 _ st' hfit print_avoids hend
    (by simp) (by decide)
  rw [printStore_rejection] at hclassic
  rw [shown_one] at hprints
  exact ⟨hclassic 0 0, hprints.written hw⟩

/-- `(define 1 (print 5))` is rejected for the same reason by all three engines, but the evaluator
has printed by then. -/
theorem value_printed_before_rejection :
    Ends (.classic 1 0) (.list ⟨2⟩) ⟨0⟩ printStore
        (.error (.mismatch (.notName .number "1"))) printStore ∧
      Ends (.frame 0 0) (.list ⟨2⟩) ⟨0⟩ printStore
        (.error (.mismatch (.notName .number "1"))) printStore ∧
      printStore.sink.written = "" ∧
      ∃ last, last.sink.written = "5\n" ∧
        Ends (.machine (Machine.Evaluator.program ⟨0⟩) 34 0) (.list ⟨2⟩) ⟨0⟩ printStore
          (.error (.mismatch (.notName .number "1"))) last := by
  have hf : SpecialForm.ofItems? (printStore.items ⟨2⟩) = some .define := by decide
  obtain ⟨st', hend, hfit, hw⟩ := print_ends
  obtain ⟨hclassic, hframe⟩ := rejected_by_walkers (s := ⟨0⟩) hf (.inl rfl)
    (SpecialForm.rejects_iff.mpr (.inr ⟨.number 1, rfl, rfl⟩))
  have hmachine := rejected_after_value (r := ⟨2⟩) (s := ⟨0⟩) (n := 0) printStore_serves
    printStore_tidy (by decide) (by decide) rfl hf (.inl rfl) (by decide : 34 < 2 ^ 63)
    (rfl : (printStore.items ⟨2⟩)[1]? = some (.number 1)) rfl rfl hfit print_avoids hend (by simp)
    (by decide)
  rw [printStore_rejection] at hclassic hframe
  rw [shown_one] at hmachine
  exact ⟨hclassic 0 0, hframe 0 0, rfl, hmachine.written hw⟩

end Engine

end LispEngines
