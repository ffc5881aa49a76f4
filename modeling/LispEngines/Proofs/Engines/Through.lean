import LispEngines.Proofs.Course.Nesting
import LispEngines.Proofs.Engines.Ends

/-!
# Expressions one after another

A sequence is evaluated as its expressions are, one after another, until one of them fails or the
last one has a value (`Engine.EndsThrough`).  All but the last are evaluated one level further down.
So the recursive engine needs a limit higher by one to come to the same end with the sequence
(`Engine.EndsThrough.classic`).

The machine keeps the list of the expressions that are still to come, and makes a new one before it
evaluates each of them.  `Engine.aside` is what it does to the store.
-/

namespace LispEngines

/-- The symbol that a sequence begins with. -/
theorem SpecialForm.ofItems?_sequence (xs : List Value) :
    ofItems? (.symbol "begin" :: xs) = some .sequence := by
  show ofKeyword? SpecialForm.sequence.keyword = _
  exact ofKeyword?_keyword .sequence

namespace Engine

/-- The store with what an engine puts aside before it evaluates the first of these expressions. -/
def aside (engine : Engine) (xs : List Value) (st : Store) : Store :=
  match engine with
  | .machine .. => (st.newList xs).2
  | _ => st

/-- Evaluated one after another, the expressions come to this end, and what is put aside is still
there when it is needed. -/
inductive EndsThrough (engine : Engine) (s : ScopeRef) :
    List Value → Store → Except Failure Value → Store → Prop
  | last {x : Value} {st st' : Store} {r : Except Failure Value}
      (h : Ends engine x s (engine.aside [x] st) r st') : EndsThrough engine s [x] st r st'
  | failed {x y : Value} {xs : List Value} {st st' : Store} {e : Failure}
      (h : Ends engine x s (engine.aside (x :: y :: xs) st) (.error e) st') :
      EndsThrough engine s (x :: y :: xs) st (.error e) st'
  | next {x y v : Value} {xs : List Value} {st st₁ st' : Store} {r : Except Failure Value}
      (h : Ends engine x s (engine.aside (x :: y :: xs) st) (.ok v) st₁)
      (hkept : ∀ q : ListRef, st.lists.size ≤ q.index →
        q.index < (engine.aside (x :: y :: xs) st).lists.size →
        st₁.items q = (engine.aside (x :: y :: xs) st).items q)
      (h' : EndsThrough engine s (y :: xs) st₁ r st') :
      EndsThrough engine s (x :: y :: xs) st r st'

end Engine

namespace Course

open Classic (sequence)

variable {bound n : Nat} {s : ScopeRef} {x : Value} {xs : List Value} {st st' : Store}
  {r : Except Failure Value}

/-- A sequence that is about to evaluate the first of these expressions. -/
def sequenced (s : ScopeRef) (x : Value) : List Value → Course
  | [] => start x s
  | rest => ⟨.eval x s, [⟨.sequence rest, s⟩]⟩

theorem sequence_cons (s : ScopeRef) (x : Value) (xs : List Value) (st : Store) :
    ∃ next, sequence s (x :: xs) st = (.ok next, st) ∧ follow s [] next = sequenced s x xs := by
  cases xs <;> exact ⟨_, rfl, rfl⟩

/-- What fails at some level fails as a whole. -/
theorem EndsIn.failed {check : Classic.NameCheck} {levels levels' : List Level} {k : Nat} {c : Course}
    {e : Failure} (h : EndsIn check bound levels k c st (.error e) st') :
    EndsIn check bound levels' k c st (.error e) st' := by
  cases h with
  | failure hl hf => exact .failure hl hf

/-- The expressions are evaluated in their places in the sequence. -/
theorem ends_sequenced (h : (Engine.classic bound n).EndsThrough s (x :: xs) st r st')
    (hr : r ≠ .error (.tooDeep bound)) :
    Ends .beforeValue (bound + 1) (sequenced s x xs) st r st' := by
  generalize hxs : x :: xs = ys at h
  induction h generalizing x xs with
  | last h =>
    cases hxs
    obtain ⟨k, hk⟩ := Engine.course_of_classic h hr
    exact ⟨k, hk.mono (Nat.le_succ bound)⟩
  | @failed _ y xs _ _ _ h =>
    cases hxs
    obtain ⟨k, hk⟩ := Engine.course_of_classic h hr
    exact ⟨k, (hk.within [⟨.sequence (y :: xs), s⟩]).failed⟩
  | @next _ y v xs _ st₁ _ _ h _ _ ih =>
    cases hxs
    obtain ⟨k, hk⟩ := Engine.course_of_classic h nofun
    obtain ⟨j, hj⟩ := ih hr rfl
    cases hk.within [⟨.sequence (y :: xs), s⟩] with
    | value hl =>
      obtain ⟨next, hnext, hfollow⟩ := sequence_cons s y xs st₁
      have hstep : step .beforeValue ⟨.value v, [⟨.sequence (y :: xs), s⟩]⟩ st₁ = _ :=
        step_value_ok hnext
      rw [hfollow] at hstep
      exact ⟨_, .prepend hl (.head hl.depth_le_last rfl hstep hj)⟩

end Course

namespace Engine

variable {limit n n' : Nat} {s : ScopeRef} {xs : List Value} {q : ListRef} {st st' : Store}
  {r : Except Failure Value}

/-- **A sequence in the recursive engine**: with a limit higher by one it comes to the end that its
expressions come to. -/
theorem EndsThrough.classic (h : (Engine.classic limit n).EndsThrough s xs st r st')
    (hr : r ≠ .error (.tooDeep limit)) (hq : st.items q = .symbol "begin" :: xs) :
    Ends (.classic (limit + 1) n') (.list q) s st r st' := by
  obtain ⟨x, xs, rfl⟩ : ∃ y ys, xs = y :: ys := by cases h <;> exact ⟨_, _, rfl⟩
  obtain ⟨k, hk⟩ := Course.ends_sequenced h hr
  obtain ⟨next, hnext, hfollow⟩ := Course.sequence_cons s x xs st
  have henter : Classic.enter .beforeValue (.list q) s st = (.ok next, st) := by
    show Classic.form .beforeValue (.list q) s (st.items q) st = _
    rw [hq, Classic.form, SpecialForm.ofItems?_sequence]
    exact hnext
  have hstep : Course.step .beforeValue (.start (.list q) s) st = _ := Course.step_eval_ok henter
  rw [hfollow] at hstep
  exact classic_of_course ⟨_, .head (Nat.le_add_left 1 limit) rfl hstep hk⟩ (Nat.le_refl _)

/-- A sequence without expressions comes to a new empty list. -/
theorem classic_ends_bare (hq : st.items q = [.symbol "begin"]) :
    Ends (.classic (limit + 1) n) (.list q) s st (.ok (.list ⟨st.lists.size⟩)) (st.newList []).2 := by
  have henter : Classic.enter .beforeValue (.list q) s st =
      (.ok (.value (.list ⟨st.lists.size⟩)), (st.newList []).2) := by
    show Classic.form .beforeValue (.list q) s (st.items q) st = _
    rw [hq, Classic.form, SpecialForm.ofItems?_sequence]
    rfl
  have hstep : Course.step .beforeValue (.start (.list q) s) st = _ := Course.step_eval_ok henter
  exact classic_of_course ⟨_, .head (Nat.le_add_left 1 limit) rfl hstep
    (.value (.refl (Nat.le_add_left 1 limit)))⟩ (Nat.le_refl _)

end Engine

end LispEngines
