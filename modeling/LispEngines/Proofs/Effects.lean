import LispEngines.SpecialForm
import Mathlib.Data.List.Forall2
import Mathlib.Data.Nat.Basic
import Mathlib.Tactic.Common

/-!
# What actions can do

Evaluation is made of few operations: it reads the store, allocates lists and scopes,
binds names and prints.  An action made of these is `Action.Plain`, and every action of
the special forms and of the native library is (`Native.plain_call`).  The native library
does not even bind names: its actions are made of what adds to a store (`Native.adds_call`).

Two things are true of all plain actions.  They may allocate lists but never change one
that is there, so whatever has been read from a list stays true of it, and an engine that
looks at a form again finds what it found before (`Action.Plain.keepsLists`).  And they
fail only for reasons that the language knows, never for one that belongs to an engine
(`Action.Plain.ofLanguage`).

* `Action.bind_apply`: how composite work acts on a store.
* `Store.KeepsLists`: the lists of the first store are lists of the second, unchanged.
* `Failure.OfLanguage`: the failures that the language knows.
-/

namespace LispEngines

/-! ## Composite work -/

theorem discard_bind {m : Type → Type} [Monad m] [LawfulMonad m] {α β : Type} (x : m α)
    (f : Unit → m β) : (discard x >>= f) = x >>= fun _ => f () := by
  show (Functor.mapConst () x >>= f) = _
  rw [map_const, Function.comp_apply, bind_map_left]

namespace Action

variable {α β : Type}

@[simp] theorem pure_apply (a : α) (st : Store) : (pure a : Action α) st = (.ok a, st) := rfl

@[simp] theorem throw_apply (e : Failure) (st : Store) :
    (throw e : Action α) st = (.error e, st) := rfl

@[simp] theorem get_apply (st : Store) : (get : Action Store) st = (.ok st, st) := rfl

theorem bind_apply (a : Action α) (f : α → Action β) (st : Store) :
    (a >>= f) st =
      match a st with
      | (.ok v, st') => f v st'
      | (.error e, st') => (.error e, st') := by
  have h : (a >>= f) st = ExceptT.bindCont f (a st).1 (a st).2 := rfl
  rw [h]
  rcases a st with ⟨_ | _, _⟩ <;> rfl

theorem bind_ok {a : Action α} {f : α → Action β} {st st' : Store} {v : α}
    (h : a st = (.ok v, st')) : (a >>= f) st = f v st' := by
  rw [bind_apply, h]

theorem bind_error {a : Action α} {f : α → Action β} {st st' : Store} {e : Failure}
    (h : a st = (.error e, st')) : (a >>= f) st = (.error e, st') := by
  rw [bind_apply, h]

theorem write_of_some {st : Store} {t : String} {k : Sink} (h : st.sink.write? t = some k)
    (refused : String → Failure) : write t refused st = (.ok (), { st with sink := k }) := by
  simp only [write, h]

theorem write_of_none {st : Store} {t : String} (h : st.sink.write? t = none)
    (refused : String → Failure) : write t refused st = (.error (refused sinkClosed), st) := by
  simp only [write, h]

theorem keyText_of_some {v : Value} {name : String} (h : v.keyText? = some name) :
    keyText v = pure name := by
  funext st
  simp only [keyText, h]
  rfl

theorem keyText_of_none {v : Value} (h : v.keyText? = none) :
    keyText v = get >>= fun st => throw (.mismatch (.notName v.kind (v.shown st))) := by
  funext st
  simp only [keyText, h]
  rfl

end Action

/-! ## Stores that keep their lists -/

namespace Store

/-- Only an address of the store has elements. -/
theorem index_lt_of_items_ne_nil {st : Store} {r : ListRef} (h : st.items r ≠ []) :
    r.index < st.lists.size := by
  by_contra hr
  exact h (by simp [items, Array.getElem?_eq_none (Nat.le_of_not_lt hr)])

theorem items_newList_of_lt {st : Store} {r : ListRef} (items : List Value)
    (h : r.index < st.lists.size) : (st.newList items).2.items r = st.items r := by
  simp [Store.items, newList, Array.getElem?_push, Nat.ne_of_lt h]

@[simp] theorem items_newList_self (st : Store) (items : List Value) :
    (st.newList items).2.items (st.newList items).1 = items := by
  simp [Store.items, newList]

/-- Every list of `st` is a list of `st'` with the same elements. -/
structure KeepsLists (st st' : Store) : Prop where
  size_le : st.lists.size ≤ st'.lists.size
  items_eq : ∀ r : ListRef, r.index < st.lists.size → st'.items r = st.items r

namespace KeepsLists

variable {st st₁ st₂ st₃ : Store}

theorem refl (st : Store) : st.KeepsLists st := ⟨Nat.le_refl _, fun _ _ => rfl⟩

theorem trans (h : st₁.KeepsLists st₂) (h' : st₂.KeepsLists st₃) : st₁.KeepsLists st₃ :=
  ⟨Nat.le_trans h.size_le h'.size_le, fun r hr =>
    (h'.items_eq r (Nat.lt_of_lt_of_le hr h.size_le)).trans (h.items_eq r hr)⟩

/-- A list that has been found to have elements keeps them. -/
theorem items_of_ne_nil (h : st₁.KeepsLists st₂) {r : ListRef} (hr : st₁.items r ≠ []) :
    st₂.items r = st₁.items r :=
  h.items_eq r (index_lt_of_items_ne_nil hr)

theorem newList (st : Store) (items : List Value) : st.KeepsLists (st.newList items).2 :=
  ⟨by simp [Store.newList], fun _ hr => items_newList_of_lt items hr⟩

/-- What happens to the scopes and to the output does not touch the lists. -/
theorem of_lists_eq (h : st₂.lists = st₁.lists) : st₁.KeepsLists st₂ :=
  ⟨Nat.le_of_eq (congrArg Array.size h.symm), fun r _ => by rw [Store.items, Store.items, h]⟩

end KeepsLists

end Store

/-! ## Failures of the language -/

/-- The operation is one that programs call, or the binding of a name. -/
def Mismatch.OfLanguage : Mismatch → Prop
  | .numbers .. | .concatenate _ | .appendTo _ | .unsupported _ | .notName .. | .notList ..
  | .notDescribable _ => True
  | .notScope .. | .notClosure .. | .notExtensible .. | .noSuchKind .. | .noEmptyValue ..
  | .notConvertible .. => False

/-- The failure is one that the language knows.  The others belong to an engine: to its
limits, to a program of its own, or to the bounds of its memory. -/
def Failure.OfLanguage : Failure → Prop
  | .unbound _ | .setUndefined _ | .notCallable _ | .arity .. | .divideByZero | .malformed _
  | .output _ => True
  | .mismatch cause => cause.OfLanguage
  | .tooDeep _ | .missingOpcode .. | .fault _ | .noHandler _ | .halted _ => False

/-! ## Plain actions -/

namespace Action

variable {α β : Type}

/-- The action is made of the operations of the language that add to the store and change
nothing that is there: all of them but the binding of a name. -/
inductive Adds : {α : Type} → Action α → Prop
  | reads {α : Type} {a : Action α} (hs : ∀ st, (a st).2 = st)
      (he : ∀ st e, (a st).1 = .error e → e.OfLanguage) : Adds a
  | bind {α β : Type} {a : Action α} {f : α → Action β} (ha : Adds a)
      (hf : ∀ v, Adds (f v)) : Adds (a >>= f)
  | newList (items : List Value) : Adds (newList items)
  | newScope (parent : Option ScopeRef) : Adds (newScope parent)
  | write (t : String) : Adds (write t .output)

namespace Adds

theorem pure (a : α) : Adds (pure a : Action α) := .reads (fun _ => rfl) nofun

theorem throw {e : Failure} (h : e.OfLanguage) : Adds (throw e : Action α) :=
  .reads (fun _ => rfl) fun _ _ he => by cases he; exact h

theorem get : Adds (get : Action Store) := .reads (fun _ => rfl) nofun

theorem map {a : Action α} {f : α → β} (ha : a.Adds) : (f <$> a).Adds := by
  rw [← bind_pure_comp]
  exact ha.bind fun _ => .pure _

theorem newNil : newNil.Adds := newList []

theorem lookup (s : ScopeRef) (key : String) : (lookup s key).Adds := by
  refine .reads (fun st => ?_) fun st e he => ?_
  · rw [Action.lookup]
    split <;> rfl
  · rw [Action.lookup] at he
    split at he <;> cases he
    trivial

theorem keyText (v : Value) : (keyText v).Adds := by
  cases h : v.keyText? with
  | some name =>
    rw [keyText_of_some h]
    exact .pure name
  | none =>
    rw [keyText_of_none h]
    exact get.bind fun _ => .throw trivial

end Adds

/-- The action is made of the operations of the language. -/
inductive Plain : {α : Type} → Action α → Prop
  | reads {α : Type} {a : Action α} (hs : ∀ st, (a st).2 = st)
      (he : ∀ st e, (a st).1 = .error e → e.OfLanguage) : Plain a
  | bind {α β : Type} {a : Action α} {f : α → Action β} (ha : Plain a)
      (hf : ∀ v, Plain (f v)) : Plain (a >>= f)
  | newList (items : List Value) : Plain (newList items)
  | newScope (parent : Option ScopeRef) : Plain (newScope parent)
  | define (s : ScopeRef) (key : String) (v : Value) : Plain (define s key v)
  | write (t : String) : Plain (write t .output)

theorem Adds.plain {a : Action α} (h : a.Adds) : a.Plain := by
  induction h with
  | reads hs he => exact .reads hs he
  | bind _ _ iha ihf => exact iha.bind ihf
  | newList items => exact .newList items
  | newScope parent => exact .newScope parent
  | write t => exact .write t

namespace Plain

theorem pure (a : α) : Plain (pure a : Action α) := (Adds.pure a).plain

theorem throw {e : Failure} (h : e.OfLanguage) : Plain (throw e : Action α) :=
  (Adds.throw h).plain

theorem get : Plain (get : Action Store) := Adds.get.plain

theorem map {a : Action α} {f : α → β} (ha : a.Plain) : (f <$> a).Plain := by
  rw [← bind_pure_comp]
  exact ha.bind fun _ => .pure _

theorem newNil : newNil.Plain := newList []

theorem assign (s : ScopeRef) (key : String) (v : Value) : (assign s key v).Plain := by
  have h : Action.assign s key v =
      (fun st => ((st.find? s key).elim (.error (.setUndefined key)) .ok, st) : Action ScopeRef) >>=
        fun t => Action.define t key v := by
    funext st
    rw [bind_apply, Action.assign]
    cases st.find? s key <;> rfl
  rw [h]
  refine .bind (.reads (fun _ => rfl) fun st e he => ?_) fun t => .define t key v
  cases hf : st.find? s key <;> rw [hf] at he <;> cases he
  trivial

theorem lookup (s : ScopeRef) (key : String) : (lookup s key).Plain := (Adds.lookup s key).plain

theorem keyText (v : Value) : (keyText v).Plain := (Adds.keyText v).plain

theorem bindAll (s : ScopeRef) : ∀ names values : List Value, (bindAll s names values).Plain
  | [], _ => .pure ()
  | _ :: _, [] => .pure ()
  | name :: names, v :: values =>
    (keyText name).bind fun key => (define s key v).bind fun _ => bindAll s names values

theorem bindParameters (params : Value) (args : List Value) (parent : ScopeRef) :
    (bindParameters params args parent).Plain := by
  refine (newScope (some parent)).bind fun s => ?_
  cases params with
  | symbol name =>
    exact (newList args).bind fun v => (define s name v).bind fun _ => .pure s
  | list r =>
    refine get.bind fun st => ?_
    dsimp only
    split
    · exact (throw (by trivial)).bind fun _ => (bindAll s _ args).bind fun _ => .pure s
    · exact (bindAll s _ args).bind fun _ => .pure s
  | _ => exact get.bind fun st => .throw trivial

/-- No list that was there has changed, whatever comes of the action. -/
theorem keepsLists {a : Action α} (h : a.Plain) : ∀ st : Store, st.KeepsLists (a st).2 := by
  induction h with
  | reads hs _ =>
    intro st
    rw [hs]
    exact .refl st
  | @bind α β a f _ _ iha ihf =>
    intro st
    have h := iha st
    rcases ha : a st with ⟨e | v, st'⟩ <;> rw [ha] at h
    · rwa [bind_error ha]
    · rw [bind_ok ha]
      exact h.trans (ihf v st')
  | newList items => exact fun st => .newList st items
  | newScope _ => exact fun _ => .of_lists_eq rfl
  | define _ _ _ => exact fun _ => .of_lists_eq rfl
  | write t =>
    intro st
    rw [Action.write]
    split <;> exact .of_lists_eq rfl

/-- An output without a limit stays without one. -/
theorem unlimited {a : Action α} (h : a.Plain) :
    ∀ {st : Store}, st.sink.limit = none → (a st).2.sink.limit = none := by
  induction h with
  | reads hs _ =>
    intro st h
    rwa [hs]
  | @bind α β a f _ _ iha ihf =>
    intro st h
    have h := iha h
    rcases ha : a st with ⟨e | v, st'⟩ <;> rw [ha] at h
    · rwa [bind_error ha]
    · rw [bind_ok ha]
      exact ihf v h
  | newList _ => exact fun h => h
  | newScope _ => exact fun h => h
  | define _ _ _ => exact fun h => h
  | write t =>
    intro st h
    rw [Action.write]
    split
    case h_1 sink hw =>
      rw [Sink.write?] at hw
      split at hw
      · cases hw
        exact h
      · split at hw <;> cases hw
        exact h
    case h_2 => exact h

/-- The action fails only for a reason that the language knows. -/
theorem ofLanguage {a : Action α} (h : a.Plain) :
    ∀ {st st' : Store} {e : Failure}, a st = (.error e, st') → e.OfLanguage := by
  induction h with
  | reads _ he => exact fun {st _ e} h => he st e (congrArg Prod.fst h)
  | @bind α β a f _ _ iha ihf =>
    intro st st' e h
    rcases ha : a st with ⟨e' | v, st₁⟩
    · rw [bind_error ha] at h
      cases h
      exact iha ha
    · rw [bind_ok ha] at h
      exact ihf v h
  | newList _ => exact nofun
  | newScope _ => exact nofun
  | define _ _ _ => exact nofun
  | write t =>
    intro st st' e h
    rw [Action.write] at h
    split at h <;> cases h
    trivial

end Plain

end Action

open LispEngines.Action (Plain Adds)

namespace Value

theorem adds_numbers (op : String) (a b : Value) : (numbers op a b).Adds := by
  refine .reads (fun st => ?_) fun st e he => ?_
  · cases a <;> cases b <;> rfl
  · cases a <;> cases b <;> cases he <;> trivial

theorem adds_add (a b : Value) : (add a b).Adds := by
  cases a with
  | number n => exact (adds_numbers "+" _ b).bind fun _ => .pure _
  | text s =>
    cases h : b.atomText? with
    | some t => simpa [add, h] using Adds.pure (Value.text (s ++ t))
    | none => simpa [add, h] using Adds.throw (e := .mismatch (.concatenate b.kind)) trivial
  | symbol s =>
    cases h : b.atomText? with
    | some t => simpa [add, h] using Adds.pure (Value.symbol (s ++ t))
    | none => simpa [add, h] using Adds.throw (e := .mismatch (.concatenate b.kind)) trivial
  | list r =>
    cases b with
    | list s => exact Adds.get.bind fun st => .newList (st.items r ++ st.items s)
    | _ => exact .throw trivial
  | _ => exact .throw trivial

theorem adds_sub (a b : Value) : (sub a b).Adds :=
  (adds_numbers "-" a b).bind fun _ => .pure _

theorem adds_mul (a b : Value) : (mul a b).Adds :=
  (adds_numbers "*" a b).bind fun _ => .pure _

theorem adds_div (a b : Value) : (div a b).Adds := by
  refine (adds_numbers "/" a b).bind fun p => ?_
  dsimp only
  split
  · exact (Adds.throw (by trivial)).bind fun _ => .pure _
  · exact .pure _

theorem adds_compare (op : Comparison) (a b : Value) : (compare op a b).Adds :=
  (adds_numbers op.name a b).bind fun _ => .pure _

theorem adds_head (v : Value) : v.head.Adds := by
  refine Adds.get.bind fun st => ?_
  cases v.get? st 0 with
  | some first => exact .pure first
  | none => exact .newNil

theorem adds_tail (v : Value) : v.tail.Adds :=
  Adds.get.bind fun st => .newList ((v.items st).drop 1)

end Value

namespace Native

theorem adds_expectList (op : String) (v : Value) : (expectList op v).Adds := by
  refine .reads (fun st => ?_) fun st e he => ?_
  · cases v <;> rfl
  · cases v <;> cases he <;> trivial

theorem adds_unary (args : List Value) {f : Value → Action Value} (hf : ∀ v, (f v).Adds) :
    (unary args f).Adds := by
  rcases args with _ | ⟨a, _ | ⟨b, rest⟩⟩
  · exact .throw trivial
  · exact hf a
  · exact .throw trivial

theorem adds_binary (args : List Value) {f : Value → Value → Action Value}
    (hf : ∀ v w, (f v w).Adds) : (binary args f).Adds := by
  rcases args with _ | ⟨a, _ | ⟨b, _ | ⟨c, rest⟩⟩⟩
  · exact .throw trivial
  · exact .throw trivial
  · exact hf a b
  · exact .throw trivial

theorem adds_foldlM {f : Value → Value → Action Value} (hf : ∀ v w, (f v w).Adds) :
    ∀ (args : List Value) (first : Value), (args.foldlM f first).Adds
  | [], first => .pure first
  | a :: args, first => by
    rw [List.foldlM_cons]
    exact (hf first a).bind fun v => adds_foldlM hf args v

theorem adds_folded (args : List Value) {f : Value → Value → Action Value}
    (hf : ∀ v w, (f v w).Adds) : (folded args f).Adds := by
  cases args with
  | nil => exact .throw trivial
  | cons first rest => exact adds_foldlM hf rest first

theorem adds_compared (args : List Value) (op : Comparison) : (compared args op).Adds :=
  adds_binary args fun a b => (Value.adds_compare op a b).bind fun _ => .pure _

/-- No native procedure changes what is there. -/
theorem adds_call (p : Native) (args : List Value) : (p.call args).Adds := by
  cases p with
  | plus => exact adds_folded args Value.adds_add
  | minus => exact adds_folded args Value.adds_sub
  | times => exact adds_folded args Value.adds_mul
  | divide => exact adds_folded args Value.adds_div
  | less | lessEqual | greater | greaterEqual | equalNumber => exact adds_compared args _
  | same => exact adds_binary args fun a b => Adds.get.bind fun _ => .pure _
  | head =>
    exact adds_unary args fun a => (adds_expectList "head" a).map.bind fun _ => a.adds_head
  | tail =>
    exact adds_unary args fun a => (adds_expectList "tail" a).map.bind fun _ => a.adds_tail
  | isNull => exact adds_unary args fun a => Adds.get.bind fun _ => .pure _
  | list => exact .newList args
  | cons =>
    exact adds_binary args fun a b =>
      (adds_expectList "cons" b).bind fun rest => .newList (a :: rest)
  | append =>
    exact adds_binary args fun a b =>
      (adds_expectList "append" a).bind fun front =>
        (adds_expectList "append" b).bind fun back => .newList (front ++ back)
  | length =>
    exact adds_unary args fun a => (adds_expectList "length" a).bind fun _ => .pure _
  | print =>
    exact Adds.get.bind fun st =>
      (Adds.write _).bind fun _ => (Adds.write _).bind fun _ => .newNil
  | str => exact Adds.get.bind fun _ => .pure _
  | describeScope =>
    refine adds_unary args fun a => ?_
    cases h : a.scope? with
    | some s => simpa [h] using Adds.get.bind fun _ => .pure _
    | none => simpa [h] using Adds.throw (e := .mismatch (.notDescribable a.kind)) trivial

/-- Every native procedure is made of the operations of the language. -/
theorem plain_call (p : Native) (args : List Value) : (p.call args).Plain := (p.adds_call args).plain

end Native

namespace ScopeNative

theorem adds_call (p : ScopeNative) (args : List Value) (s : ScopeRef) : (p.call args s).Adds := by
  cases p
  exact .pure _

theorem plain_call (p : ScopeNative) (args : List Value) (s : ScopeRef) :
    (p.call args s).Plain :=
  (p.adds_call args s).plain

end ScopeNative

namespace SpecialForm

theorem ofKeyword?_keyword (form : SpecialForm) : ofKeyword? form.keyword = some form := by
  cases form <;> decide

theorem head_eq_keyword {form : SpecialForm} {head : Value} {operands : List Value}
    (h : ofItems? (head :: operands) = some form) : head = .symbol form.keyword := by
  cases head with
  | symbol s =>
    have hs : (form.keyword == s) = true :=
      List.find?_some (p := fun f : SpecialForm => f.keyword == s) h
    rw [beq_iff_eq.mp hs]
  | _ => cases h

theorem operand_ok {form : SpecialForm} {items : List Value} {i : Nat} {v : Value}
    {st st' : Store} (h : form.operand items i st = (.ok v, st')) :
    items[i]? = some v ∧ st' = st := by
  rcases hi : items[i]? with _ | w
  · rw [operand, hi] at h
    cases h
  · rw [operand, hi] at h
    cases h
    exact ⟨rfl, rfl⟩

theorem boundName_ok {form : SpecialForm} {items : List Value} {name : String}
    {st st' : Store} (h : form.boundName items st = (.ok name, st')) :
    ∃ v, items[1]? = some v ∧ v.keyText? = some name ∧ st' = st := by
  rcases ho : form.operand items 1 st with ⟨e | v, st₁⟩
  · rw [boundName, Action.bind_error ho] at h
    cases h
  obtain ⟨hv, rfl⟩ := operand_ok ho
  rw [boundName, Action.bind_ok ho] at h
  cases hk : v.keyText? with
  | some key =>
    rw [Action.keyText_of_some hk] at h
    cases h
    exact ⟨v, hv, hk, rfl⟩
  | none =>
    rw [Action.keyText_of_none hk] at h
    cases h

theorem plain_operand (form : SpecialForm) (items : List Value) (i : Nat) :
    (form.operand items i).Plain := by
  rw [operand]
  split
  · exact .pure _
  · exact .throw trivial

theorem plain_boundName (form : SpecialForm) (items : List Value) :
    (form.boundName items).Plain :=
  (form.plain_operand items 1).bind fun v => .keyText v

theorem plain_selected (items : List Value) (test : Value) : (selected items test).Plain := by
  rw [selected]
  split
  · exact plain_operand .branch items 2
  · split
    · exact .pure _
    · exact .newNil

theorem plain_bind (form : SpecialForm) (name : String) (v : Value) (s : ScopeRef) :
    (form.bind name v s).Plain := by
  cases form with
  | assign => exact (Plain.assign s name v).bind fun _ => .pure v
  | _ => exact (Plain.define s name v).bind fun _ => .pure v

theorem plain_close (form : SpecialForm) (x : Value) (s : ScopeRef) : (form.close x s).Plain := by
  refine Plain.get.bind fun st => ?_
  cases x with
  | list r =>
    dsimp only
    split
    · exact (Plain.throw (by trivial)).bind fun _ => by cases form <;> exact .pure _
    · cases form <;> exact .pure _
  | _ => exact .throw trivial

end SpecialForm

namespace Closure

theorem plain_part (c : Closure) (i : Nat) : (c.part i).Plain := by
  refine Plain.get.bind fun st => ?_
  cases c.part? st i with
  | some v => exact .pure v
  | none => exact .newNil

end Closure

end LispEngines
