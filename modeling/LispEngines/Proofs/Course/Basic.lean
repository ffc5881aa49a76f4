import LispEngines.Proofs.Effects

/-!
# The course of an evaluation

The recursive engine keeps what it still has to do on the stack of its host.  Here that
stack is made visible.  A *course* is an evaluation caught at one moment: what is being
evaluated, or the value that has just been found, and for each evaluation around it what
it will do with the value.  `Course.step` takes one turn of the recursive engine's loop,
up to the next nested evaluation or from the end of one.

The number of nested evaluations that are active is the depth of the course.

An engine may look at the name in a definition before it evaluates the value, or only
when it binds the name.  `NameCheck` says which; nothing else is left open.

* `Classic.enter`, `Pending.resume`: one turn of the loop.
* `Course.step`: a turn as a step between courses.
* `Course.Leads`: a course becomes another in finitely many steps, the depth never
  exceeding a bound.
* `Course.Ends`: the whole evaluation comes to its end with an outcome.
* `Course.Outgrows`: it gets deeper than a bound.
-/

namespace LispEngines

namespace Classic

/-- When the name of a definition or an assignment is looked at. -/
inductive NameCheck where
  | beforeValue | afterValue
  deriving DecidableEq, Repr

/-- What an evaluation will do with the value of the nested evaluation that it has
started. -/
inductive Pending where
  /-- Choose between the branches of a conditional. -/
  | branch (items : List Value)
  /-- Bind the value to a name. -/
  | bind (form : SpecialForm) (name : Value)
  /-- Drop the value and go on with the rest of a sequence. -/
  | sequence (rest : List Value)
  /-- Call the value with operands that have not been evaluated yet. -/
  | operator (operands : List Value)
  /-- Take the value as the next argument of a call. -/
  | operand (callee : Value) (args rest : List Value)
  /-- Evaluate the value in place of the call that it is the expansion of. -/
  | expansion
  deriving DecidableEq, Repr

/-- What a turn of the loop comes to. -/
inductive Next where
  /-- The evaluation has a value. -/
  | value (v : Value)
  /-- It goes on with another expression in a tail position. -/
  | tail (x : Value) (s : ScopeRef)
  /-- It waits for the value of another expression. -/
  | nested (x : Value) (s : ScopeRef) (p : Pending)
  deriving DecidableEq, Repr

namespace Next

/-- The value that an action finds. -/
def ofValue (a : Action Value) : Action Next := do return .value (← a)

end Next

/-- Go on with a sequence whose remaining forms are given. -/
def sequence (s : ScopeRef) : List Value → Action Next
  | [] => Next.ofValue Action.newNil
  | [last] => pure (.tail last s)
  | e :: rest => pure (.nested e s (.sequence rest))

/-- The scope of a call of a closure. -/
def callScope (c : Closure) (args : List Value) : Action ScopeRef := do
  Action.bindParameters (← c.params) args c.scope

/-- Call a value that is no expander. -/
def call (callee : Value) (args : List Value) (s : ScopeRef) : Action Next :=
  match callee with
  | .lambda c => do
    let t ← callScope c args
    return .tail (← c.body) t
  | .native p => Next.ofValue (p.call args)
  | .scopeNative p => Next.ofValue (p.call args s)
  | other => do throw (.notCallable (other.shown (← get)))

/-- Go on with a call of which some operands have been evaluated. -/
def arguments (callee : Value) (args : List Value) (s : ScopeRef) : List Value → Action Next
  | [] => call callee args s
  | e :: rest => pure (.nested e s (.operand callee args rest))

/-- Begin a definition or an assignment. -/
def binding (check : NameCheck) (form : SpecialForm) (items : List Value) (s : ScopeRef) :
    Action Next :=
  match check with
  | .beforeValue => do
    discard (form.boundName items)
    return .nested (← form.operand items 2) s (.bind form (← form.operand items 1))
  | .afterValue =>
    match items[1]?, items[2]? with
    | some name, some v => pure (.nested v s (.bind form name))
    | _, _ => throw (.malformed ("'" ++ form.keyword ++ "' needs a name and a value"))

/-- Begin the evaluation of a list, `x`, with the given elements. -/
def form (check : NameCheck) (x : Value) (s : ScopeRef) (items : List Value) : Action Next :=
  match items with
  | [] => Next.ofValue Action.newNil
  | head :: operands =>
    match SpecialForm.ofItems? items with
    | some .quote => Next.ofValue (SpecialForm.operand .quote items 1)
    | some .branch => do
      return .nested (← SpecialForm.operand .branch items 1) s (.branch items)
    | some .define => binding check .define items s
    | some .assign => binding check .assign items s
    | some .lambda => Next.ofValue (SpecialForm.close .lambda x s)
    | some .expander => Next.ofValue (SpecialForm.close .expander x s)
    | some .sequence => sequence s operands
    | none => pure (.nested head s (.operator operands))

/-- Begin the evaluation of an expression. -/
def enter (check : NameCheck) (x : Value) (s : ScopeRef) : Action Next :=
  match x with
  | .symbol name => Next.ofValue (Action.lookup s name)
  | .list r => do form check x s ((← get).items r)
  | v => pure (.value v)

/-- Go on with the value of the nested evaluation. -/
def Pending.resume (p : Pending) (s : ScopeRef) (v : Value) : Action Next :=
  match p with
  | .branch items => do return .tail (← SpecialForm.selected items v) s
  | .bind form name => do Next.ofValue (form.bind (← Action.keyText name) v s)
  | .sequence rest => Classic.sequence s rest
  | .operator operands =>
    match v with
    | .expander c => do
      let t ← callScope c operands
      return .nested (← c.body) t .expansion
    | callee => arguments callee [] s operands
  | .operand callee args rest => arguments callee (args ++ [v]) s rest
  | .expansion => pure (.tail v s)

end Classic

/-! ## Turns are plain -/

namespace Classic

open LispEngines.Action (Plain)

theorem plain_ofValue {a : Action Value} (h : a.Plain) : (Next.ofValue a).Plain :=
  h.bind fun _ => .pure _

theorem plain_sequence (s : ScopeRef) (xs : List Value) : (sequence s xs).Plain := by
  rcases xs with _ | ⟨e, _ | ⟨e', rest⟩⟩
  · exact plain_ofValue .newNil
  · exact .pure _
  · exact .pure _

theorem plain_callScope (c : Closure) (args : List Value) :
    (callScope c args).Plain :=
  (c.plain_part 1).bind fun params => .bindParameters params args c.scope

theorem plain_call (callee : Value) (args : List Value) (s : ScopeRef) :
    (call callee args s).Plain := by
  cases callee with
  | lambda c =>
    exact (plain_callScope c args).bind fun _ => (c.plain_part 2).bind fun _ => .pure _
  | native p => exact plain_ofValue (p.plain_call args)
  | scopeNative p => exact plain_ofValue (p.plain_call args s)
  | _ => exact Plain.get.bind fun _ => .throw trivial

theorem plain_arguments (callee : Value) (args : List Value) (s : ScopeRef)
    (operands : List Value) : (arguments callee args s operands).Plain := by
  rcases operands with _ | ⟨e, rest⟩
  · exact plain_call callee args s
  · exact .pure _

theorem plain_binding (check : NameCheck) (form : SpecialForm) (items : List Value)
    (s : ScopeRef) : (binding check form items s).Plain := by
  cases check with
  | beforeValue =>
    exact (form.plain_boundName items).map.bind fun _ => (form.plain_operand items 2).bind fun _ =>
      (form.plain_operand items 1).bind fun _ => .pure _
  | afterValue =>
    rw [binding]
    split
    · exact .pure _
    · exact .throw trivial

theorem plain_form (check : NameCheck) (x : Value) (s : ScopeRef) (items : List Value) :
    (form check x s items).Plain := by
  rcases items with _ | ⟨head, operands⟩
  · exact plain_ofValue .newNil
  rw [form]
  rcases SpecialForm.ofItems? (head :: operands) with _ | (_ | _ | _ | _ | _ | _ | _)
  · exact .pure _
  · exact plain_ofValue (SpecialForm.plain_operand _ _ _)
  · exact (SpecialForm.plain_operand _ _ _).bind fun _ => .pure _
  · exact plain_binding check .define _ s
  · exact plain_binding check .assign _ s
  · exact plain_ofValue (SpecialForm.plain_close _ _ _)
  · exact plain_ofValue (SpecialForm.plain_close _ _ _)
  · exact plain_sequence s operands

theorem plain_enter (check : NameCheck) (x : Value) (s : ScopeRef) :
    (enter check x s).Plain := by
  cases x with
  | symbol name => exact plain_ofValue (.lookup s name)
  | list r => exact Plain.get.bind fun st => plain_form check _ s _
  | _ => exact .pure _

theorem Pending.plain_resume (p : Pending) (s : ScopeRef) (v : Value) :
    (p.resume s v).Plain := by
  cases p with
  | branch items => exact (SpecialForm.plain_selected items v).bind fun _ => .pure _
  | bind form name =>
    exact (Plain.keyText name).bind fun key =>
      plain_ofValue (form.plain_bind key v s)
  | sequence rest => exact plain_sequence s rest
  | operator operands =>
    cases v with
    | expander c =>
      exact (plain_callScope c operands).bind fun _ =>
        (c.plain_part 2).bind fun _ => .pure _
    | _ => exact plain_arguments _ [] s operands
  | operand callee args rest => exact plain_arguments callee (args ++ [v]) s rest
  | expansion => exact .pure _

end Classic

open Classic (NameCheck Pending Next)

/-- An evaluation that has started a nested one. -/
structure Level where
  pending : Pending
  scope : ScopeRef
  deriving DecidableEq, Repr

/-- What a course is about to do. -/
inductive Control where
  /-- Evaluate an expression in a scope. -/
  | eval (x : Value) (s : ScopeRef)
  /-- Hand a value to the evaluation around. -/
  | value (v : Value)
  deriving DecidableEq, Repr

/-- An evaluation at one moment.  The innermost level comes first. -/
structure Course where
  control : Control
  levels : List Level := []
  deriving DecidableEq, Repr

namespace Course

/-- The course of an evaluation that is about to begin. -/
def start (x : Value) (s : ScopeRef) : Course := { control := .eval x s }

/-- How many nested evaluations are active. -/
def depth (c : Course) : Nat := c.levels.length + 1

/-- What becomes of a turn that was taken in a scope, within the levels around. -/
def follow (s : ScopeRef) (levels : List Level) : Next → Course
  | .value v => ⟨.value v, levels⟩
  | .tail x t => ⟨.eval x t, levels⟩
  | .nested x t p => ⟨.eval x t, ⟨p, s⟩ :: levels⟩

/-- One turn.  A value that no evaluation waits for stays. -/
def step (check : NameCheck) : Course → Action Course
  | ⟨.eval x s, levels⟩ => do return follow s levels (← Classic.enter check x s)
  | ⟨.value v, ⟨p, s⟩ :: levels⟩ => do return follow s levels (← p.resume s v)
  | ⟨.value v, []⟩ => pure ⟨.value v, []⟩

/-- The value of an evaluation that has ended. -/
def value? (c : Course) : Option Value :=
  match c with
  | ⟨.value v, []⟩ => some v
  | _ => none

/-- The first course, at the first store, becomes the second one in a number of steps.
Neither it nor any course on the way is deeper than `bound`. -/
inductive Leads (check : NameCheck) (bound : Nat) :
    Nat → Course → Store → Course → Store → Prop
  | refl {c : Course} {st : Store} (h : c.depth ≤ bound) : Leads check bound 0 c st c st
  | head {k : Nat} {c c₁ c₂ : Course} {st st₁ st₂ : Store} (h : c.depth ≤ bound)
      (hv : c.value? = none) (hs : c.step check st = (.ok c₁, st₁))
      (hr : Leads check bound k c₁ st₁ c₂ st₂) : Leads check bound (k + 1) c st c₂ st₂

/-- What is evaluated inside `levels` comes to its end in a number of steps, with a value
for them or with a failure, and never gets deeper than `bound`. -/
inductive EndsIn (check : NameCheck) (bound : Nat) (levels : List Level) :
    Nat → Course → Store → Except Failure Value → Store → Prop
  | value {k : Nat} {c : Course} {v : Value} {st st' : Store}
      (h : Leads check bound k c st ⟨.value v, levels⟩ st') :
      EndsIn check bound levels k c st (.ok v) st'
  | failure {k : Nat} {c c' : Course} {st st₁ st' : Store} {e : Failure}
      (h : Leads check bound k c st c' st₁) (hf : c'.step check st₁ = (.error e, st')) :
      EndsIn check bound levels k c st (.error e) st'

/-- The evaluation comes to its end, and never gets deeper than `bound`. -/
def Ends (check : NameCheck) (bound : Nat) (c : Course) (st : Store)
    (r : Except Failure Value) (st' : Store) : Prop :=
  ∃ k, EndsIn check bound [] k c st r st'

/-- The course gets deeper than `bound` after a number of steps, and not before; the second
store is the one at that moment. -/
inductive Outgrows (check : NameCheck) (bound : Nat) : Nat → Course → Store → Store → Prop
  | here {c : Course} {st : Store} (h : c.depth = bound + 1) : Outgrows check bound 0 c st st
  | head {k : Nat} {c c₁ : Course} {st st₁ st' : Store} (h : c.depth ≤ bound)
      (hv : c.value? = none) (hs : c.step check st = (.ok c₁, st₁))
      (hr : Outgrows check bound k c₁ st₁ st') : Outgrows check bound (k + 1) c st st'

variable {check : NameCheck} {bound k m : Nat} {c c₁ c₂ : Course} {st st₁ st₂ : Store}
  {r : Except Failure Value} {levels : List Level}

@[simp] theorem start_depth (x : Value) (s : ScopeRef) : (start x s).depth = 1 := rfl

@[simp] theorem value?_eval (x : Value) (s : ScopeRef) (levels : List Level) :
    value? ⟨.eval x s, levels⟩ = none := rfl

@[simp] theorem value?_value_cons (v : Value) (l : Level) (levels : List Level) :
    value? ⟨.value v, l :: levels⟩ = none := rfl

theorem step_eval (x : Value) (s : ScopeRef) (levels : List Level) (st : Store) :
    step check ⟨.eval x s, levels⟩ st =
      ((Classic.enter check x s st).1.map (follow s levels), (Classic.enter check x s st).2) := by
  rw [step, Action.bind_apply]
  rcases Classic.enter check x s st with ⟨_ | _, _⟩ <;> rfl

theorem step_value (p : Pending) (s : ScopeRef) (v : Value) (levels : List Level) (st : Store) :
    step check ⟨.value v, ⟨p, s⟩ :: levels⟩ st =
      ((p.resume s v st).1.map (follow s levels), (p.resume s v st).2) := by
  rw [step, Action.bind_apply]
  rcases p.resume s v st with ⟨_ | _, _⟩ <;> rfl

/-- A turn is made of the operations of the language. -/
theorem plain_step (check : NameCheck) : ∀ c : Course, (step check c).Plain
  | ⟨.eval x s, _⟩ => (Classic.plain_enter check x s).bind fun _ => .pure _
  | ⟨.value v, ⟨p, s⟩ :: _⟩ => (p.plain_resume s v).bind fun _ => .pure _
  | ⟨.value _, []⟩ => .pure _

theorem step_eval_ok {x : Value} {s : ScopeRef} {next : Next}
    (h : Classic.enter check x s st = (.ok next, st₁)) :
    step check ⟨.eval x s, levels⟩ st = (.ok (follow s levels next), st₁) := by
  rw [step, Action.bind_ok h]
  rfl

theorem step_eval_error {x : Value} {s : ScopeRef} {e : Failure}
    (h : Classic.enter check x s st = (.error e, st₁)) :
    step check ⟨.eval x s, levels⟩ st = (.error e, st₁) := by
  rw [step, Action.bind_error h]

theorem step_value_ok {p : Pending} {s : ScopeRef} {v : Value} {next : Next}
    (h : p.resume s v st = (.ok next, st₁)) :
    step check ⟨.value v, ⟨p, s⟩ :: levels⟩ st = (.ok (follow s levels next), st₁) := by
  rw [step, Action.bind_ok h]
  rfl

theorem step_value_error {p : Pending} {s : ScopeRef} {v : Value} {e : Failure}
    (h : p.resume s v st = (.error e, st₁)) :
    step check ⟨.value v, ⟨p, s⟩ :: levels⟩ st = (.error e, st₁) := by
  rw [step, Action.bind_error h]

/-- Only what has not ended can fail. -/
theorem value?_of_error {e : Failure} (h : c.step check st = (.error e, st₁)) :
    c.value? = none := by
  obtain ⟨x | v, _ | ⟨l, levels⟩⟩ := c <;> first | rfl | cases h

theorem Leads.depth_le (h : Leads check bound k c st c₁ st₁) : c.depth ≤ bound := by
  cases h <;> assumption

theorem Leads.depth_le_last (h : Leads check bound k c st c₁ st₁) : c₁.depth ≤ bound := by
  induction h with
  | refl h => exact h
  | head _ _ _ _ ih => exact ih

theorem Leads.mono {bound' : Nat} (hb : bound ≤ bound') (h : Leads check bound k c st c₁ st₁) :
    Leads check bound' k c st c₁ st₁ := by
  induction h with
  | refl h => exact .refl (Nat.le_trans h hb)
  | head h hv hs _ ih => exact .head (Nat.le_trans h hb) hv hs ih

theorem Leads.trans (h : Leads check bound k c st c₁ st₁) :
    Leads check bound m c₁ st₁ c₂ st₂ → Leads check bound (k + m) c st c₂ st₂ := by
  induction h with
  | refl _ => intro h'; rwa [Nat.zero_add]
  | head h hv hs _ ih => intro h'; rw [Nat.add_right_comm]; exact .head h hv hs (ih h')

theorem Leads.single (hv : c.value? = none) (hs : c.step check st = (.ok c₁, st₁)) :
    Leads check (max c.depth c₁.depth) 1 c st c₁ st₁ :=
  .head (Nat.le_max_left _ _) hv hs (.refl (Nat.le_max_right _ _))

theorem EndsIn.head (h : c.depth ≤ bound) (hv : c.value? = none)
    (hs : c.step check st = (.ok c₁, st₁)) (hr : EndsIn check bound levels k c₁ st₁ r st₂) :
    EndsIn check bound levels (k + 1) c st r st₂ := by
  cases hr with
  | value hl => exact .value (.head h hv hs hl)
  | failure hl hf => exact .failure (.head h hv hs hl) hf

/-- An evaluation that ends takes a step unless it has ended, with a value or with a
failure in this step. -/
theorem EndsIn.cases_head (h : EndsIn check bound [] k c st r st₂) (hv : c.value? = none) :
    c.depth ≤ bound ∧
      ((∃ e, c.step check st = (.error e, st₂) ∧ r = .error e) ∨
        ∃ m c₁ st₁, k = m + 1 ∧ c.step check st = (.ok c₁, st₁) ∧
          EndsIn check bound [] m c₁ st₁ r st₂) := by
  cases h with
  | value hl =>
    cases hl with
    | refl _ => cases hv
    | head h _ hs hr => exact ⟨h, .inr ⟨_, _, _, rfl, hs, .value hr⟩⟩
  | failure hl hf =>
    cases hl with
    | refl h => exact ⟨h, .inl ⟨_, hf, rfl⟩⟩
    | head h _ hs hr => exact ⟨h, .inr ⟨_, _, _, rfl, hs, .failure hr hf⟩⟩

/-- What comes before the end may be put before it. -/
theorem EndsIn.prepend (h : Leads check bound m c st c₁ st₁)
    (h' : EndsIn check bound levels k c₁ st₁ r st₂) :
    EndsIn check bound levels (m + k) c st r st₂ := by
  cases h' with
  | value hl => exact .value (h.trans hl)
  | failure hl hf => exact .failure (h.trans hl) hf

theorem EndsIn.mono {bound' : Nat} (hb : bound ≤ bound')
    (h : EndsIn check bound levels k c st r st₂) : EndsIn check bound' levels k c st r st₂ := by
  cases h with
  | value hl => exact .value (hl.mono hb)
  | failure hl hf => exact .failure (hl.mono hb) hf

/-- An evaluation that ends has its way there. -/
theorem EndsIn.after {bound' : Nat} (hl : Leads check bound' m c st c₁ st₁) :
    ∀ {k : Nat}, EndsIn check bound [] k c st r st₂ →
      ∃ j, k = m + j ∧ EndsIn check bound [] j c₁ st₁ r st₂ := by
  induction hl with
  | refl _ => intro k h; exact ⟨k, (Nat.zero_add k).symm, h⟩
  | head _ hv hs _ ih =>
    intro k h
    obtain ⟨-, ⟨e, he, -⟩ | ⟨i, c', st', rfl, hs', h'⟩⟩ := h.cases_head hv
    · cases hs.symm.trans he
    · cases hs.symm.trans hs'
      obtain ⟨j, rfl, hj⟩ := ih h'
      exact ⟨j, Nat.add_right_comm _ _ _, hj⟩

/-- A value that no evaluation waits for is the end. -/
theorem EndsIn.of_value {v : Value} (h : EndsIn check bound [] k ⟨.value v, []⟩ st r st₂) :
    r = .ok v ∧ st₂ = st := by
  cases h with
  | value hl =>
    cases hl with
    | refl _ => exact ⟨rfl, rfl⟩
    | head _ hv _ _ => cases hv
  | failure hl hf =>
    cases hl with
    | refl _ => cases hf
    | head _ hv _ _ => cases hv

/-! ## Courses that get too deep -/

theorem Outgrows.prepend (h : Leads check bound m c st c₁ st₁) :
    Outgrows check bound k c₁ st₁ st₂ → Outgrows check bound (m + k) c st st₂ := by
  induction h with
  | refl _ => intro h'; rwa [Nat.zero_add]
  | head h hv hs _ ih => intro h'; rw [Nat.add_right_comm]; exact .head h hv hs (ih h')

/-- A course that gets too deep has its way there. -/
theorem Outgrows.after (hl : Leads check bound m c st c₁ st₁) :
    ∀ {k : Nat}, Outgrows check bound k c st st₂ →
      ∃ j, k = m + j ∧ Outgrows check bound j c₁ st₁ st₂ := by
  induction hl with
  | refl _ => intro k h; exact ⟨k, (Nat.zero_add k).symm, h⟩
  | head hd _ hs _ ih =>
    intro k h
    cases h with
    | here h => omega
    | head _ _ hs' h' =>
      cases hs.symm.trans hs'
      obtain ⟨j, rfl, hj⟩ := ih h'
      exact ⟨j, Nat.add_right_comm _ _ _, hj⟩

theorem Outgrows.unique (h : Outgrows check bound k c st st₁) :
    ∀ {m : Nat}, Outgrows check bound m c st st₂ → st₁ = st₂ := by
  induction h with
  | here h =>
    intro m h'
    cases h' with
    | here _ => rfl
    | head hd _ _ _ => omega
  | head hd _ hs _ ih =>
    intro m h'
    cases h' with
    | here h => omega
    | head _ _ hs' h' =>
      cases hs.symm.trans hs'
      exact ih h'

/-- A course that comes to its end keeps every bound above its own. -/
theorem Outgrows.not_endsIn {bound' : Nat} (h : Outgrows check bound k c st st₁)
    (hb : bound' ≤ bound) : ∀ {m : Nat}, ¬ EndsIn check bound' [] m c st r st₂ := by
  induction h with
  | @here c st hd =>
    intro m h'
    have hd' : c.depth ≤ bound' := by cases h' <;> exact Leads.depth_le (by assumption)
    omega
  | head _ hv hs _ ih =>
    intro m h'
    obtain ⟨-, ⟨e, he, -⟩ | ⟨j, c', st', -, hs', h'⟩⟩ := h'.cases_head hv
    · cases hs.symm.trans he
    · cases hs.symm.trans hs'
      exact ih h'

/-- A turn starts one nested evaluation at most. -/
theorem step_depth_le (hs : c.step check st = (.ok c₁, st₁)) : c₁.depth ≤ c.depth + 1 := by
  have hf (s : ScopeRef) (levels : List Level) (next : Next) :
      (follow s levels next).levels.length ≤ levels.length + 1 := by
    cases next <;> simp [follow]
  obtain ⟨⟨x, s⟩ | v, levels⟩ := c
  · rw [step_eval, Prod.mk.injEq] at hs
    rcases hx : (Classic.enter check x s st).1 with e | next <;> rw [hx] at hs
    · cases hs.1
    · cases hs.1
      exact Nat.succ_le_succ (hf s levels next)
  · rcases levels with _ | ⟨⟨p, s⟩, levels⟩
    · cases hs
      exact Nat.le_succ _
    · rw [step_value, Prod.mk.injEq] at hs
      rcases hx : (p.resume s v st).1 with e | next <;> rw [hx] at hs
      · cases hs.1
      · cases hs.1
        exact Nat.le_succ_of_le (Nat.succ_le_succ (hf s levels next))

/-! ## Sequences without forms -/

/-- The course is about to evaluate a list that has the symbol `begin` for its only
element. -/
def AtBareSequence (c : Course) (st : Store) : Prop :=
  ∃ r s, c.control = .eval (.list r) s ∧ st.items r = [.symbol "begin"]

/-- The course never comes to a sequence without forms. -/
def AvoidsBareSequence (check : NameCheck) (c : Course) (st : Store) : Prop :=
  ∀ bound k c' st', Leads check bound k c st c' st' → ¬ c'.AtBareSequence st'

/-- The course does not come to one before it gets deeper than `bound`. -/
def SparesBareSequence (check : NameCheck) (bound : Nat) (c : Course) (st : Store) : Prop :=
  ∀ k c' st', Leads check bound k c st c' st' → ¬ c'.AtBareSequence st'

theorem AvoidsBareSequence.spares (h : AvoidsBareSequence check c st) (bound : Nat) :
    SparesBareSequence check bound c st := h bound

theorem SparesBareSequence.leads (h : SparesBareSequence check bound c st)
    (hl : Leads check bound k c st c₁ st₁) : SparesBareSequence check bound c₁ st₁ :=
  fun _ _ _ hl' => h _ _ _ (hl.trans hl')

theorem AvoidsBareSequence.leads (h : AvoidsBareSequence check c st)
    (hl : Leads check bound k c st c₁ st₁) : AvoidsBareSequence check c₁ st₁ := by
  intro bound' j c' st' hl'
  exact h (max bound bound') (k + j) c' st'
    ((hl.mono (Nat.le_max_left _ _)).trans (hl'.mono (Nat.le_max_right _ _)))

/-- Whether an evaluation is seen to end within a number of steps, and to avoid sequences
without forms on its way. -/
def sparesBareSequence (check : NameCheck) : (steps : Nat) → Course → Store → Bool
  | 0, _, _ => false
  | steps + 1, c, st =>
    (match c.control with
      | .eval (.list r) _ => st.items r != [.symbol "begin"]
      | _ => true) &&
    (c.value?.isSome ||
      match c.step check st with
      | (.ok c', st') => sparesBareSequence check steps c' st'
      | (.error _, _) => true)

theorem avoids_of_spares : ∀ {steps : Nat} {c : Course} {st : Store},
    sparesBareSequence check steps c st = true → AvoidsBareSequence check c st := by
  intro steps
  induction steps with
  | zero => intro c st h; cases h
  | succ steps ih =>
    intro c st h bound k c' st' hl
    obtain ⟨hb, hs⟩ := Bool.and_eq_true_iff.mp h
    cases hl with
    | refl _ =>
      rintro ⟨r, s, hc, hi⟩
      rw [hc] at hb
      simp [hi] at hb
    | head _ hv hs' hl =>
      rw [hv, hs'] at hs
      exact ih hs _ _ _ _ hl

end Course

end LispEngines
