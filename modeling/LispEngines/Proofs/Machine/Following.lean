import LispEngines.Proofs.Machine.Twins

/-!
# The evaluator follows the course

When the machine is where the course is, and the course takes a step, then the machine goes
on to where the course is then; or both fail.  This is shown here for every step of a
course, with how high the stack gets and what becomes of the store on the way.

* `Between`: what is known of every store on the way.
* `Follows`: the machine follows a step.
* `Framed`: an innermost frame and those around it.
* `follows_eval`, `follows_value`: it does so whatever the course is about to do.
-/

namespace LispEngines

/-- Whether an instruction carries out what a program asks for: it works with scopes, or it
calls a native procedure. -/
def Opcode.acts : Opcode → Bool
  | .lookup | .assign | .define | .newScope | .invoke => true
  | _ => false

namespace Machine

theorem Setting.Reaches.least_le {E : Setting} {j k : Nat} {v : View} {st : Store}
    {P : Machine → Store → Prop} (h : E.Reaches k v st P) (hj : j ≤ k) : E.Reaches j v st P := by
  intro m hm
  obtain ⟨i, m', st', hi, hp⟩ | h := h m hm
  · exact .inl ⟨i, m', st', Nat.le_trans hj hi, hp⟩
  · exact .inr h

/-- The machine is there already. -/
theorem Setting.Reaches.here {E : Setting} {v : View} {st : Store} {P : Machine → Store → Prop}
    (hk : E.Kept st) (h : ∀ m, Shows E.program E.size m v → P m st) : E.Reaches 0 v st P :=
  fun m hm => .inl ⟨0, m, st, Nat.le_refl 0, .refl m hk, h m hm⟩

namespace Evaluator

open Classic (Pending Next)
open Course (Leads)

/-! ## What it is to follow a step -/

/-- A store on the way of the machine.  Either it is the one at the end, or the machine has
worked for itself alone, so that the first store has not grown yet.  The lists that were made
on the way are what they will be at the end. -/
structure Between (empty : ListRef) (ρ : Renaming) (st st' last mid : Store) : Prop where
  pursued : mid = last ∨ ∃ sink, Pursues empty ρ st st' ρ { st with sink } mid
  fresh : ∀ r : ListRef, st'.lists.size ≤ r.index → r.index < mid.lists.size →
    mid.items r = last.items r

/-- The machine fails like the course, or stops with a message that says so.  If the message
cannot be written, that is why it fails. -/
inductive Refuses (e : Failure) (st : Store) (m : Machine) (st₁ : Store) : Prop
  | fails {op : Opcode} (ho : op.acts = true) (h : FailsIn m st₁ op e st)
  | halts {detail : String} (he : e = .malformed detail)
      (h : Halts (Failure.malformedHalt ++ detail) st m st₁)
  | closed {detail : String} (he : e = .malformed detail)
      (hw : st.sink.write? (Failure.malformedHalt ++ detail ++ "\n") = none)
      (h : FailsIn m st₁ .halt (.fault (.output Action.sinkClosed)) st)

/-- The setting of the machine while the course takes a step. -/
@[simp] def stretch (empty : ListRef) (size depth : Nat) (ρ : Renaming) (st st' last : Store) :
    Setting where
  program := program empty
  size
  need := 10 * depth + 4
  Kept := Between empty ρ st st' last

/-- The machine has come to where the course is. -/
def Arrives (empty : ListRef) (size : Nat) (ρ : Renaming) (st st' : Store) (c : Course)
    (m : Machine) (st₁ : Store) : Prop :=
  st₁ = st' ∧ ∃ v, At size ρ st st' c v ∧ Shows (program empty) size m v

/-- The course takes a step, or two in a row, and the machine gets to where it is then; or it
fails, and the machine fails like it. -/
inductive Follows (empty : ListRef) (size : Nat) (ρ : Renaming) (st st' : Store) (c : Course)
    (v : View) : Prop
  | goes {k : Nat} {c₁ : Course} {ρ₁ : Renaming} {st₁ st₁' : Store}
      (hl : Leads .afterValue (max c.depth c₁.depth) (k + 1) c st c₁ st₁)
      (hp : Pursues empty ρ st st' ρ₁ st₁ st₁')
      (hr : (stretch empty size (max c.depth c₁.depth) ρ st st' st₁').Reaches 1 v st'
        (Arrives empty size ρ₁ st₁ st₁' c₁))
  | fails {e : Failure} {ρ₁ : Renaming} {st₁ st₁' : Store}
      (hs : c.step .afterValue st = (.error e, st₁))
      (hp : Pursues empty ρ st st' ρ₁ st₁ st₁')
      (hr : (stretch empty size c.depth ρ st st' st₁').Reaches 0 v st' (Refuses e st₁'))

variable {empty : ListRef} {size : Nat} {ρ ρ₁ ρ₂ : Renaming} {st st' st₁ st₁' last mid : Store}
  {c c₁ : Course} {v w : View}

theorem Between.ended : Between empty ρ st st' mid mid := ⟨.inl rfl, fun _ _ _ => rfl⟩

/-- The machine has worked for itself. -/
theorem Between.of_pursues (hp : Pursues empty ρ st st' ρ st mid) (hk : mid.KeepsLists last) :
    Between empty ρ st st' last mid :=
  ⟨.inr ⟨st.sink, hp⟩, fun r _ hr => (hk.items_eq r hr).symm⟩

theorem Between.first (h : Twins empty ρ st st') : Between empty ρ st st' last st' :=
  ⟨.inr ⟨st.sink, .refl h⟩, fun _ hr hl => absurd hl (Nat.not_lt_of_le hr)⟩

/-- Nothing happens to the store but in the end. -/
theorem Follows.of_comes (hs : c.step .afterValue st = (.ok c₁, st₁)) (hv : c.value? = none)
    (hp : Pursues empty ρ st st' ρ₁ st₁ st₁')
    (hc : (stretch empty size (max c.depth c₁.depth) ρ st st' st₁').Comes v st' w st₁')
    (ha : (stretch empty size (max c.depth c₁.depth) ρ st st' st₁').Reaches 0 w st₁'
      (Arrives empty size ρ₁ st₁ st₁' c₁)) : Follows empty size ρ st st' c v :=
  .goes (.single hv hs) hp (hc.reaches ha (Nat.le_refl 1))

/-- First the machine does something on its own, and then it carries out an action of the
course. -/
theorem Follows.of_action {α β : Type} {a : Action α} {a' : Action β}
    {R : Renaming → Store → α → β → Prop} (op : Opcode) (next : α → Course) (g : β → View)
    (ho : op.acts = true) (hm : Pursues empty ρ st st' ρ st mid)
    (hf : Action.Follows (.same true) ρ st mid R a a')
    (hs : c.step .afterValue st = ((a st).1.map next, (a st).2)) (hv : c.value? = none)
    (hd : ∀ y, (next y).depth ≤ c.depth)
    (hrun : ∀ {last n P}, mid.KeepsLists last →
      (stretch empty size c.depth ρ st st' last).Reaches n w mid P →
        (stretch empty size c.depth ρ st st' last).Reaches n v st' P)
    (hperf : ∀ {last}, mid.KeepsLists last →
      (stretch empty size c.depth ρ st st' last).Performs w mid op a' g)
    (hat : ∀ {ρ₁ st₁ st₁' y z}, Pursues empty ρ st mid ρ₁ st₁ st₁' → mid.KeepsLists st₁' →
      R ρ₁ st₁ y z → (stretch empty size c.depth ρ st st' st₁').Reaches 0 (g z) st₁'
        (Arrives empty size ρ₁ st₁ st₁' (next y))) : Follows empty size ρ st st' c v := by
  unfold Action.Follows at hf
  generalize ha : a st = out at hf hs
  generalize ha' : a' mid = out' at hf
  cases hf with
  | error hp hx =>
    have hpm := Pursues.of_extends hm.twins hp hx
    have hlast := hx.grows'.lists
    refine .fails hs (hm.trans hpm) (hrun hlast (((hperf hlast).error ha' .ended).imp ?_))
    exact fun m s hfail => .fails ho hfail
  | @ok _ _ _ y z hp hx hr =>
    have hpm := Pursues.of_extends hm.twins hp hx
    have hlast := hx.grows'.lists
    have hdepth : max c.depth (next y).depth = c.depth := Nat.max_eq_left (hd y)
    refine .goes (.single hv hs) (hm.trans hpm) ?_
    rw [hdepth]
    exact hrun hlast (((hperf hlast).ok ha' .ended).reaches (hat hpm hlast hr) (Nat.le_refl 1))

/-! ## Frames -/

/-- The innermost frame, with those around it on the stack. -/
structure Framed (empty : ListRef) (size : Nat) (ρ : Renaming) (st st' : Store) (old : Nat)
    (s : ScopeRef) (levels : List Level) (pc base : Nat) (below : List Value) (f : Activation) :
    Prop where
  twins : Twins empty ρ st st'
  stacked : Stacked size ρ st st' old levels pc base below
  old_le : old ≤ st'.lists.size
  returns : f.Returns size below pc base
  scope : f.scope = .scope (ρ.scope s)
  scope_lt : s.index < st.scopes.size

variable {E : Setting} {old pc base k : Nat} {s t : ScopeRef} {levels : List Level}
  {below temps : List Value} {f g : Activation} {x y : Value} {p : Pending} {b : Block}

namespace Framed

theorem pursue (h : Framed empty size ρ st st' old s levels pc base below f)
    (hx : Pursues empty ρ st st' ρ₁ st₁ st₁')
    (hk : ∀ r : ListRef, r.index < old → st₁'.items r = st'.items r)
    (hg : g.Returns size below pc base) (hs : g.scope = .scope (ρ₁.scope t))
    (ht : t.index < st₁.scopes.size) :
    Framed empty size ρ₁ st₁ st₁' old t levels pc base below g where
  twins := hx.twins
  stacked := h.stacked.mono hx (Nat.le_refl _) hk
  old_le := Nat.le_trans h.old_le hx.carries.lists_le'
  returns := hg
  scope := hs
  scope_lt := ht

/-- The frame stays, and something happens around it. -/
theorem mono (h : Framed empty size ρ st st' old s levels pc base below f)
    (hx : Pursues empty ρ st st' ρ₁ st₁ st₁') (hk : st'.KeepsLists st₁')
    (hl : g.link = f.link) (hb : g.back = f.back) (hs : g.scope = f.scope) :
    Framed empty size ρ₁ st₁ st₁' old s levels pc base below g := by
  refine h.pursue hx (fun r hr => hk.items_eq r (Nat.lt_of_lt_of_le hr h.old_le)) ?_ ?_
    (Nat.lt_of_lt_of_le h.scope_lt hx.grows.scopes)
  · rw [Activation.Returns, hl, hb]
    exact h.returns
  · rw [hs, h.scope, hx.carries.agree.scope s h.scope_lt]

theorem with_slots (h : Framed empty size ρ st st' old s levels pc base below f)
    (hl : g.link = f.link) (hb : g.back = f.back) (hs : g.scope = f.scope) :
    Framed empty size ρ st st' old s levels pc base below g :=
  h.mono (.refl h.twins) (.refl st') hl hb hs

/-- There is room for a stretch that does not call, -/
theorem room (h : Framed empty size ρ st st' old s levels pc base below f) {depth : Nat}
    (hd : levels.length + 1 ≤ depth) (hk : E.Kept st') (hp : E.program = program empty)
    (hn : E.need = 10 * depth + 4) : Ready E empty (below.length + 10) st' where
  program := hp
  room := by
    have hl := h.stacked.length_le
    omega
  kept := hk

/-- and at one more level for one that does. -/
theorem room_call (h : Framed empty size ρ st st' old s levels pc base below f) {depth : Nat}
    (hd : levels.length + 2 ≤ depth) (hk : E.Kept st') (hp : E.program = program empty)
    (hn : E.need = 10 * depth + 4) : Ready E empty (below.length + 20) st' where
  program := hp
  room := by
    have hl := h.stacked.length_le
    omega
  kept := hk

theorem ready (h : Framed empty size ρ st st' old s levels pc base below f) (last : Store)
    {depth : Nat} (hd : levels.length + 1 ≤ depth) :
    Ready (stretch empty size depth ρ st st' last) empty (below.length + 10) st' :=
  h.room hd (Between.first h.twins) rfl rfl

theorem ready_call (h : Framed empty size ρ st st' old s levels pc base below f) (last : Store)
    {depth : Nat} (hd : levels.length + 2 ≤ depth) :
    Ready (stretch empty size depth ρ st st' last) empty (below.length + 20) st' :=
  h.room_call hd (Between.first h.twins) rfl rfl

theorem arrives_value (h : Framed empty size ρ st st' old s levels pc base below f)
    (hsize : E.size = size) (hprog : E.program = program empty) (hk : E.Kept st') {z z' : Value}
    (hv : y = x.rename ρ) (hw : x.Within true st) :
    E.Reaches 0 (returned pc base z z' below y) st'
      (Arrives empty size ρ st st' ⟨.value x, levels⟩) := by
  subst hsize hv
  refine .here hk fun m hm => ⟨rfl, _, .value (h.stacked.mono (.refl h.twins) h.old_le
    fun _ _ => rfl) hw, hprog ▸ hm⟩

theorem arrives_tail (h : Framed empty size ρ st st' old s levels pc base below f)
    (hsize : E.size = size) (hprog : E.program = program empty) (hk : E.Kept st') {a : Value}
    (hx : f.x = x.rename ρ) (hw : x.Within true st) :
    E.Reaches 0 (f.view .evalTop [] below a) st'
      (Arrives empty size ρ st st' ⟨.eval x s, levels⟩) := by
  subst hsize
  refine .here hk fun m hm => ⟨rfl, _, .eval (h.stacked.mono (.refl h.twins) h.old_le
    fun _ _ => rfl) h.returns hx h.scope hw h.scope_lt, hprog ▸ hm⟩

theorem arrives_nested (h : Framed empty size ρ st st' old s levels pc base below f)
    (hsize : E.size = size) (hr : Ready E empty (below.length + 20) st')
    (hwait : Waits ρ st st' old st'.lists.size p b temps f) {z : Value}
    (hz : z = .scope (ρ.scope t)) (hy : y = x.rename ρ) (hw : x.Within true st)
    (ht : t.index < st.scopes.size) :
    E.Reaches 0 (called b.start (4 + temps.length) z y (temps ++ f.cells below)) st'
      (Arrives empty size ρ st st' ⟨.eval x t, ⟨p, s⟩ :: levels⟩) := by
  subst hsize hz hy
  have hst : Stacked E.size ρ st st' st'.lists.size (⟨p, s⟩ :: levels) b.start (4 + temps.length)
      (temps ++ f.cells below) := .level h.old_le h.stacked h.returns h.scope h.scope_lt hwait
  have htemps := hwait.temps_le
  have hready : Ready E empty ((temps ++ f.cells below).length + 10) st' :=
    hr.mono (by simp; omega) hr.kept
  refine ((entered hready hst.pc_lt).imp ?_).least_le (Nat.zero_le 1)
  rintro m _ ⟨rfl, g, a, hgs, hgx, hgr, hm⟩
  exact ⟨rfl, _, .eval hst hgr hgx hgs hw ht, hr.program ▸ hm⟩

end Framed

/-- The course rejects a form, and the machine stops with a message. -/
theorem Follows.of_rejection (h : Framed empty size ρ st st' old s levels pc base below f)
    {detail : String} {n : Int64} {a : Value}
    (hs : c.step .afterValue st = (.error (.malformed detail), st))
    (hd : levels.length + 1 ≤ c.depth)
    (hc : (stretch empty size c.depth ρ st st' st').Comes v st' (g.view b [] below a) st')
    (hb : b.code = [⟨.halt, n⟩])
    (hn : (program empty).constant? n = some (.text (Failure.malformedHalt ++ detail))) :
    Follows empty size ρ st st' c v := by
  have hr := h.ready st' hd
  have hk : ∀ sink, Between empty ρ st st' st' { st' with sink } := fun sink =>
    ⟨.inr ⟨sink, .withSink h.twins sink⟩, fun _ _ _ => rfl⟩
  refine .fails hs (.refl h.twins) (hc.reaches (n := 0) ?_ (Nat.zero_le _))
  refine (rejected (hr.mono (Nat.le_add_right _ _) hr.kept) hb hn hk).imp ?_
  rintro m s (hhalt | ⟨hw, hfail⟩)
  · exact .halts rfl hhalt
  · exact .closed rfl hw hfail

/-! ## About to evaluate an expression -/

theorem ofValue_apply (act : Action Value) (st : Store) :
    Next.ofValue act st = ((act st).1.map .value, (act st).2) := by
  rw [Next.ofValue, Action.bind_apply]
  rcases act st with ⟨_ | _, _⟩ <;> rfl

theorem step_eval_ofValue {act : Action Value}
    (he : Classic.enter .afterValue x s = Next.ofValue act) (levels : List Level) (st : Store) :
    Course.step .afterValue ⟨.eval x s, levels⟩ st =
      ((act st).1.map fun v => ⟨.value v, levels⟩, (act st).2) := by
  rw [Course.step_eval, he, ofValue_apply]
  rcases act st with ⟨_ | _, _⟩ <;> rfl

variable {a : Value} {r : ListRef} {items : List Value}

theorem follows_atom (h : Framed empty size ρ st st' old s levels pc base below f)
    (hx : f.x = x.rename ρ) (hw : x.Within true st)
    (hs : ∀ name, x ≠ .symbol name) (hl : ∀ r, x ≠ .list r) :
    Follows empty size ρ st st' ⟨.eval x s, levels⟩ (f.view .evalTop [] below a) := by
  have he : Classic.enter .afterValue x s = pure (.value x) := by
    cases x with
    | symbol name => exact absurd rfl (hs name)
    | list r => exact absurd rfl (hl r)
    | _ => rfl
  have hstep : Course.step .afterValue ⟨.eval x s, levels⟩ st = (.ok ⟨.value x, levels⟩, st) :=
    Course.step_eval_ok (by rw [he]; rfl)
  have hr := h.ready st' (Nat.le_max_left (levels.length + 1) (levels.length + 1))
  refine .of_comes hstep rfl (.refl h.twins) (evalTop_atom hr h.returns ?_ ?_)
    (h.arrives_value rfl rfl hr.kept hx hw)
  · intro name he
    rw [hx] at he
    cases x <;> cases he
    exact hs _ rfl
  · intro r he
    rw [hx] at he
    cases x <;> cases he
    exact hl _ rfl

theorem follows_symbol (h : Framed empty size ρ st st' old s levels pc base below f)
    {name : String} (hx : f.x = .symbol name) :
    Follows empty size ρ st st' ⟨.eval (.symbol name) s, levels⟩
      (f.view .evalTop [] below a) := by
  refine .of_action .lookup (⟨.value ·, levels⟩) (returned pc base f.scope f.x below)
    rfl (.refl h.twins) (.lookup h.twins.paired name h.scope_lt)
    (step_eval_ofValue rfl levels st) rfl (fun _ => Nat.le_refl _) (fun _ hr => hr)
    (fun {last} hk => ?_) (fun {ρ₁ st₁ st₁' y z} hp hk hr => ?_)
  · have hr := h.ready last (Nat.le_refl (levels.length + 1))
    exact (evalTop_symbol hr hx).performs (evalSymbol hr h.returns hx h.scope)
  · obtain ⟨hw, rfl⟩ := hr
    exact (h.mono hp hk rfl rfl rfl).arrives_value rfl rfl Between.ended
      rfl hw

/-- What a step does with a list. -/
theorem step_list (r : ListRef) (s : ScopeRef) (levels : List Level) (st : Store) :
    Course.step .afterValue ⟨.eval (.list r) s, levels⟩ st =
      ((Classic.form .afterValue (.list r) s (st.items r) st).1.map (Course.follow s levels),
        (Classic.form .afterValue (.list r) s (st.items r) st).2) :=
  Course.step_eval _ s levels st

theorem step_list_ok (hi : st.items r = items) {next : Next}
    (hs : Classic.form .afterValue (.list r) s items st = (.ok next, st₁)) :
    Course.step .afterValue ⟨.eval (.list r) s, levels⟩ st =
      (.ok (Course.follow s levels next), st₁) := by
  rw [step_list, hi, hs]
  rfl

theorem step_list_error (hi : st.items r = items) {e : Failure}
    (hs : Classic.form .afterValue (.list r) s items st = (.error e, st₁)) :
    Course.step .afterValue ⟨.eval (.list r) s, levels⟩ st = (.error e, st₁) := by
  rw [step_list, hi, hs]
  rfl

/-- The empty list is its own value. -/
theorem follows_nil (h : Framed empty size ρ st st' old s levels pc base below f)
    (hx : f.x = .list (ρ.list r)) (hr : r.index < st.lists.size) (hi : st.items r = []) :
    Follows empty size ρ st st' ⟨.eval (.list r) s, levels⟩ (f.view .evalTop [] below a) := by
  obtain ⟨ρ₁, hp, he⟩ := Pursues.newNil h.twins
  have hi' : st'.items (ρ.list r) = [] := by rw [h.twins.paired.items r hr, hi, List.map_nil]
  have hrd := h.ready st' (Nat.le_max_left (levels.length + 1) (levels.length + 1))
  have hf := h.mono hp (.refl st') rfl rfl rfl
  refine .of_comes (step_list_ok hi rfl) rfl hp
    ((evalTop_list hrd hx).trans (evalList_nil hrd h.returns hx hi')) ?_
  exact hf.arrives_value rfl rfl hrd.kept (congrArg Value.list he).symm
    (Value.within_list (by simp))

/-- Which closure a form denotes. -/
theorem close_list (form : SpecialForm) (r : ListRef) (s : ScopeRef) (st : Store) :
    form.close (.list r) s st =
      if (st.items r).length < 3 then
        (.error (.malformed ("'" ++ form.keyword ++ "' needs parameters and a body")), st)
      else (.ok (closure form ⟨r, s⟩), st) := by
  rw [SpecialForm.close, Action.bind_apply]
  show ((if (st.items r).length < 3 then _ else _ : Action Value)) st = _
  split
  · rfl
  · cases form <;> rfl

theorem within_closure (form : SpecialForm) {r : ListRef} {s : ScopeRef} {st : Store}
    (hr : r.index < st.lists.size) (hs : s.index < st.scopes.size)
    (hl : 3 ≤ (st.items r).length) : (closure form ⟨r, s⟩).Within true st := by
  have hb (v : Value) (hv : v.list? = some r) (hv' : v.scope? = some s) :
      v.Below st.lists.size st.scopes.size :=
    ⟨fun q hq => (by rw [hv] at hq; cases hq; exact hr),
      fun t ht => (by rw [hv'] at ht; cases ht; exact hs)⟩
  cases form <;> exact ⟨hb _ rfl rfl, fun _ => hl⟩

/-- The frame is about to evaluate a list with these elements. -/
structure AtList (empty : ListRef) (size : Nat) (ρ : Renaming) (st st' : Store) (old : Nat)
    (s : ScopeRef) (levels : List Level) (pc base : Nat) (below : List Value) (f : Activation)
    (r : ListRef) (head : Value) (operands : List Value) : Prop where
  framed : Framed empty size ρ st st' old s levels pc base below f
  fits : st.Fits
  x : f.x = .list (ρ.list r)
  lt : r.index < st.lists.size
  items : st.items r = head :: operands

variable {head : Value} {operands : List Value} {depth : Nat}

namespace AtList

variable {form : SpecialForm}

theorem items' (h : AtList empty size ρ st st' old s levels pc base below f r head operands) :
    st'.items (ρ.list r) = head.rename ρ :: operands.map (Value.rename ρ) := by
  rw [h.framed.twins.paired.items r h.lt, h.items, List.map_cons]

theorem length (h : AtList empty size ρ st st' old s levels pc base below f r head operands) :
    (st'.items (ρ.list r)).length = operands.length + 1 := by
  rw [h.items', List.length_cons, List.length_map]

theorem small (h : AtList empty size ρ st st' old s levels pc base below f r head operands) :
    (st'.items (ρ.list r)).length < 2 ^ 63 := by
  rw [h.framed.twins.length_items h.lt]
  exact h.fits r

theorem mirrors (h : AtList empty size ρ st st' old s levels pc base below f r head operands) :
    Mirrors ρ st st' (ρ.list r) (head :: operands) :=
  h.items ▸ h.framed.twins.mirrors h.fits h.lt

theorem mirrors_operands
    (h : AtList empty size ρ st st' old s levels pc base below f r head operands) {q : ListRef}
    (hq : mid.items q = operands.map (Value.rename ρ)) : Mirrors ρ st mid q operands where
  items := hq
  within v hv := h.mirrors.within v (List.mem_cons_of_mem _ hv)
  small := Nat.lt_of_succ_lt h.mirrors.small

/-- The machine finds out which special form the list is, -/
theorem comes_form
    (h : AtList empty size ρ st st' old s levels pc base below f r (.symbol form.keyword) operands)
    (last : Store) (hd : levels.length + 1 ≤ depth) :
    (stretch empty size depth ρ st st' last).Comes (f.view .evalTop [] below a) st'
      ({ f with scratch := .symbol form.keyword }.view (formBlock form) (formTemps form) below
        (flag true)) st' := by
  have hrd := h.framed.ready last hd
  refine ((evalTop_list hrd h.x).trans (evalList_cons hrd h.x h.small ?_)).trans
    (evalForm_keyword hrd h.x ?_)
  · rw [h.items']
    exact List.cons_ne_nil _ _
  · rw [h.items']
    rfl

/-- or that it is a call. -/
theorem comes_call (h : AtList empty size ρ st st' old s levels pc base below f r head operands)
    (hf : SpecialForm.ofItems? (head :: operands) = none) (hd : levels.length + 1 ≤ depth) :
    (stretch empty size depth ρ st st' last).Comes (f.view .evalTop [] below a) st'
      ({ f with scratch := head.rename ρ }.view .evalApply [] below (flag false)) st' := by
  have hrd := h.framed.ready last hd
  refine ((evalTop_list hrd h.x).trans (evalList_cons hrd h.x h.small ?_)).trans
    (evalForm_call hrd h.x h.items' ?_)
  · rw [h.items']
    exact List.cons_ne_nil _ _
  · exact (SpecialForm.ofItems?_rename ρ (head :: operands)).trans hf

/-- A special form with too few operands is rejected. -/
theorem follows_short
    (h : AtList empty size ρ st st' old s levels pc base below f r (.symbol form.keyword) operands)
    (hn : form ≠ .sequence) (hl : operands.length + 1 < least form) {detail : String} {n : Int64}
    (hs : Classic.form .afterValue (.list r) s (.symbol form.keyword :: operands) st =
      (.error (.malformed detail), st))
    (hb : (rejection form).code = [⟨.halt, n⟩])
    (hc : (program empty).constant? n = some (.text (Failure.malformedHalt ++ detail))) :
    Follows empty size ρ st st' ⟨.eval (.list r) s, levels⟩ (f.view .evalTop [] below a) := by
  have hrd := h.framed.ready st' (Nat.le_refl (levels.length + 1))
  have hrun := (h.comes_form (a := a) st' (Nat.le_refl _)).trans
    (form_rejected (f := { f with scratch := .symbol form.keyword }) hrd h.x hn
      (by rw [h.length]; exact hl))
  exact .of_rejection h.framed (step_list_error h.items hs) (Nat.le_refl _) hrun hb hc

theorem follows_quote
    (h : AtList empty size ρ st st' old s levels pc base below f r
      (.symbol SpecialForm.quote.keyword) operands) :
    Follows empty size ρ st st' ⟨.eval (.list r) s, levels⟩ (f.view .evalTop [] below a) := by
  rcases operands with _ | ⟨y, rest⟩
  · exact h.follows_short nofun (by decide) rfl rfl (by rw [constant?_program]; rfl)
  · have hrd := h.framed.ready st' (Nat.le_max_left (levels.length + 1) (levels.length + 1))
    have hrun := formQuote (f := { f with scratch := .symbol SpecialForm.quote.keyword })
      (a := flag true) hrd h.framed.returns h.x h.small (y := y.rename ρ) (by rw [h.items']; rfl)
    exact .of_comes (step_list_ok h.items rfl) rfl (.refl h.framed.twins)
      ((h.comes_form _ (Nat.le_max_left _ _)).trans hrun)
      (h.framed.arrives_value rfl rfl hrd.kept rfl (h.mirrors.within y (by simp)))

theorem follows_branch
    (h : AtList empty size ρ st st' old s levels pc base below f r
      (.symbol SpecialForm.branch.keyword) operands) :
    Follows empty size ρ st st' ⟨.eval (.list r) s, levels⟩ (f.view .evalTop [] below a) := by
  rcases operands with _ | ⟨y, rest⟩
  · exact h.follows_short nofun (by decide) rfl rfl (by rw [constant?_program]; rfl)
  · have hrd := h.framed.ready_call st' (Nat.le_max_right (levels.length + 1) (levels.length + 2))
    have hrun := formIf (f := { f with scratch := .symbol SpecialForm.branch.keyword })
      (a := flag true) hrd h.x h.small (y := y.rename ρ) (by rw [h.items']; rfl)
    have hf : Framed empty size ρ st st' old s levels pc base below
        { f with scratch := .symbol SpecialForm.branch.keyword } := h.framed.with_slots rfl rfl rfl
    exact .of_comes (step_list_ok h.items rfl) rfl (.refl h.framed.twins)
      ((h.comes_form _ (Nat.le_max_left _ _)).trans hrun)
      (hf.arrives_nested rfl hrd (.branch h.x h.mirrors.lt h.mirrors) h.framed.scope rfl
        (h.mirrors.within y (by simp)) h.framed.scope_lt)

theorem follows_binding
    (h : AtList empty size ρ st st' old s levels pc base below f r (.symbol form.keyword) operands)
    (hform : form = .define ∨ form = .assign) :
    Follows empty size ρ st st' ⟨.eval (.list r) s, levels⟩ (f.view .evalTop [] below a) := by
  rcases operands with _ | ⟨name, _ | ⟨y, rest⟩⟩
  · rcases hform with rfl | rfl <;>
      exact h.follows_short nofun (by decide) rfl rfl (by rw [constant?_program]; rfl)
  · rcases hform with rfl | rfl <;>
      exact h.follows_short nofun (Nat.le_refl 3) rfl rfl (by rw [constant?_program]; rfl)
  · have hrd := h.framed.ready_call st' (Nat.le_max_right (levels.length + 1) (levels.length + 2))
    have hrun := formBinding (f := { f with scratch := .symbol form.keyword }) (a := flag true)
      hrd h.x hform h.small (name.rename ρ) (y := y.rename ρ) (by rw [h.items']; rfl)
      (by rw [h.items']; rfl)
    have hf : Framed empty size ρ st st' old s levels pc base below
        { f with scratch := .symbol form.keyword } := h.framed.with_slots rfl rfl rfl
    have hs : Classic.form .afterValue (.list r) s (.symbol form.keyword :: name :: y :: rest) st =
        (.ok (.nested y s (.bind form name)), st) := by rcases hform with rfl | rfl <;> rfl
    exact .of_comes (step_list_ok h.items hs) rfl (.refl h.framed.twins)
      ((h.comes_form _ (Nat.le_max_left _ _)).trans hrun)
      (hf.arrives_nested rfl hrd (.bind hform (h.mirrors.within name (by simp))) h.framed.scope rfl
        (h.mirrors.within y (by simp)) h.framed.scope_lt)

theorem follows_closing
    (h : AtList empty size ρ st st' old s levels pc base below f r (.symbol form.keyword) operands)
    (hform : form = .lambda ∨ form = .expander) :
    Follows empty size ρ st st' ⟨.eval (.list r) s, levels⟩ (f.view .evalTop [] below a) := by
  have hs : Classic.form .afterValue (.list r) s (.symbol form.keyword :: operands) st =
      if (st.items r).length < 3 then
        (.error (.malformed ("'" ++ form.keyword ++ "' needs parameters and a body")), st)
      else (.ok (.value (closure form ⟨r, s⟩)), st) := by
    have hf : Classic.form .afterValue (.list r) s (.symbol form.keyword :: operands) =
        Next.ofValue (form.close (.list r) s) := by rcases hform with rfl | rfl <;> rfl
    rw [hf, ofValue_apply, close_list]
    by_cases hl : (st.items r).length < 3
    · rw [if_pos hl, if_pos hl]
      rfl
    · rw [if_neg hl, if_neg hl]
      rfl
  have hlen : (st.items r).length = operands.length + 1 := by rw [h.items, List.length_cons]
  by_cases hl : operands.length + 1 < 3
  · rw [hlen, if_pos hl] at hs
    rcases hform with rfl | rfl <;>
      exact h.follows_short nofun hl hs rfl (by rw [constant?_program]; rfl)
  · rw [hlen, if_neg hl] at hs
    have hp := Pursues.newScope h.framed.twins
    have hkeep : st'.KeepsLists (st'.newScope none).2 := .of_lists_eq rfl
    have hrd := h.framed.ready (st'.newScope none).2
      (Nat.le_max_left (levels.length + 1) (levels.length + 1))
    have hlast : Between empty ρ st st' (st'.newScope none).2 (st'.newScope none).2 :=
      .ended
    have hrun := formClosing (f := { f with scratch := .symbol form.keyword }) (a := flag true)
      hrd h.framed.returns h.x h.framed.scope hform h.small (by rw [h.length]; exact hl) hlast
    refine .of_comes (step_list_ok h.items hs) rfl hp
      ((h.comes_form _ (Nat.le_max_left _ _)).trans hrun)
      ((h.framed.mono hp hkeep rfl rfl rfl).arrives_value rfl rfl hlast ?_ ?_)
    · rcases hform with rfl | rfl <;> rfl
    · exact within_closure form h.lt h.framed.scope_lt (by omega)

end AtList

/-! ## Sequences and calls -/

variable {q : ListRef} {callee : Value} {args : List Value}

/-- The frame has a list of forms still to come in a sequence. -/
theorem follows_forms (h : Framed empty size ρ st mid old s levels pc base below f)
    (hp : Pursues empty ρ st st' ρ st mid) (hf : f.forms = .list r) (hr : r.index < mid.lists.size)
    (hm : Mirrors ρ st mid r operands)
    (hs : c.step .afterValue st = ((Classic.sequence s operands st).1.map (Course.follow s levels),
      (Classic.sequence s operands st).2)) (hv : c.value? = none)
    (hd : levels.length + 1 ≤ c.depth)
    (hrun : ∀ {depth last}, c.depth ≤ depth → mid.KeepsLists last →
      (stretch empty size depth ρ st st' last).Comes v st' (f.view .beginLoop [] below a) mid) :
    Follows empty size ρ st st' c v := by
  have hk := Between.of_pursues hp (.refl mid)
  have hlen : (mid.items r).length = operands.length := by rw [hm.items, List.length_map]
  rcases operands with _ | ⟨y, _ | ⟨y', rest⟩⟩
  · obtain ⟨ρ₁, hn, he⟩ := Pursues.newNil h.twins
    refine .of_comes (hs.trans rfl) hv (hp.trans hn) ((hrun (Nat.le_max_left _ _) (.refl mid)).trans
      (beginLoop_nil (h.room (Nat.le_trans hd (Nat.le_max_left _ _)) hk rfl rfl) h.returns hf
        (by rw [hm.items]; rfl))) ?_
    exact (h.mono hn (.refl mid) rfl rfl rfl).arrives_value rfl rfl hk
      (congrArg Value.list he).symm (Value.within_list (by simp))
  · refine .of_comes (hs.trans rfl) hv hp ((hrun (Nat.le_max_left _ _) (.refl mid)).trans
      (beginLoop_last (h.room (Nat.le_trans hd (Nat.le_max_left _ _)) hk rfl rfl) hf hm.items)) ?_
    have hf' : Framed empty size ρ st mid old s levels pc base below
      { f with x := y.rename ρ } := h.with_slots rfl rfl rfl
    exact hf'.arrives_tail rfl rfl hk rfl (hm.within y (by simp))
  · have hrd : Ready (stretch empty size (max c.depth (levels.length + 2)) ρ st st' mid) empty
      (below.length + 20) mid := h.room_call (Nat.le_max_right _ _) hk rfl rfl
    have hs' : c.step .afterValue st =
        (.ok ⟨.eval y s, ⟨.sequence (y' :: rest), s⟩ :: levels⟩, st) := hs
    refine .of_comes hs' hv hp
      ((hrun (Nat.le_max_left _ _) (.refl mid)).trans (beginLoop_next hrd hf
        (by rw [hlen]; exact hm.small) (by rw [hlen]; simp) (by rw [hm.items]; rfl))) ?_
    exact h.arrives_nested rfl hrd (.sequence hf hr hm) h.scope rfl (hm.within y (by simp))
      h.scope_lt

theorem AtList.follows_sequence
    (h : AtList empty size ρ st st' old s levels pc base below f r
      (.symbol SpecialForm.sequence.keyword) operands) :
    Follows empty size ρ st st' ⟨.eval (.list r) s, levels⟩ (f.view .evalTop [] below a) := by
  have hdrop : (st'.items (ρ.list r)).drop 1 = operands.map (Value.rename ρ) := by
    rw [h.items', List.drop_one, List.tail_cons]
  have hm := h.mirrors
  have hp := Pursues.newList h.framed.twins fun v hv => hm.within v (List.mem_cons_of_mem _ hv)
  have hf : Framed empty size ρ st (st'.newList (operands.map (Value.rename ρ))).2 old s levels pc
      base below { f with
        scratch := .symbol SpecialForm.sequence.keyword, forms := .list ⟨st'.lists.size⟩ } :=
    h.framed.mono hp (.newList st' _) rfl rfl rfl
  refine follows_forms (a := .list ⟨st'.lists.size⟩) hf hp rfl (by simp)
    (h.mirrors_operands (Store.items_newList_self _ _))
    (by rw [step_list, h.items]; rfl) rfl (Nat.le_refl _) (fun {depth last} hd hk => ?_)
  have hrd := h.framed.ready last hd
  have hlast := Between.of_pursues hp hk
  have hrun := formBegin (f := { f with scratch := .symbol SpecialForm.sequence.keyword })
    (a := flag true) hrd h.x (by rw [hdrop]; exact hlast)
  rw [hdrop] at hrun
  exact (h.comes_form last hd).trans hrun

/-- A procedure has its parameters and its body. -/
theorem parts_of_within {cl : Closure} {st : Store} (h : 3 ≤ (st.items cl.form).length) :
    ∃ params body, cl.part? st 1 = some params ∧ cl.part? st 2 = some body :=
  ⟨_, _, List.getElem?_eq_getElem (by omega), List.getElem?_eq_getElem (by omega)⟩

theorem part_of {cl : Closure} {i : Nat} (h : cl.part? st i = some y) :
    cl.part i st = (.ok y, st) := by
  rw [Closure.part, Action.bind_ok (Action.get_apply st), h]
  rfl

/-- Calling a closure makes a scope, and its body is evaluated there. -/
theorem callScope_body {cl : Closure} {params body : Value} (h₁ : cl.part? st 1 = some params)
    (h₂ : cl.part? st 2 = some body) (args : List Value) (g : Value → ScopeRef → Next) :
    (do let t ← Classic.callScope cl args; return g (← cl.body) t : Action Next) st =
      ((Action.bindParameters params args cl.scope st).1.map (g body),
        (Action.bindParameters params args cl.scope st).2) := by
  have hp : cl.params st = (.ok params, st) := part_of h₁
  have hk := (Action.Plain.bindParameters params args cl.scope).keepsLists st
  rw [Classic.callScope, Action.bind_apply, Action.bind_ok hp]
  rcases hb : Action.bindParameters params args cl.scope st with ⟨_ | t, st₁⟩ <;> rw [hb] at hk
  · rfl
  · have hbody : cl.body st₁ = (.ok body, st₁) := part_of (hk.part? h₂)
    show ((cl.body >>= fun b => pure (g b t)) : Action Next) st₁ = _
    rw [Action.bind_ok hbody]
    rfl

theorem map_follow (s : ScopeRef) (levels : List Level) (g : α → Next)
    (out : Except Failure α × Store) :
    ((out.1.map g).map (Course.follow s levels), out.2) =
      (out.1.map fun t => Course.follow s levels (g t), out.2) := by
  rcases out with ⟨_ | _, _⟩ <;> rfl

/-- Calling what is no closure is an action for both. -/
theorem follows_invoked (h : Paired (.same true) ρ st mid) (hw : callee.Within true st)
    (hv : ∀ v ∈ args, v.Within true st) (hs : s.index < st.scopes.size)
    (hn : ∀ cl, callee ≠ .lambda cl) : ∃ act act',
      Classic.call callee args s = Next.ofValue act ∧
        View.invoked (callee.rename ρ) (args.map (Value.rename ρ)) (.scope (ρ.scope s)) =
          some act' ∧
          Action.Follows (.same true) ρ st mid (Value.StandsFor (.same true)) act act' := by
  have hother (hc : Classic.call callee args s = do
        throw (.notCallable (callee.shown (← get))))
      (hi : View.invoked (callee.rename ρ) (args.map (Value.rename ρ)) (.scope (ρ.scope s)) =
        some (do throw (.notCallable ((callee.rename ρ).shown (← get))))) : ∃ act act',
      Classic.call callee args s = Next.ofValue act ∧
        View.invoked (callee.rename ρ) (args.map (Value.rename ρ)) (.scope (ρ.scope s)) =
          some act' ∧
          Action.Follows (.same true) ρ st mid (Value.StandsFor (.same true)) act act' :=
    ⟨do throw (.notCallable (callee.shown (← get))), _, hc.trans rfl, hi,
      .get (.throw h (congrArg Failure.notCallable (h.shown_rename hw)))⟩
  cases callee with
  | lambda cl => exact absurd rfl (hn cl)
  | native p => exact ⟨_, _, rfl, rfl, p.follows_call h hv⟩
  | scopeNative p => exact ⟨_, _, rfl, rfl, p.follows_call h args _ hs⟩
  | _ => exact hother rfl rfl

/-- The frame has operands still to come in a call. -/
theorem follows_arguments (args : List Value)
    (h : Framed empty size ρ st mid old s levels pc base below f)
    (hp : Pursues empty ρ st st' ρ st mid) (hc : f.callee = callee.rename ρ)
    (hcw : callee.Within true st) (ha : f.args = .list q) (hq : Private ρ st mid q)
    (ho : old ≤ q.index) (hv : mid.items q = args.map (Value.rename ρ))
    (hvw : ∀ v ∈ args, v.Within true st) (hf : f.forms = .list r) (hne : r ≠ q)
    (hr : r.index < mid.lists.size) (hm : Mirrors ρ st mid r operands)
    (hs : c.step .afterValue st =
      ((Classic.arguments callee args s operands st).1.map (Course.follow s levels),
        (Classic.arguments callee args s operands st).2)) (hcv : c.value? = none)
    (hd : levels.length + 2 ≤ c.depth)
    (hrun : ∀ {depth last}, c.depth ≤ depth → mid.KeepsLists last →
      (stretch empty size depth ρ st st' last).Comes v st' (f.view .argsLoop [] below a) mid) :
    Follows empty size ρ st st' c v := by
  have hlen : (mid.items r).length = operands.length := by rw [hm.items, List.length_map]
  rcases operands with _ | ⟨y, rest⟩
  · have hnil : mid.items r = [] := hm.items
    have hargs {last : Store} (hk : mid.KeepsLists last) :
        (stretch empty size c.depth ρ st st' last).Comes v st'
          (f.view .argsDone [] below (.number 0)) mid :=
      (hrun (Nat.le_refl _) hk).trans (argsLoop_nil
        (h.room (Nat.le_of_succ_le hd) (Between.of_pursues hp hk) rfl rfl) hf hnil)
    by_cases hl : ∃ cl, callee = .lambda cl
    · obtain ⟨cl, rfl⟩ := hl
      obtain ⟨params, body, h₁, h₂⟩ := parts_of_within (hcw.wellFormed rfl)
      have hform := hcw.below.list _ rfl
      have h₁' : (cl.rename ρ).part? mid 1 = some (params.rename ρ) := by
        rw [h.twins.paired.part?_rename hform, h₁, Option.map_some]
      have h₂' : (cl.rename ρ).part? mid 2 = some (body.rename ρ) := by
        rw [h.twins.paired.part?_rename hform, h₂, Option.map_some]
      have hparams := h.twins.paired.sealed.items _ params (List.mem_of_getElem? h₁)
      have hbody := h.twins.paired.sealed.items _ body (List.mem_of_getElem? h₂)
      refine .of_action .newScope (fun t => ⟨.eval body t, levels⟩)
        (fun t => { f with scope := .scope t, x := body.rename ρ }.view .evalTop [] below
          (body.rename ρ)) rfl hp
        (.bindParameters h.twins.paired hparams hvw (hcw.below.scope _ rfl))
        ?_ hcv (fun _ => Nat.le_of_succ_le hd) (fun hk hr => (hargs hk).reaches hr (by omega))
        (fun {last} hk => ?_) (fun {ρ₁ st₁ st₁' t t'} hpx hkx hr => ?_)
      · rw [hs]
        show ((Classic.call (.lambda cl) args s st).1.map (Course.follow s levels),
          (Classic.call (.lambda cl) args s st).2) = _
        rw [Classic.call, callScope_body h₁ h₂ args fun b t => .tail b t, map_follow]
        rfl
      · have hrd := h.room (E := stretch empty size c.depth ρ st st' last) (Nat.le_of_succ_le hd)
          (Between.of_pursues hp hk) rfl rfl
        have hperf := applyLambda (a := flag true) hrd hc ha h₁' h₂'
        rw [hv] at hperf
        exact (argsDone_lambda hrd hc).performs hperf
      · obtain ⟨ht, rfl⟩ := hr
        have hf' : Framed empty size ρ₁ st₁ st₁' old t levels pc base below
            { f with scope := .scope (ρ₁.scope t), x := body.rename ρ } :=
          h.pursue hpx (fun r hr => hkx.items_eq r (Nat.lt_of_lt_of_le hr h.old_le)) h.returns rfl
            ht
        exact hf'.arrives_tail rfl rfl Between.ended
          (hpx.carries.agree.rename hbody).symm (hbody.mono hpx.grows)
    · obtain ⟨act, act', hcall, hinv, hfol⟩ := follows_invoked h.twins.paired hcw hvw h.scope_lt
        fun cl he => hl ⟨cl, he⟩
      refine .of_action .invoke (fun v => ⟨.value v, levels⟩)
        (returned pc base f.scope f.x below) rfl hp hfol ?_ hcv (fun _ => Nat.le_of_succ_le hd)
        (fun hk hr => (hargs hk).reaches hr (by omega)) (fun {last} hk => ?_)
        (fun {ρ₁ st₁ st₁' y z} hpx hkx hr => ?_)
      · rw [hs]
        show ((Classic.call callee args s st).1.map (Course.follow s levels),
          (Classic.call callee args s st).2) = _
        rw [hcall, ofValue_apply]
        rcases act st with ⟨_ | _, _⟩ <;> rfl
      · have hrd := h.room (E := stretch empty size c.depth ρ st st' last) (Nat.le_of_succ_le hd)
          (Between.of_pursues hp hk) rfl rfl
        refine argsDone hrd h.returns ha (fun cl he => ?_) (by rw [hc, hv, h.scope]; exact hinv)
        rw [hc] at he
        cases callee <;> cases he
        exact hl ⟨_, rfl⟩
      · obtain ⟨hw, rfl⟩ := hr
        exact (h.mono hpx hkx rfl rfl rfl).arrives_value rfl rfl
          Between.ended rfl hw
  · have hk := Between.of_pursues hp (.refl mid)
    have hrd : Ready (stretch empty size (max c.depth (levels.length + 2)) ρ st st' mid) empty
      (below.length + 20) mid := h.room_call (Nat.le_max_right _ _) hk rfl rfl
    have hs' : c.step .afterValue st =
        (.ok ⟨.eval y s, ⟨.operand callee args rest, s⟩ :: levels⟩, st) := hs
    refine .of_comes hs' hcv hp ((hrun (Nat.le_max_left _ _) (.refl mid)).trans
      (argsLoop_next hrd hf (by rw [hlen]; exact hm.small) (by rw [hm.items]; rfl))) ?_
    exact h.arrives_nested rfl hrd (.operand hc hcw ha hq ho hq.lt hv hvw hf hne hr hm) h.scope rfl
      (hm.within y (by simp)) h.scope_lt

theorem AtList.follows_call
    (h : AtList empty size ρ st st' old s levels pc base below f r head operands)
    (hf : SpecialForm.ofItems? (head :: operands) = none) :
    Follows empty size ρ st st' ⟨.eval (.list r) s, levels⟩ (f.view .evalTop [] below a) := by
  have hrd := h.framed.ready_call st' (Nat.le_max_right (levels.length + 1) (levels.length + 2))
  have hs : Classic.form .afterValue (.list r) s (head :: operands) st =
      (.ok (.nested head s (.operator operands)), st) := by
    rw [Classic.form, hf]
    rfl
  have hrun := evalApply (f := { f with scratch := head.rename ρ }) (a := flag false) hrd
  have hf' : Framed empty size ρ st st' old s levels pc base below
      { f with scratch := head.rename ρ } := h.framed.with_slots rfl rfl rfl
  exact .of_comes (step_list_ok h.items hs) rfl (.refl h.framed.twins)
    ((h.comes_call hf (Nat.le_max_left _ _)).trans hrun)
    (hf'.arrives_nested rfl hrd (.operator h.x h.mirrors.lt h.mirrors) h.framed.scope rfl
      (h.mirrors.within head (by simp)) h.framed.scope_lt)

theorem AtList.follows
    (h : AtList empty size ρ st st' old s levels pc base below f r head operands) :
    Follows empty size ρ st st' ⟨.eval (.list r) s, levels⟩ (f.view .evalTop [] below a) := by
  rcases hf : SpecialForm.ofItems? (head :: operands) with _ | form
  · exact h.follows_call hf
  · obtain rfl := SpecialForm.head_eq_keyword hf
    cases form with
    | quote => exact h.follows_quote
    | branch => exact h.follows_branch
    | define => exact h.follows_binding (.inl rfl)
    | assign => exact h.follows_binding (.inr rfl)
    | lambda => exact h.follows_closing (.inl rfl)
    | expander => exact h.follows_closing (.inr rfl)
    | sequence => exact h.follows_sequence

/-- The machine follows the evaluation of an expression. -/
theorem follows_eval (h : Framed empty size ρ st st' old s levels pc base below f)
    (hfit : st.Fits) (hx : f.x = x.rename ρ) (hw : x.Within true st) :
    Follows empty size ρ st st' ⟨.eval x s, levels⟩ (f.view .evalTop [] below a) := by
  cases x with
  | symbol name => exact follows_symbol h hx
  | list r =>
    have hr := hw.below.list r rfl
    rcases hi : st.items r with _ | ⟨head, operands⟩
    · exact follows_nil h hx hr hi
    · exact AtList.follows ⟨h, hfit, hx, hr, hi⟩
  | _ => exact follows_atom h hx hw nofun nofun

/-! ## Going on with a value -/

theorem resume_branch (items : List Value) (s : ScopeRef) (v : Value) (st : Store) :
    Classic.Pending.resume (.branch items) s v st =
      ((SpecialForm.selected items v st).1.map (.tail · s),
        (SpecialForm.selected items v st).2) := by
  show ((SpecialForm.selected items v >>= fun x => pure (.tail x s)) : Action Next) st = _
  rw [Action.bind_apply]
  rcases SpecialForm.selected items v st with ⟨_ | _, _⟩ <;> rfl

section

variable {z t₀ y₀ : Value} {items : List Value}

/-- A branch of a conditional has been selected. -/
theorem follows_selected (h : Framed empty size ρ st st' old s levels pc base below f)
    (hsel : SpecialForm.selected items z st = (.ok x, st)) (hx : x.Within true st)
    (hc : ∀ depth, levels.length + 2 ≤ depth → (stretch empty size depth ρ st st' st').Comes
      (f.view .ifValue [t₀, y₀] below (z.rename ρ)) st'
      ({ f with x := x.rename ρ }.view .evalTop [] below (x.rename ρ)) st') :
    Follows empty size ρ st st' ⟨.value z, ⟨.branch items, s⟩ :: levels⟩
      (f.view .ifValue [t₀, y₀] below (z.rename ρ)) := by
  have hs : Classic.Pending.resume (.branch items) s z st = (.ok (.tail x s), st) := by
    rw [resume_branch, hsel]
    rfl
  have hf : Framed empty size ρ st st' old s levels pc base below { f with x := x.rename ρ } :=
    h.with_slots rfl rfl rfl
  exact .of_comes (Course.step_value_ok hs) rfl (.refl h.twins) (hc _ (Nat.le_max_left _ _))
    (hf.arrives_tail rfl rfl (Between.first h.twins) rfl hx)

/-- There is no branch to select: the course evaluates a new empty list, and the machine has
its value at once. -/
theorem follows_alternative (h : Framed empty size ρ st st' old s levels pc base below f)
    (hsel : SpecialForm.selected items z st = (.ok (.list ⟨st.lists.size⟩), (st.newList []).2))
    (hc : ∀ depth, levels.length + 2 ≤ depth → (stretch empty size depth ρ st st' st').Comes
      (f.view .ifValue [t₀, y₀] below (z.rename ρ)) st'
      (returned pc base f.scope f.x below (.list empty)) st') :
    Follows empty size ρ st st' ⟨.value z, ⟨.branch items, s⟩ :: levels⟩
      (f.view .ifValue [t₀, y₀] below (z.rename ρ)) := by
  have hs : Classic.Pending.resume (.branch items) s z st =
      (.ok (.tail (.list ⟨st.lists.size⟩) s), (st.newList []).2) := by
    rw [resume_branch, hsel]
    rfl
  have hl : Leads .afterValue (max (levels.length + 2) (levels.length + 1)) 2
      ⟨.value z, ⟨.branch items, s⟩ :: levels⟩ st
      ⟨.value (.list ⟨(st.newList []).2.lists.size⟩), levels⟩ ((st.newList []).2.newList []).2 :=
    .head (Nat.le_max_left _ _) rfl (Course.step_value_ok hs)
      (.head (Nat.le_max_right _ _) rfl (step_list_ok (Store.items_newList_self st []) rfl)
        (.refl (Nat.le_max_right _ _)))
  obtain ⟨ρ₁, hp, -⟩ := Pursues.newNil h.twins
  obtain ⟨ρ₂, hp', he⟩ := Pursues.newNil hp.twins
  have hf := h.mono (hp.trans hp') (.refl st') rfl rfl rfl
  refine @Follows.goes empty size ρ st st' _ _ 1 ⟨.value (.list _), levels⟩ ρ₂ _ st' hl
    (hp.trans hp') ?_
  exact (hc _ (Nat.le_max_left _ _)).reaches (hf.arrives_value rfl rfl (Between.first h.twins)
    (congrArg Value.list he).symm (Value.within_list (by simp))) (Nat.le_refl 1)

/-- The machine follows the choice between the branches of a conditional. -/
theorem follows_branchValue (h : Framed empty size ρ st st' old s levels pc base below f)
    (hx : f.x = .list r) (hi : Mirrors ρ st st' r items) :
    Follows empty size ρ st st' ⟨.value z, ⟨.branch items, s⟩ :: levels⟩
      (f.view .ifValue [t₀, y₀] below (z.rename ρ)) := by
  have hlen : (st'.items r).length = items.length := by rw [hi.items, List.length_map]
  have hsmall : (st'.items r).length < 2 ^ 63 := hlen ▸ hi.small
  have hget (i : Nat) : (st'.items r)[i]? = items[i]?.map (Value.rename ρ) := by
    rw [hi.items, List.getElem?_map]
  have hshort {i : Nat} (hn : items[i]? = none) : (st'.items r).length < i + 1 := by
    rw [hlen]
    exact Nat.lt_succ_of_le (List.getElem?_eq_none_iff.mp hn)
  rcases ht : z.isTruthy with _ | _
  · have hz : (z.rename ρ).isTruthy = false := (Value.isTruthy_rename ρ z).trans ht
    have hrun {depth : Nat} (hle : levels.length + 2 ≤ depth) := ifValue_false (f := f) (s := t₀)
      (x := y₀) (h.ready_call st' hle) hz
    rcases ha : items[3]? with _ | y
    · exact follows_alternative h (by rw [SpecialForm.selected, ht, ha]; rfl) fun depth hle =>
        (hrun hle).trans (ifAlt_none (h.ready _ (Nat.le_of_succ_le hle)) h.returns hx (hshort ha))
    · exact follows_selected h (by rw [SpecialForm.selected, ht, ha]; rfl)
        (hi.within y (List.mem_of_getElem? ha)) fun depth hle => (hrun hle).trans
          (ifAlt (h.ready _ (Nat.le_of_succ_le hle)) hx hsmall (by rw [hget, ha]; rfl))
  · have hz : (z.rename ρ).isTruthy = true := (Value.isTruthy_rename ρ z).trans ht
    rcases ha : items[2]? with _ | y
    · have hs : Classic.Pending.resume (.branch items) s z st =
          (.error (.malformed "'if' is missing operand 2"), st) := by
        rw [resume_branch, SpecialForm.selected, ht, SpecialForm.operand, ha]
        rfl
      exact .of_rejection h (Course.step_value_error hs) (Nat.le_succ _)
        (ifValue_rejected (h.ready_call _ (Nat.le_refl _)) hx hz (hshort ha)) rfl
        (by rw [constant?_program]; rfl)
    · exact follows_selected h (by rw [SpecialForm.selected, ht, SpecialForm.operand, ha]; rfl)
        (hi.within y (List.mem_of_getElem? ha)) fun depth hle =>
          ifValue_true (h.ready_call _ hle) hx hsmall hz (by rw [hget, ha]; rfl)

/-- The machine binds a name, and the course has the value besides. -/
theorem follows_named (h : Paired (.same true) ρ st st') {form : SpecialForm} {name : Value}
    (hn : name.Within true st) {act : ScopeRef → String → Value → Action Unit}
    (hf : ∀ k, Action.Follows (.same true) ρ st st' (fun _ _ _ _ => True) (act s k z)
      (act (ρ.scope s) k (z.rename ρ)))
    (hb : ∀ k, form.bind k z s = (act s k z >>= fun _ => pure z)) :
    Action.Follows (.same true) ρ st st' (fun _ _ v _ => v = z)
      (do form.bind (← Action.keyText name) z s)
      (do act (ρ.scope s) (← Action.keyText (name.rename ρ)) (z.rename ρ)) := by
  refine .keyText_bind h hn fun key => ?_
  rw [hb, ← bind_pure (act (ρ.scope s) key (z.rename ρ))]
  exact (hf key).bind fun h₁ _ _ => .pure h₁ rfl

/-- The machine follows the binding of a value to a name. -/
theorem follows_bindValue (h : Framed empty size ρ st st' old s levels pc base below f)
    {form : SpecialForm} {name : Value} (hform : form = .define ∨ form = .assign)
    (hn : name.Within true st) (hz : z.Within true st) :
    Follows empty size ρ st st' ⟨.value z, ⟨.bind form name, s⟩ :: levels⟩
      (f.view (bindingValue form) [t₀, y₀, name.rename ρ, f.scope] below (z.rename ρ)) := by
  have hs : Course.step .afterValue ⟨.value z, ⟨.bind form name, s⟩ :: levels⟩ st =
      (((do form.bind (← Action.keyText name) z s) st).1.map fun v => ⟨.value v, levels⟩,
        ((do form.bind (← Action.keyText name) z s) st).2) := by
    have hr : Classic.Pending.resume (.bind form name) s z =
        Next.ofValue (do form.bind (← Action.keyText name) z s) := (bind_assoc _ _ _).symm
    rw [Course.step_value, hr, ofValue_apply]
    rcases (do form.bind (← Action.keyText name) z s : Action Value) st with ⟨_ | _, _⟩ <;> rfl
  have hd : levels.length + 2 ≤ levels.length + 1 + 1 := Nat.le_refl _
  have hat {ρ₁ : Renaming} {st₁ st₁' : Store} (hp : Pursues empty ρ st st' ρ₁ st₁ st₁')
      (hk : st'.KeepsLists st₁') :
      (stretch empty size (levels.length + 1 + 1) ρ st st' st₁').Reaches 0
        (returned pc base f.scope f.x below (z.rename ρ)) st₁'
        (Arrives empty size ρ₁ st₁ st₁' ⟨.value z, levels⟩) :=
    (h.mono hp hk rfl rfl rfl).arrives_value rfl rfl Between.ended
      (hp.carries.agree.rename hz).symm (hz.mono hp.grows)
  have hgo {op : Opcode} {act : Action Unit} (ho : op.acts = true)
      (hf : Action.Follows (.same true) ρ st st' (fun _ _ v _ => v = z)
        (do form.bind (← Action.keyText name) z s) act)
      (hp : ∀ last, (stretch empty size (levels.length + 1 + 1) ρ st st' last).Performs
        (f.view (bindingValue form) [t₀, y₀, name.rename ρ, f.scope] below (z.rename ρ)) st' op act
        fun _ => returned pc base f.scope f.x below (z.rename ρ)) :
      Follows empty size ρ st st' ⟨.value z, ⟨.bind form name, s⟩ :: levels⟩
        (f.view (bindingValue form) [t₀, y₀, name.rename ρ, f.scope] below (z.rename ρ)) :=
    .of_action op (⟨.value ·, levels⟩)
      (fun _ => returned pc base f.scope f.x below (z.rename ρ)) ho (.refl h.twins)
      hf hs rfl (fun _ => Nat.le_succ _) (fun _ hr => hr) (fun {last} _ => hp last)
      fun hpx hk he => he ▸ hat hpx hk
  rw [h.scope] at hgo ⊢
  rcases hform with rfl | rfl
  · exact hgo rfl (follows_named h.twins.paired hn
      (fun k => .define h.twins.paired k h.scope_lt hz) fun _ => rfl)
      fun last => h.scope ▸ defineValue (h.ready_call _ hd) h.returns (ρ.scope s)
  · exact hgo rfl (follows_named h.twins.paired hn
      (fun k => .assign h.twins.paired k h.scope_lt hz) fun _ => rfl)
      fun last => h.scope ▸ setValue (h.ready_call _ hd) h.returns (ρ.scope s)

/-- The machine follows a sequence that goes on. -/
theorem follows_sequenceValue (h : Framed empty size ρ st st' old s levels pc base below f)
    {current : Value} {rest : List Value} (hf : f.forms = .list r)
    (hm : Mirrors ρ st st' r (current :: rest)) :
    Follows empty size ρ st st' ⟨.value z, ⟨.sequence rest, s⟩ :: levels⟩
      (f.view .beginValue [t₀, y₀] below (z.rename ρ)) := by
  have hdrop : (st'.items r).drop 1 = rest.map (Value.rename ρ) := by
    rw [hm.items, List.map_cons, List.drop_one, List.tail_cons]
  have hw : ∀ v ∈ rest, v.Within true st := fun v hv => hm.within v (List.mem_cons_of_mem _ hv)
  have hp := Pursues.newList h.twins hw
  have hf' : Framed empty size ρ st (st'.newList (rest.map (Value.rename ρ))).2 old s levels pc
      base below { f with forms := .list ⟨st'.lists.size⟩ } :=
    h.mono hp (.newList st' _) rfl rfl rfl
  refine follows_forms (a := .list ⟨st'.lists.size⟩) hf' hp rfl (by simp)
    ⟨Store.items_newList_self _ _, hw, Nat.lt_of_succ_lt hm.small⟩
    (Course.step_value (.sequence rest) s z levels st) rfl (Nat.le_succ _)
    (fun {depth last} hd hk => ?_)
  have hrun := beginValue (h.ready_call last hd) hf (s := t₀) (x := y₀) (v := z.rename ρ)
    (by rw [hdrop]; exact Between.of_pursues hp hk)
  rwa [hdrop] at hrun

/-- The machine follows a call whose operator is no expander. -/
theorem follows_operatorValue (h : Framed empty size ρ st st' old s levels pc base below f)
    {head : Value} {operands : List Value} (hx : f.x = .list r)
    (hm : Mirrors ρ st st' r (head :: operands)) (hz : z.Within true st)
    (hn : ∀ cl, z ≠ .expander cl) :
    Follows empty size ρ st st' ⟨.value z, ⟨.operator operands, s⟩ :: levels⟩
      (f.view .operatorValue [t₀, y₀] below (z.rename ρ)) := by
  have hdrop : ((st'.newList []).2.items r).drop 1 = operands.map (Value.rename ρ) := by
    rw [Store.items_newList_of_lt _ hm.lt, hm.items, List.map_cons, List.drop_one, List.tail_cons]
  have hw : ∀ v ∈ operands, v.Within true st := fun v hv => hm.within v (List.mem_cons_of_mem _ hv)
  have hp₁ := @Pursues.newList _ _ _ _ h.twins [] (List.forall_mem_nil _)
  have hp₂ := Pursues.newList hp₁.twins hw
  have hk₂ := Store.KeepsLists.newList (st'.newList []).2 (operands.map (Value.rename ρ))
  have hf : Framed empty size ρ st ((st'.newList []).2.newList (operands.map (Value.rename ρ))).2
      old s levels pc base below { f with
        callee := z.rename ρ, args := .list ⟨st'.lists.size⟩
        forms := .list ⟨st'.lists.size + 1⟩ } :=
    h.mono (hp₁.trans hp₂) ((Store.KeepsLists.newList st' []).trans hk₂) rfl rfl rfl
  have hq := (Private.newList h.twins.paired []).mono hp₂.carries
  have hnew : (⟨st'.lists.size + 1⟩ : ListRef) = ⟨(st'.newList []).2.lists.size⟩ := by simp
  have hs : Classic.Pending.resume (.operator operands) s z =
      Classic.arguments z [] s operands := by
    cases z with
    | expander cl => exact absurd rfl (hn cl)
    | _ => rfl
  refine follows_arguments [] (a := .list ⟨st'.lists.size + 1⟩) hf (hp₁.trans hp₂) rfl hz rfl hq
    h.old_le ?_ (List.forall_mem_nil _) rfl (by simp) (by simp)
    ⟨by rw [hnew]; exact Store.items_newList_self _ _, hw, Nat.lt_of_succ_lt hm.small⟩
    (by rw [Course.step_value, hs]) rfl (Nat.le_refl _) (fun {depth last} hd hk => ?_)
  · rw [hk₂.items_eq _ (by simp)]
    exact Store.items_newList_self _ _
  · have hrun := operatorValue (h.ready_call last hd) hx (s := t₀) (x := y₀)
      (v := z.rename ρ) (fun cl he => ?_) (Between.of_pursues hp₁ (hk₂.trans hk))
      (by rw [hdrop]; exact Between.of_pursues (hp₁.trans hp₂) hk)
    · rwa [hdrop] at hrun
    · cases z <;> cases he
      exact hn _ rfl

/-- The machine follows a call with one more argument. -/
theorem follows_operandValue (h : Framed empty size ρ st st' old s levels pc base below f)
    {current : Value} {args rest : List Value} (hc : f.callee = callee.rename ρ)
    (hw : callee.Within true st) (ha : f.args = .list q) (hq : Private ρ st st' q)
    (ho : old ≤ q.index) (hv : st'.items q = args.map (Value.rename ρ))
    (hvw : ∀ v ∈ args, v.Within true st) (hf : f.forms = .list r) (hne : r ≠ q)
    (hm : Mirrors ρ st st' r (current :: rest)) (hz : z.Within true st) :
    Follows empty size ρ st st' ⟨.value z, ⟨.operand callee args rest, s⟩ :: levels⟩
      (f.view .operandValue [t₀, y₀] below (z.rename ρ)) := by
  have hdrop : ((st'.extend q (z.rename ρ)).items r).drop 1 = rest.map (Value.rename ρ) := by
    rw [Store.items_extend_of_ne _ hne, hm.items, List.map_cons, List.drop_one, List.tail_cons]
  have hrw : ∀ v ∈ rest, v.Within true st := fun v hv => hm.within v (List.mem_cons_of_mem _ hv)
  have hp₁ := Pursues.extend h.twins hq hz
  have hp₂ := Pursues.newList hp₁.twins hrw
  have hk₂ := Store.KeepsLists.newList (st'.extend q (z.rename ρ)) (rest.map (Value.rename ρ))
  have hold (p : ListRef) (hp : p.index < old) :
      ((st'.extend q (z.rename ρ)).newList (rest.map (Value.rename ρ))).2.items p =
        st'.items p := by
    rw [hk₂.items_eq p (by simpa using Nat.lt_of_lt_of_le hp h.old_le)]
    refine Store.items_extend_of_ne _ fun he => ?_
    rw [he] at hp
    exact Nat.not_lt_of_le ho hp
  have hf' : Framed empty size ρ st
      ((st'.extend q (z.rename ρ)).newList (rest.map (Value.rename ρ))).2 old s levels pc base
      below { f with scratch := z.rename ρ, forms := .list ⟨st'.lists.size⟩ } :=
    h.pursue (hp₁.trans hp₂) hold h.returns h.scope h.scope_lt
  have hnew : (⟨st'.lists.size⟩ : ListRef) = ⟨(st'.extend q (z.rename ρ)).lists.size⟩ := by simp
  refine follows_arguments (args ++ [z]) (a := .list ⟨st'.lists.size⟩) hf' (hp₁.trans hp₂)
    hc hw ha (hq.mono (hp₁.trans hp₂).carries) ho ?_ ?_ rfl ?_ (by simp)
    ⟨by rw [hnew]; exact Store.items_newList_self _ _, hrw, Nat.lt_of_succ_lt hm.small⟩
    (Course.step_value (.operand callee args rest) s z levels st) rfl (Nat.le_refl _)
    (fun {depth last} hd hk => ?_)
  · rw [hk₂.items_eq q (by simpa using hq.lt), Store.items_extend_self _ hq.lt, hv, List.map_append]
    rfl
  · intro v hv
    rcases List.mem_append.mp hv with hv | hv
    · exact hvw v hv
    · exact List.mem_singleton.mp hv ▸ hz
  · rintro rfl
    exact Nat.lt_irrefl _ hq.lt
  · have hrun := operandValue (h.ready_call last hd) ha hf (s := t₀) (x := y₀)
      (v := z.rename ρ) (Between.of_pursues hp₁ (hk₂.trans hk))
      (by rw [hdrop]; exact Between.of_pursues (hp₁.trans hp₂) hk)
    rwa [hdrop] at hrun

/-- The machine follows a call of an expander. -/
theorem follows_expanderValue (h : Framed empty size ρ st st' old s levels pc base below f)
    {head : Value} {operands : List Value} (hx : f.x = .list r)
    (hm : Mirrors ρ st st' r (head :: operands)) {cl : Closure}
    (hz : (Value.expander cl).Within true st) :
    Follows empty size ρ st st' ⟨.value (.expander cl), ⟨.operator operands, s⟩ :: levels⟩
      (f.view .operatorValue [t₀, y₀] below ((Value.expander cl).rename ρ)) := by
  have hform := hz.below.list _ rfl
  obtain ⟨params, body, h₁, h₂⟩ := parts_of_within (hz.wellFormed rfl)
  have hdrop : (st'.items r).drop 1 = operands.map (Value.rename ρ) := by
    rw [hm.items, List.map_cons, List.drop_one, List.tail_cons]
  have hw : ∀ v ∈ operands, v.Within true st := fun v hv => hm.within v (List.mem_cons_of_mem _ hv)
  have hp := Pursues.newList h.twins hw
  have hf : Framed empty size ρ st (st'.newList (operands.map (Value.rename ρ))).2 old s levels pc
      base below { f with callee := (Value.expander cl).rename ρ } :=
    h.mono hp (.newList st' _) rfl rfl rfl
  have h₁' : (cl.rename ρ).part? st' 1 = some (params.rename ρ) := by
    rw [h.twins.paired.part?_rename hform, h₁, Option.map_some]
  have h₂' : (cl.rename ρ).part? (st'.newList (operands.map (Value.rename ρ))).2 2 =
      some (body.rename ρ) := by
    rw [hp.twins.paired.part?_rename hform, h₂, Option.map_some]
  have hparams := h.twins.paired.sealed.items _ params (List.mem_of_getElem? h₁)
  have hbody := h.twins.paired.sealed.items _ body (List.mem_of_getElem? h₂)
  have hd : levels.length + 2 ≤ levels.length + 1 + 1 := Nat.le_refl _
  have hrun {last : Store} (hk : (st'.newList (operands.map (Value.rename ρ))).2.KeepsLists last) :
      (stretch empty size (levels.length + 1 + 1) ρ st st' last).Comes
        (f.view .operatorValue [t₀, y₀] below ((Value.expander cl).rename ρ)) st'
        ({ f with callee := (Value.expander cl).rename ρ }.view .expand
          [.list ⟨st'.lists.size⟩, params.rename ρ] below (.list ⟨st'.lists.size⟩))
        (st'.newList (operands.map (Value.rename ρ))).2 := by
    have hrd := h.ready_call last hd
    have happly := applyMacro (f := { f with callee := (Value.expander cl).rename ρ })
      (a := flag true) (h.ready _ (Nat.le_succ _)) rfl hx h₁'
      (by rw [hdrop]; exact Between.of_pursues hp hk)
    rw [hdrop] at happly
    exact (operatorValue_expander hrd (cl.rename ρ)).trans happly
  have hperf {last : Store} (hk : (st'.newList (operands.map (Value.rename ρ))).2.KeepsLists last) :
      (stretch empty size (levels.length + 1 + 1) ρ st st' last).Performs
        ({ f with callee := (Value.expander cl).rename ρ }.view .expand
          [.list ⟨st'.lists.size⟩, params.rename ρ] below (.list ⟨st'.lists.size⟩))
        (st'.newList (operands.map (Value.rename ρ))).2 .newScope
        (Action.bindParameters (params.rename ρ) (operands.map (Value.rename ρ))
          (ρ.scope cl.scope)) fun t =>
        called Block.expansionValue.start 4 (.scope t) (body.rename ρ)
          ({ f with callee := (Value.expander cl).rename ρ, scratch := .scope t }.cells below) := by
    have hrd := hf.room_call (E := stretch empty size (levels.length + 1 + 1) ρ st st' last) hd
      (Between.of_pursues hp hk) rfl rfl
    have hexpand := expand (f := { f with callee := (Value.expander cl).rename ρ })
      (a := .list ⟨st'.lists.size⟩) (q := ⟨st'.lists.size⟩) hrd rfl (params.rename ρ) h₂'
    rwa [show (st'.newList (operands.map (Value.rename ρ))).2.items ⟨st'.lists.size⟩ = _ from
      Store.items_newList_self _ _] at hexpand
  refine .of_action .newScope (fun t => ⟨.eval body t, ⟨.expansion, s⟩ :: levels⟩) _ rfl hp
    (.bindParameters hp.twins.paired hparams hw (hz.below.scope _ rfl)) ?_ rfl
    (fun _ => Nat.le_refl _) (fun hk hr => (hrun hk).reaches hr (Nat.le_succ _)) hperf
    (fun {ρ₁ st₁ st₁' t t'} hpx hkx hr => ?_)
  · rw [Course.step_value, Classic.Pending.resume,
      callScope_body h₁ h₂ operands fun b t => .nested b t .expansion, map_follow]
    rfl
  · obtain ⟨ht, rfl⟩ := hr
    have hf' : Framed empty size ρ₁ st₁ st₁' old s levels pc base below
        { f with callee := (Value.expander cl).rename ρ, scratch := .scope (ρ₁.scope t) } :=
      hf.mono hpx hkx rfl rfl rfl
    exact hf'.arrives_nested rfl
      (hf'.room_call hd Between.ended rfl rfl) .expansion rfl
      (hpx.carries.agree.rename hbody).symm (hbody.mono hpx.grows) ht

/-- The machine follows a call whose expansion has been evaluated. -/
theorem follows_expansionValue (h : Framed empty size ρ st st' old s levels pc base below f)
    (hz : z.Within true st) :
    Follows empty size ρ st st' ⟨.value z, ⟨.expansion, s⟩ :: levels⟩
      (f.view .expansionValue [t₀, y₀] below (z.rename ρ)) := by
  have hf : Framed empty size ρ st st' old s levels pc base below { f with x := z.rename ρ } :=
    h.with_slots rfl rfl rfl
  have hd : levels.length + 1 ≤ max (levels.length + 1 + 1) (levels.length + 1) :=
    Nat.le_max_right _ _
  exact .of_comes (Course.step_value_ok (p := .expansion) rfl) rfl (.refl h.twins)
    (expansionValue (h.ready _ hd)) (hf.arrives_tail rfl rfl (Between.first h.twins) rfl hz)

end

/-- The machine follows every step of a course. -/
theorem follows (ht : Twins empty ρ st st') (hfit : st.Fits) (h : At size ρ st st' c v)
    (hv : c.value? = none) : Follows empty size ρ st st' c v := by
  cases h with
  | eval h hr hx hf hw hs => exact follows_eval ⟨ht, h, Nat.le_refl _, hr, hf, hs⟩ hfit hx hw
  | @value z _ _ _ _ _ _ h hz =>
    cases h with
    | main => cases hv
    | level hb h hr hf hs hw =>
      have hfr : Framed .. := ⟨ht, h, hb, hr, hf, hs⟩
      cases hw with
      | branch hx _ hi => exact follows_branchValue hfr hx hi
      | bind hform hn => exact follows_bindValue hfr hform hn hz
      | sequence hf _ hm => exact follows_sequenceValue hfr hf hm
      | operator hx _ hm =>
        by_cases he : ∃ cl, z = .expander cl
        · obtain ⟨cl, rfl⟩ := he
          exact follows_expanderValue hfr hx hm hz
        · exact follows_operatorValue hfr hx hm hz fun cl hcl => he ⟨cl, hcl⟩
      | operand hc hw ha hq ho _ hi hvw hf hne _ hm =>
        exact follows_operandValue hfr hc hw ha hq ho hi hvw hf hne hm hz
      | expansion => exact follows_expansionValue hfr hz

end Evaluator

end Machine

end LispEngines
