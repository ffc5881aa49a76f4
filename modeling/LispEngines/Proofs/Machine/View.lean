import LispEngines.Machine.Execute
import LispEngines.Proofs.Frame.Turn
import Mathlib.Algebra.Group.Nat.Defs

/-!
# A machine as its instructions see it

An instruction works at the top of the stack and in the frame, and both are found a few
slots away from the top.  A `View` is a machine seen from there: the slots from the top on,
how far the frame is from the top, and the accumulator.

`View.exec` says what an instruction does to a view.  It leaves out what the machine does
only to refuse: where an operand is missing, or a position is outside, it says nothing.
What it says, the machine does, unless its stack has no room left (`Shows.execute`).

Much of an instruction only looks: at a slot, at a constant, at where a jump leads.  Whatever
comes of that, the machine and the store are as they were (`Looks`).
-/

namespace LispEngines

/-- Whether an instruction needs room on the stack. -/
def Opcode.grows : Opcode → Bool
  | .push | .call | .enter => true
  | _ => false

theorem Opcode.position?_ofNat {n : Nat} (h : n < 2 ^ 63) :
    position? (Int64.ofNat n) = some n := by
  have ht : (Int64.ofNat n).toInt = n := Int64.toInt_ofNat_of_lt (by simpa using h)
  have hn : ¬ Int64.ofNat n < 0 := by
    rw [Int64.lt_iff_toInt_lt, ht]
    simp
  rw [position?, if_neg hn, Int64.toNatClampNeg, ht, Int.toNat_natCast]

namespace Machine

/-! ## Parts of instructions that only look -/

section

variable {α β : Type}

/-- Work that leaves the machine and the store as they are, whether it succeeds or not. -/
def Looks (x : Step Machine α) : Prop := ∀ m st, (x m st).1.2 = m ∧ (x m st).2 = st

namespace Looks

theorem bind {x : Step Machine α} {f : α → Step Machine β} (hx : Looks x)
    (hf : ∀ a, Looks (f a)) : Looks (x >>= f) := by
  intro m st
  obtain ⟨hm, hs⟩ := hx m st
  rw [Step.bind_apply]
  rcases h : x m st with ⟨⟨e | a, m₁⟩, st₁⟩ <;> rw [h] at hm hs
  · exact ⟨hm, hs⟩
  · obtain rfl : m₁ = m := hm
    obtain rfl : st₁ = st := hs
    exact hf a m₁ st₁

theorem pure (a : α) : Looks (pure a) := fun _ _ => ⟨rfl, rfl⟩

theorem throw (e : Failure) : Looks (throw e : Step Machine α) := fun _ _ => ⟨rfl, rfl⟩

theorem get : Looks get := fun _ _ => ⟨rfl, rfl⟩

theorem getStore : Looks (getThe Store) := fun _ _ => ⟨rfl, rfl⟩

end Looks

theorem looks_fault (f : Fault) : Looks (fault f : Step Machine α) := .throw _

theorem looks_slot (i : Nat) : Looks (slot i) := by
  refine .bind .get fun m => ?_
  split
  · exact .pure _
  · exact looks_fault _

theorem looks_top : Looks top := .bind .get fun _ => looks_slot _

theorem looks_target (n : Int64) : Looks (target n) := by
  rw [target]
  split
  · refine .bind .get fun m => ?_
    split
    · exact .pure _
    · exact looks_fault _
  · exact looks_fault _

theorem looks_constant (n : Int64) : Looks (constant n) := by
  refine .bind .get fun m => ?_
  split
  · exact .pure _
  · exact looks_fault _

theorem looks_offset (base : Nat) (delta : Int64) : Looks (offset base delta) := by
  rw [offset]
  split
  · exact .pure _
  · exact looks_fault _

theorem looks_savedRegister (v : Value) : Looks (savedRegister v) := by
  rw [savedRegister]
  split
  · exact .pure _
  · exact .bind .getStore fun _ => looks_fault _

theorem looks_scopeOf (op : String) (v : Value) : Looks (scopeOf op v) := by
  rw [scopeOf]
  split
  · exact .pure _
  · exact .throw _

end

/-! ## Views -/

/-- A running machine, seen from the top of its stack. -/
structure View where
  pc : Nat
  /-- How far the frame is from the top. -/
  base : Nat
  /-- The slots from the top on. -/
  cells : List Value
  a : Value

/-- The machine runs a program with a stack of some size, and looks like this. -/
structure Shows (p : Program) (size : Nat) (m : Machine) (v : View) : Prop where
  program : m.program = p
  running : m.finished = false
  silent : m.haltMessage = none
  pc : m.pc = v.pc
  a : m.a = v.a
  stack : m.stack.size = size
  sp : m.sp + v.cells.length = size
  bp : m.bp = m.sp + v.base
  cells : m.stack.toList.drop m.sp = v.cells
  base_le : v.base ≤ v.cells.length
  small : size < 2 ^ 63

namespace View

/-! ## What an instruction does to a view -/

/-- Where an operand points, counted from a position above the top. -/
@[simp] def place (base : Nat) (n : Int64) : Option Nat :=
  let i := (base : Int) + n.toInt
  if 0 ≤ i then some i.toNat else none

/-- The view after a push. -/
@[simp] def push (x : Value) (v : View) : View := ⟨v.pc, v.base + 1, x :: v.cells, v.a⟩

/-- The value on top, and the view without it. -/
@[simp] def pop : View → Option (Value × View)
  | ⟨pc, base + 1, x :: cells, a⟩ => some (x, ⟨pc, base, cells, a⟩)
  | _ => none

/-- The view at the code position that a jump names. -/
def goto (p : Program) (n : Int64) (v : View) : Option View :=
  (Opcode.position? n).bind fun pc =>
    if pc < p.code.size then some { v with pc } else none

/-- Where a return leads, on a stack of some size: the code position, and how far the frame
is from the top, when so many slots are left. -/
def restore (size : Nat) (link back : Value) (height : Nat) : Option (Nat × Nat) :=
  (link.number?.bind Opcode.position?).bind fun bp =>
    (back.number?.bind Opcode.position?).bind fun pc =>
      if size ≤ bp + height ∧ bp ≤ size then some (pc, bp + height - size) else none

/-- The view after the return from a call: the frame is given up, and what it saved is the
frame and the code position to go on with. -/
@[simp] def leave (size : Nat) (v : View) : Option View :=
  match v.cells.drop v.base with
  | link :: back :: rest =>
    (restore size link back rest.length).map fun (pc, base) => ⟨pc, base, rest, v.a⟩
  | _ => none

/-- What comes of a view when nothing happens to the store. -/
@[simp] def still (v : Option View) (st : Store) : Option (Except Failure View × Store) :=
  v.map fun v => (.ok v, st)

/-- What comes of a view in which an action leaves its value. -/
@[simp] def acted {α : Type} (x : Action α) (f : α → View) (st : Store) :
    Option (Except Failure View × Store) :=
  some ((x st).1.map f, (x st).2)

/-- Call a native procedure. -/
def invoked (callee : Value) (args : List Value) (scope : Value) : Option (Action Value) :=
  match callee with
  | .native q => some (q.call args)
  | .scopeNative q => scope.scope?.map fun s => q.call args s
  | other => some (do throw (.notCallable (other.shown (← get))))

/-- What an instruction does to a view that it can work on, the program counter being past
the instruction. -/
@[simp] def exec (p : Program) (size : Nat) (op : Opcode) (n : Int64) (v : View) (st : Store) :
    Option (Except Failure View × Store) :=
  match op with
  | .load => still (((place v.base n).bind (v.cells[·]?)).map fun x => { v with a := x }) st
  | .store =>
    still ((place v.base n).bind fun i =>
      if i < v.cells.length then some { v with cells := v.cells.set i v.a } else none) st
  | .adjust =>
    still ((place 0 n).bind fun k =>
      if k ≤ v.base then
        some { v with base := v.base - k, cells := v.cells.drop k }
      else none) st
  | .push => still (some (v.push v.a)) st
  | .pop => still (v.pop.map fun (x, v) => { v with a := x }) st
  | .data => still ((p.constant? n).map fun x => { v with a := x }) st
  | .call => still (goto p n (v.push (registerValue v.pc))) st
  | .leave => still (v.leave size) st
  | .jumpZero => still (if v.a.toInt == 0 then goto p n v else some v) st
  | .jumpNonzero => still (if v.a.toInt != 0 then goto p n v else some v) st
  | .jump => still (goto p n v) st
  | .less =>
    v.pop.bind fun (x, w) =>
      acted (Value.compare .less x v.a) (fun b => { w with a := flag b }) st
  | .lessEqual =>
    v.pop.bind fun (x, w) =>
      acted (Value.compare .lessEqual x v.a) (fun b => { w with a := flag b }) st
  | .equal => still (v.pop.map fun (x, w) => { w with a := flag (x.same v.a st) }) st
  | .equalKeep => still (v.cells.head?.map fun x => { v with a := flag (x.same v.a st) }) st
  | .new => acted (emptyValue v.a.toInt) (fun x => { v with a := x }) st
  | .kind => still (some { v with a := .number v.a.kind.code }) st
  | .count => still (some { v with a := .number (Int64.ofNat (v.a.length st)) }) st
  | .index =>
    still (v.cells.head?.bind fun x =>
      ((Opcode.position? v.a.toInt).bind (x.get? st)).map fun y => { v with a := y }) st
  | .setScope =>
    still (v.a.scope?.bind fun s =>
      match v.cells with
      | .lambda c :: rest => some { v with cells := .lambda { c with scope := s } :: rest }
      | .expander c :: rest => some { v with cells := .expander { c with scope := s } :: rest }
      | _ => none) st
  | .extend =>
    match v.cells with
    | .list r :: _ => some (.ok v, st.extend r v.a)
    | _ => none
  | .convert =>
    (Kind.ofCode? v.a.toInt).bind fun wanted =>
      match v.cells with
      | x :: rest => acted (converted x wanted) (fun y => { v with cells := y :: rest }) st
      | [] => none
  | .invoke =>
    v.pop.bind fun (args, w) => w.pop.bind fun (scope, w) =>
      (invoked v.a (args.items st) scope).bind fun x =>
        acted x (fun y => { w with a := y }) st
  | .head => v.cells.head?.bind fun x => acted x.head (fun y => { v with a := y }) st
  | .tail => v.cells.head?.bind fun x => acted x.tail (fun y => { v with a := y }) st
  | .lookup =>
    v.pop.bind fun (key, w) => v.a.scope?.bind fun s =>
      acted (do Action.lookup s (← Action.keyText key)) (fun y => { w with a := y }) st
  | .assign =>
    v.pop.bind fun (key, w) => (w.cells.head?.bind Value.scope?).bind fun s =>
      acted (do Action.assign s (← Action.keyText key) v.a) (fun _ => w) st
  | .define =>
    v.pop.bind fun (key, w) => (w.cells.head?.bind Value.scope?).bind fun s =>
      acted (do Action.define s (← Action.keyText key) v.a) (fun _ => w) st
  | .newScope =>
    v.pop.bind fun (values, w) => w.pop.bind fun (keys, w) => v.a.scope?.bind fun s =>
      acted (Action.bindParameters keys (values.items st) s)
        (fun t => { w with a := .scope t }) st
  | _ => none

end View

/-! ## What the machine does -/

/-- What comes of a machine is what the view says, but an instruction that pushes may find
no room. -/
inductive Shown (p : Program) (size : Nat) (op : Opcode) :
    Except Failure View × Store → (Except Failure Unit × Machine) × Store → Prop
  | ok {v : View} {m : Machine} {st : Store} (h : Shows p size m v) :
      Shown p size op (.ok v, st) ((.ok (), m), st)
  | error {e : Failure} {m : Machine} {st : Store} :
      Shown p size op (.error e, st) ((.error e, m), st)
  | overflow {v : View} {m : Machine} {st : Store} (ho : op.grows = true)
      (h : size < v.cells.length) :
      Shown p size op (.ok v, st) ((.error (.fault .stackOverflow), m), st)

variable {p : Program} {size : Nat} {op : Opcode} {m : Machine} {v w : View} {st : Store}

theorem place_eq {base i : Nat} {n : Int64} (h : View.place base n = some i) :
    (base : Int) + n.toInt = i := by
  rw [View.place] at h
  split at h
  · cases h
    omega
  · cases h

theorem slot_of {i : Nat} {x : Value} (h : m.stack[i]? = some x) :
    slot i m st = ((.ok x, m), st) := by
  rw [slot, Step.get_bind, h]
  rfl

theorem setSlot_of {i : Nat} (x : Value) (h : i < m.stack.size) :
    setSlot i x m st = ((.ok (), { m with stack := m.stack.setIfInBounds i x }), st) := by
  rw [setSlot, Step.get_bind, if_pos h]
  rfl

theorem constant_of {n : Int64} {x : Value} (h : m.program.constant? n = some x) :
    constant n m st = ((.ok x, m), st) := by
  rw [constant, Step.get_bind, h]
  rfl

theorem scopeOf_of {op : String} {x : Value} {s : ScopeRef} (h : x.scope? = some s) :
    scopeOf op x m st = ((.ok s, m), st) := by
  rw [scopeOf, h]
  rfl

theorem target_of {n : Int64} {pc : Nat} (h : Opcode.position? n = some pc)
    (hp : pc < m.program.code.size) : target n m st = ((.ok pc, m), st) := by
  rw [target, h]
  show (get >>= fun m => if pc < m.program.code.size then pure pc else fault (.jumpTarget n)) m st = _
  rw [Step.get_bind, if_pos hp]
  rfl

theorem offset_of {base : Nat} {n : Int64} {i : Nat} (hb : base < 2 ^ 63)
    (hi : (base : Int) + n.toInt = i) (hs : i < 2 ^ 63) :
    offset base n m st = ((.ok i, m), st) := by
  rw [offset, hi]
  simp only [Int.toNat_natCast]
  rw [if_pos ⟨hb, by omega, by exact_mod_cast hs⟩]
  rfl

namespace Shows

theorem setA (h : Shows p size m v) (x : Value) :
    Shows p size { m with a := x } { v with a := x } :=
  { h with a := rfl }

theorem jump (h : Shows p size m v) (pc : Nat) :
    Shows p size { m with pc } { v with pc } :=
  { h with pc := rfl }

theorem getElem? (h : Shows p size m v) (i : Nat) : m.stack[m.sp + i]? = v.cells[i]? := by
  rw [← h.cells, List.getElem?_drop, Array.getElem?_toList]

theorem length_le (h : Shows p size m v) : v.cells.length ≤ size := by
  have hs := h.sp
  omega

theorem slot (h : Shows p size m v) {i : Nat} {x : Value} (hx : v.cells[i]? = some x) :
    slot (m.sp + i) m st = ((.ok x, m), st) :=
  slot_of (by rw [h.getElem?, hx])

theorem top (h : Shows p size m v) {x : Value} (hx : v.cells.head? = some x) :
    top m st = ((.ok x, m), st) := by
  rw [Machine.top, Step.get_bind]
  exact h.slot (by rw [← List.head?_eq_getElem?, hx])

/-- Changing a slot that is seen. -/
theorem setSlot (h : Shows p size m v) (st : Store) {i : Nat} (x : Value)
    (hi : i < v.cells.length) :
    ∃ m', setSlot (m.sp + i) x m st = ((.ok (), m'), st) ∧
      Shows p size m' { v with cells := v.cells.set i x } := by
  have hs : m.sp + i < m.stack.size := by
    have hsp := h.sp
    have hst := h.stack
    omega
  refine ⟨_, setSlot_of x hs, ?_⟩
  exact { h with
    stack := by
      show (m.stack.setIfInBounds (m.sp + i) x).size = size
      rw [Array.size_setIfInBounds, h.stack]
    sp := by
      show m.sp + (v.cells.set i x).length = size
      rw [List.length_set, h.sp]
    cells := by
      show (m.stack.setIfInBounds (m.sp + i) x).toList.drop m.sp = v.cells.set i x
      rw [Array.toList_setIfInBounds, ← h.cells, List.drop_set,
        if_neg (by omega), Nat.add_sub_cancel_left]
    base_le := by
      show v.base ≤ (v.cells.set i x).length
      rw [List.length_set]
      exact h.base_le }

theorem setTop (h : Shows p size m v) {x : Value} {rest : List Value}
    (hv : v.cells = x :: rest) (y : Value) : ∃ m', setTop y m st = ((.ok (), m'), st) ∧
      Shows p size m' { v with cells := y :: rest } := by
  obtain ⟨m', hm, hs⟩ := h.setSlot st y (i := 0) (by rw [hv]; exact Nat.succ_pos _)
  refine ⟨m', ?_, by rwa [hv] at hs⟩
  rw [Machine.setTop, Step.get_bind]
  exact hm

/-- A push finds room or not. -/
theorem push (h : Shows p size m v) (st : Store) (x : Value) :
    (∃ m', push x m st = ((.ok (), m'), st) ∧ Shows p size m' (v.push x)) ∨
      (push x m st = ((.error (.fault .stackOverflow), m), st) ∧
        size < (v.push x).cells.length) := by
  have hsp := h.sp
  rcases hm : m.sp with _ | sp
  · right
    refine ⟨by rw [Machine.push, Step.get_bind, hm]; rfl, ?_⟩
    show size < v.cells.length + 1
    omega
  · left
    have hst := h.stack
    have hs : sp < m.stack.size := by omega
    refine ⟨{ m with sp, stack := m.stack.setIfInBounds sp x }, ?_, ?_⟩
    · rw [Machine.push, Step.get_bind, hm]
      exact setSlot_of (m := { m with sp }) x hs
    · exact { h with
        stack := by
          show (m.stack.setIfInBounds sp x).size = size
          rw [Array.size_setIfInBounds, hst]
        sp := by
          show sp + (v.cells.length + 1) = size
          omega
        bp := by
          have hb := h.bp
          show m.bp = sp + (v.base + 1)
          omega
        cells := by
          have hc := h.cells
          rw [hm] at hc
          show (m.stack.setIfInBounds sp x).toList.drop sp = x :: v.cells
          rw [Array.toList_setIfInBounds, List.drop_set, if_neg (Nat.lt_irrefl sp),
            Nat.sub_self, List.drop_eq_getElem_cons (by simpa using hs), List.set_cons_zero, hc]
        base_le := Nat.succ_le_succ h.base_le }

/-- Dropping what is on top. -/
theorem drop (h : Shows p size m v) {k : Nat} (hk : k ≤ v.base) :
    Shows p size { m with sp := m.sp + k }
      { v with base := v.base - k, cells := v.cells.drop k } := by
  have hb := h.base_le
  have hs := h.sp
  have hbp := h.bp
  exact { h with
    sp := by
      show m.sp + k + (v.cells.drop k).length = size
      rw [List.length_drop]
      omega
    bp := by
      show m.bp = m.sp + k + (v.base - k)
      omega
    cells := by
      show m.stack.toList.drop (m.sp + k) = v.cells.drop k
      rw [← h.cells, List.drop_drop]
    base_le := by
      show v.base - k ≤ (v.cells.drop k).length
      rw [List.length_drop]
      omega }

theorem pop (h : Shows p size m v) (st : Store) {x : Value} (hw : v.pop = some (x, w)) :
    ∃ m', pop m st = ((.ok x, m'), st) ∧ Shows p size m' w := by
  obtain ⟨pc, _ | base, _ | ⟨y, cells⟩, a⟩ := v
  · cases hw
  · cases hw
  · cases hw
  cases hw
  refine ⟨_, ?_, h.drop (k := 1) (Nat.succ_le_succ (Nat.zero_le _))⟩
  rw [Machine.pop, Step.bind_ok (h.top rfl), Step.modify_bind]
  rfl

theorem goto {n : Int64} (h : Shows p size m v) (st : Store) (hw : v.goto p n = some w) :
    ∃ pc, target n m st = ((.ok pc, m), st) ∧ Shows p size { m with pc } w := by
  obtain ⟨pc, hpc, hw⟩ := Option.bind_eq_some_iff.mp hw
  by_cases hs : pc < p.code.size
  · rw [if_pos hs] at hw
    cases hw
    exact ⟨pc, target_of hpc (by rw [h.program]; exact hs), h.jump pc⟩
  · rw [if_neg hs] at hw
    cases hw

/-- A place that is seen is an address that the machine accepts. -/
theorem offset (h : Shows p size m v) {n : Int64} {i : Nat}
    (hp : View.place v.base n = some i) (hi : i < v.cells.length) :
    offset m.bp n m st = ((.ok (m.sp + i), m), st) := by
  have hs := h.sp
  have hb := h.base_le
  have hsz := h.small
  have hn := place_eq hp
  rw [h.bp]
  exact offset_of (by omega) (by omega) (by omega)

end Shows

/-! ## The instructions -/

/-- When a view is said to go on without the store, the machine goes on to it. -/
theorem Shown.of_still {o : Option View} {out : Except Failure View × Store}
    {x : Step Machine Unit} (h : View.still o st = some out)
    (hx : ∀ w, o = some w → ∃ m', x m st = ((.ok (), m'), st) ∧ Shows p size m' w) :
    Shown p size op out (x m st) := by
  obtain ⟨w, hw, rfl⟩ := Option.map_eq_some_iff.mp h
  obtain ⟨m', hm, hs⟩ := hx w hw
  rw [hm]
  exact .ok hs

/-- When a view is said to take the value of an action, the machine carries the action
out. -/
theorem Shown.of_acted {α : Type} {a : Action α} {f : α → View}
    {out : Except Failure View × Store} {x : α → Step Machine Unit}
    (h : View.acted a f st = some out)
    (hx : ∀ v st', a st = (.ok v, st') →
      ∃ m', x v m st' = ((.ok (), m'), st') ∧ Shows p size m' (f v)) :
    Shown p size op out ((Step.act a >>= x) m st) := by
  cases h
  rcases ha : a st with ⟨e | v, st'⟩
  · rw [Step.act_bind_error m ha]
    exact .error
  · rw [Step.act_bind_ok m ha]
    obtain ⟨m', hm, hs⟩ := hx v st' ha
    rw [hm]
    exact .ok hs

/-- Calling a native procedure is an action. -/
theorem invoke_eq {callee scope : Value} {args : List Value} {x : Action Value}
    (h : View.invoked callee args scope = some x) (m : Machine) (st : Store) :
    invoke callee args scope m st = Step.act x m st := by
  cases callee with
  | native q => cases h; rfl
  | scopeNative q =>
    obtain ⟨s, hs, rfl⟩ := Option.map_eq_some_iff.mp h
    show (scopeOf "CELLINVOKE" scope >>= fun s => Step.act (q.call args s)) m st = _
    rw [Step.bind_ok (scopeOf_of hs)]
  | _ => cases h; rfl

theorem goto_cells {n : Int64} (h : v.goto p n = some w) : w.cells = v.cells := by
  obtain ⟨pc, -, h⟩ := Option.bind_eq_some_iff.mp h
  split at h <;> cases h
  rfl

theorem pop_a {x : Value} (h : v.pop = some (x, w)) : w.a = v.a := by
  obtain ⟨pc, _ | base, _ | ⟨y, cells⟩, a⟩ := v <;> cases h
  rfl

/-- Comparing two numbers, of which the left one is taken off. -/
theorem Shows.comparison {c : Comparison} {out : Except Failure View × Store}
    (h : Shows p size m v)
    (he : (v.pop.bind fun (x, w) =>
      View.acted (Value.compare c x v.a) (fun b => { w with a := flag b }) st) = some out) :
    Shown p size op out (comparison c false m st) := by
  obtain ⟨⟨x, w⟩, hp, he⟩ := Option.bind_eq_some_iff.mp he
  obtain ⟨m', hm, hs⟩ := h.pop st hp
  have ha : m'.a = v.a := by rw [hs.a, pop_a hp]
  rw [Machine.comparison]
  show Shown p size op out ((Machine.pop >>= _) m st)
  rw [Step.bind_ok hm, Step.get_bind, ha]
  exact .of_acted he fun b st' _ => ⟨_, rfl, hs.setA _⟩

/-- A conditional jump, taken or not. -/
theorem Shows.jumpIf (test : Int64 → Bool) {n : Int64} (h : Shows p size m v)
    (hw : (if test v.a.toInt then v.goto p n else some v) = some w) :
    ∃ m', jumpIf test n m st = ((.ok (), m'), st) ∧ Shows p size m' w := by
  rw [Machine.jumpIf, Step.get_bind, h.a]
  by_cases ht : test v.a.toInt
  · rw [if_pos ht] at hw ⊢
    obtain ⟨pc, hg, hj⟩ := h.goto st hw
    exact ⟨_, by rw [Step.bind_ok hg]; rfl, hj⟩
  · rw [if_neg ht] at hw ⊢
    cases hw
    exact ⟨m, rfl, h⟩

/-- Binding a name in the scope below it. -/
theorem Shows.bound (f : ScopeRef → String → Value → Action Unit) {name : String}
    {out : Except Failure View × Store} (h : Shows p size m v)
    (he : (v.pop.bind fun (key, w) => (w.cells.head?.bind Value.scope?).bind fun s =>
      View.acted (do f s (← Action.keyText key) v.a) (fun _ => w) st) = some out) :
    Shown p size op out ((do
      let key ← Step.act (Action.keyText (← Machine.pop))
      let s ← scopeOf name (← Machine.top)
      Step.act (f s key (← get).a) : Step Machine Unit) m st) := by
  obtain ⟨⟨key, w⟩, hp, he⟩ := Option.bind_eq_some_iff.mp he
  obtain ⟨s, hsc, he⟩ := Option.bind_eq_some_iff.mp he
  obtain ⟨x, hx, hsc⟩ := Option.bind_eq_some_iff.mp hsc
  obtain ⟨m', hm, hs⟩ := h.pop st hp
  have ha : m'.a = v.a := by rw [hs.a, pop_a hp]
  cases he
  rw [Step.bind_ok hm]
  rcases hk : Action.keyText key st with ⟨e | name, st₁⟩
  · rw [Step.act_bind_error m' hk, Action.bind_error hk]
    exact .error
  · rw [Step.act_bind_ok m' hk, Action.bind_ok hk, Step.bind_ok (hs.top hx),
      Step.bind_ok (scopeOf_of hsc), Step.get_bind, ha, Step.act_apply]
    rcases f s name v.a st₁ with ⟨_ | _, _⟩
    · exact .error
    · exact .ok hs

theorem savedRegister_of {x : Value} {i : Nat} (h : x.number?.bind Opcode.position? = some i) :
    savedRegister x m st = ((.ok i, m), st) := by
  rw [savedRegister, h]
  rfl

/-- Returning from a call. -/
theorem Shows.leave (h : Shows p size m v) (hw : v.leave size = some w) :
    ∃ m', Machine.execute .leave 0 m st = ((.ok (), m'), st) ∧ Shows p size m' w := by
  rw [View.leave] at hw
  split at hw
  case h_2 => cases hw
  case h_1 link back rest hc =>
    obtain ⟨⟨pc, base⟩, hr, rfl⟩ := Option.map_eq_some_iff.mp hw
    obtain ⟨bp, hbp, hr⟩ := Option.bind_eq_some_iff.mp hr
    obtain ⟨pc', hpc, hr⟩ := Option.bind_eq_some_iff.mp hr
    split at hr
    case isFalse => cases hr
    case isTrue hle =>
      cases hr
      have hd : v.cells.length = v.base + (rest.length + 2) := by
        have hd := congrArg List.length hc
        have hb := h.base_le
        rw [List.length_drop] at hd
        simp only [List.length_cons] at hd
        omega
      have hx (i : Nat) : m.stack[m.bp + i]? = (link :: back :: rest)[i]? := by
        rw [h.bp, Nat.add_assoc, h.getElem?, ← hc, List.getElem?_drop]
      have hp (m₁ : Machine) (x : Value) (hm : m₁.stack[m₁.sp]? = some x) :
          Machine.pop m₁ st = ((.ok x, { m₁ with sp := m₁.sp + 1 }), st) := by
        have ht : Machine.top m₁ st = ((.ok x, m₁), st) := by
          rw [Machine.top, Step.get_bind]
          exact slot_of hm
        rw [Machine.pop, Step.bind_ok ht]
        rfl
      have hsp := h.sp
      have hmb := h.bp
      refine ⟨{ m with sp := m.bp + 2, bp := bp, pc := pc }, ?_, ?_⟩
      · rw [Machine.execute, Step.modify_bind, Step.bind_ok (hp _ link (hx 0)),
          Step.bind_ok (savedRegister_of hbp), Step.modify_bind,
          Step.bind_ok (hp _ back (hx 1)), Step.bind_ok (savedRegister_of hpc)]
        rfl
      · exact { h with
          pc := rfl
          sp := by
            show m.bp + 2 + rest.length = size
            omega
          bp := by
            show bp = m.bp + 2 + (bp + rest.length - size)
            omega
          cells := by
            show m.stack.toList.drop (m.bp + 2) = rest
            rw [hmb, Nat.add_assoc, ← List.drop_drop, h.cells, ← List.drop_drop, hc]
            rfl
          base_le := by
            show bp + rest.length - size ≤ rest.length
            omega }

/-- Entering a procedure: the frame is saved, and the new one gets room for so many slots,
whatever they hold. -/
theorem Shows.enter (h : Shows p size m v) {n : Nat} (hn : n < 2 ^ 63) :
    (∃ m' slots, Machine.execute .enter (Int64.ofNat n) m st = ((.ok (), m'), st) ∧
      slots.length = n ∧
      Shows p size m' { v with
        base := n, cells := slots ++ registerValue (size - v.cells.length + v.base) :: v.cells }) ∨
    ((∃ m', Machine.execute .enter (Int64.ofNat n) m st =
        ((.error (.fault .stackOverflow), m'), st)) ∧ size < v.cells.length + 1 + n) := by
  have hlink : registerValue m.bp = registerValue (size - v.cells.length + v.base) := by
    rw [h.bp, ← h.sp, Nat.add_sub_cancel]
  rw [Machine.execute, Step.get_bind, hlink]
  obtain ⟨m₁, hm, hs⟩ | ⟨hm, hl⟩ := h.push st (registerValue (size - v.cells.length + v.base))
  · rw [Step.bind_ok hm, Step.modify_bind]
    simp only [Opcode.position?_ofNat hn]
    have hsp : m₁.sp + (v.cells.length + 1) = size := hs.sp
    by_cases hr : n ≤ m₁.sp
    · left
      rw [Step.get_bind, if_pos hr]
      have hst := hs.stack
      obtain ⟨slots, hlen, hc⟩ : ∃ slots : List Value, slots.length = n ∧
          m₁.stack.toList.drop (m₁.sp - n) =
            slots ++ registerValue (size - v.cells.length + v.base) :: v.cells := by
        refine ⟨(m₁.stack.toList.drop (m₁.sp - n)).take n, ?_, ?_⟩
        · rw [List.length_take, List.length_drop, Array.length_toList]
          omega
        · have hd : (m₁.stack.toList.drop (m₁.sp - n)).drop n =
              registerValue (size - v.cells.length + v.base) :: v.cells := by
            rw [List.drop_drop, Nat.sub_add_cancel hr, hs.cells]
            rfl
          rw [← hd, List.take_append_drop]
      have hl : (slots ++ registerValue (size - v.cells.length + v.base) :: v.cells).length =
          n + (v.cells.length + 1) := by
        rw [List.length_append, hlen, List.length_cons]
      refine ⟨{ m₁ with bp := m₁.sp, sp := m₁.sp - n }, slots, rfl, hlen, ?_⟩
      exact { hs with
        sp := by
          show m₁.sp - n + (slots ++ _ :: v.cells).length = size
          rw [hl]
          omega
        bp := by
          show m₁.sp = m₁.sp - n + n
          omega
        cells := hc
        base_le := by
          show n ≤ (slots ++ _ :: v.cells).length
          rw [hl]
          omega }
    · right
      rw [Step.get_bind, if_neg hr]
      exact ⟨⟨_, rfl⟩, by omega⟩
  · right
    rw [Step.bind_error hm]
    have hl : size < v.cells.length + 1 := hl
    exact ⟨⟨_, rfl⟩, by omega⟩

/-- What is said of an instruction and a view, the machine does. -/
theorem Shows.execute {n : Int64} {out : Except Failure View × Store}
    (h : Shows p size m v) (he : v.exec p size op n st = some out) :
    Shown p size op out (execute op n m st) := by
  cases op with
  | load =>
    refine .of_still he fun w hw => ?_
    obtain ⟨x, hx, rfl⟩ := Option.map_eq_some_iff.mp hw
    obtain ⟨i, hi, hx⟩ := Option.bind_eq_some_iff.mp hx
    obtain ⟨hl, -⟩ := List.getElem?_eq_some_iff.mp hx
    refine ⟨_, ?_, h.setA x⟩
    rw [Machine.execute, Step.get_bind, Step.bind_ok (h.offset hi hl), Step.bind_ok (h.slot hx)]
    rfl
  | store =>
    refine .of_still he fun w hw => ?_
    obtain ⟨i, hi, hw⟩ := Option.bind_eq_some_iff.mp hw
    by_cases hl : i < v.cells.length
    · rw [if_pos hl] at hw
      cases hw
      obtain ⟨m', hm, hs⟩ := h.setSlot st v.a hl
      refine ⟨m', ?_, hs⟩
      rw [Machine.execute, Step.get_bind, Step.bind_ok (h.offset hi hl), Step.get_bind, h.a]
      exact hm
    · rw [if_neg hl] at hw
      cases hw
  | adjust =>
    refine .of_still he fun w hw => ?_
    obtain ⟨k, hk, hw⟩ := Option.bind_eq_some_iff.mp hw
    by_cases hb : k ≤ v.base
    · rw [if_pos hb] at hw
      cases hw
      refine ⟨_, ?_, h.drop hb⟩
      have hs := h.sp
      have hst := h.stack
      have hsz := h.small
      have hbl := h.base_le
      have hn := place_eq hk
      have ho : Machine.offset m.sp n m st = ((.ok (m.sp + k), m), st) :=
        offset_of (by omega) (by omega) (by omega)
      have hg : ¬ m.sp + k > m.stack.size := by omega
      rw [Machine.execute, Step.get_bind, Step.bind_ok ho, Step.get_bind, if_neg hg]
      rfl
    · rw [if_neg hb] at hw
      cases hw
  | push =>
    cases he
    rw [Machine.execute, Step.get_bind, h.a]
    obtain ⟨m', hm, hs⟩ | ⟨hm, hl⟩ := h.push st v.a
    · rw [hm]
      exact .ok hs
    · rw [hm]
      exact .overflow rfl hl
  | pop =>
    refine .of_still he fun w hw => ?_
    obtain ⟨⟨x, w⟩, hp, rfl⟩ := Option.map_eq_some_iff.mp hw
    obtain ⟨m', hm, hs⟩ := h.pop st hp
    exact ⟨_, by rw [Machine.execute, Step.bind_ok hm]; rfl, hs.setA x⟩
  | data =>
    refine .of_still he fun w hw => ?_
    obtain ⟨x, hx, rfl⟩ := Option.map_eq_some_iff.mp hw
    refine ⟨_, ?_, h.setA x⟩
    rw [Machine.execute, Step.bind_ok (constant_of (by rw [h.program]; exact hx))]
    rfl
  | call =>
    obtain ⟨w, hg, rfl⟩ := Option.map_eq_some_iff.mp he
    rw [Machine.execute, Step.get_bind, h.pc]
    obtain ⟨m', hm, hs⟩ | ⟨hm, hl⟩ := h.push st (registerValue v.pc)
    · obtain ⟨pc, ht, hj⟩ := hs.goto st hg
      rw [Step.bind_ok hm, Step.bind_ok ht]
      exact .ok hj
    · rw [Step.bind_error hm]
      exact .overflow rfl (by rw [goto_cells hg]; exact hl)
  | leave => exact .of_still he fun w hw => h.leave hw
  | jumpZero => exact .of_still he fun w hw => h.jumpIf (· == 0) hw
  | jumpNonzero => exact .of_still he fun w hw => h.jumpIf (· != 0) hw
  | jump =>
    refine .of_still he fun w hw => ?_
    obtain ⟨pc, ht, hj⟩ := h.goto st hw
    exact ⟨_, by rw [Machine.execute, Step.bind_ok ht]; rfl, hj⟩
  | less => exact h.comparison he
  | lessEqual => exact h.comparison he
  | equal =>
    refine .of_still he fun w hw => ?_
    obtain ⟨⟨x, w⟩, hp, rfl⟩ := Option.map_eq_some_iff.mp hw
    obtain ⟨m', hm, hs⟩ := h.pop st hp
    refine ⟨_, ?_, hs.setA _⟩
    have ha : m'.a = v.a := by rw [hs.a, pop_a hp]
    rw [Machine.execute, equality]
    show (Machine.pop >>= _) m st = _
    rw [Step.bind_ok hm, Step.get_bind, ha]
    show Machine.setA (flag (x.same v.a st == true)) m' st = _
    rw [beq_true]
    rfl
  | equalKeep =>
    refine .of_still he fun w hw => ?_
    obtain ⟨x, hx, rfl⟩ := Option.map_eq_some_iff.mp hw
    refine ⟨_, ?_, h.setA _⟩
    rw [Machine.execute, equality]
    show (Machine.top >>= _) m st = _
    rw [Step.bind_ok (h.top hx), Step.get_bind, h.a]
    show Machine.setA (flag (x.same v.a st == true)) m st = _
    rw [beq_true]
    rfl
  | new =>
    rw [Machine.execute, Step.get_bind, h.a]
    exact .of_acted he fun x st' _ => ⟨_, rfl, h.setA x⟩
  | kind =>
    refine .of_still he fun w hw => ?_
    cases hw
    refine ⟨_, ?_, h.setA _⟩
    rw [Machine.execute, Step.get_bind, h.a]
    rfl
  | count =>
    refine .of_still he fun w hw => ?_
    cases hw
    refine ⟨_, ?_, h.setA _⟩
    rw [Machine.execute, Step.get_bind, h.a]
    rfl
  | index =>
    refine .of_still he fun w hw => ?_
    obtain ⟨x, hx, hw⟩ := Option.bind_eq_some_iff.mp hw
    obtain ⟨y, hy, rfl⟩ := Option.map_eq_some_iff.mp hw
    refine ⟨_, ?_, h.setA y⟩
    rw [Machine.execute, Step.get_bind, h.a, Step.bind_ok (h.top hx), Step.getThe_store_bind, hy]
    rfl
  | setScope =>
    refine .of_still he fun w hw => ?_
    obtain ⟨s, hsc, hw⟩ := Option.bind_eq_some_iff.mp hw
    rw [Machine.execute, Step.get_bind, h.a, Step.bind_ok (scopeOf_of hsc)]
    split at hw
    case h_1 c rest hc =>
      cases hw
      rw [Step.bind_ok (h.top (by rw [hc]; rfl))]
      exact h.setTop hc _
    case h_2 c rest hc =>
      cases hw
      rw [Step.bind_ok (h.top (by rw [hc]; rfl))]
      exact h.setTop hc _
    case h_3 => cases hw
  | extend =>
    rw [View.exec] at he
    split at he
    case h_1 r rest hc =>
      cases he
      rw [Machine.execute, Step.bind_ok (h.top (by rw [hc]; rfl)), ← h.a]
      exact .ok h
    case h_2 => cases he
  | convert =>
    obtain ⟨wanted, hk, he⟩ := Option.bind_eq_some_iff.mp he
    split at he
    case h_1 x rest hc =>
      rw [Machine.execute, Step.get_bind, h.a]
      simp only [hk]
      show Shown p size _ out ((Machine.top >>= fun x => Step.act (converted x wanted) >>= Machine.setTop) m st)
      rw [Step.bind_ok (h.top (by rw [hc]; rfl))]
      exact .of_acted he fun y st' _ => h.setTop hc y
    case h_2 => cases he
  | invoke =>
    obtain ⟨⟨args, w₁⟩, hp₁, he⟩ := Option.bind_eq_some_iff.mp he
    obtain ⟨⟨scope, w₂⟩, hp₂, he⟩ := Option.bind_eq_some_iff.mp he
    obtain ⟨x, hx, he⟩ := Option.bind_eq_some_iff.mp he
    obtain ⟨m₁, hm₁, hs₁⟩ := h.pop st hp₁
    obtain ⟨m₂, hm₂, hs₂⟩ := hs₁.pop st hp₂
    have ha : m₂.a = v.a := by rw [hs₂.a, pop_a hp₂, pop_a hp₁]
    rw [Machine.execute, Step.bind_ok hm₁, Step.bind_ok hm₂, Step.get_bind, ha]
    show Shown p size _ out ((Machine.invoke v.a (args.items st) scope >>= Machine.setA) m₂ st)
    rw [Step.bind_apply, invoke_eq hx, ← Step.bind_apply]
    exact .of_acted he fun y st' _ => ⟨_, rfl, hs₂.setA y⟩
  | head =>
    obtain ⟨x, hx, he⟩ := Option.bind_eq_some_iff.mp he
    rw [Machine.execute, Step.bind_ok (h.top hx)]
    exact .of_acted he fun y st' _ => ⟨_, rfl, h.setA y⟩
  | tail =>
    obtain ⟨x, hx, he⟩ := Option.bind_eq_some_iff.mp he
    rw [Machine.execute, Step.bind_ok (h.top hx)]
    exact .of_acted he fun y st' _ => ⟨_, rfl, h.setA y⟩
  | lookup =>
    obtain ⟨⟨key, w⟩, hp, he⟩ := Option.bind_eq_some_iff.mp he
    obtain ⟨s, hsc, he⟩ := Option.bind_eq_some_iff.mp he
    obtain ⟨m', hm, hs⟩ := h.pop st hp
    have ha : m'.a = v.a := by rw [hs.a, pop_a hp]
    rw [Machine.execute, Step.bind_ok hm, Step.get_bind, ha, Step.bind_ok (scopeOf_of hsc)]
    exact .of_acted he fun y st' _ => ⟨_, rfl, hs.setA y⟩
  | assign => exact h.bound Action.assign he
  | define => exact h.bound Action.define he
  | newScope =>
    obtain ⟨⟨values, w₁⟩, hp₁, he⟩ := Option.bind_eq_some_iff.mp he
    obtain ⟨⟨keys, w₂⟩, hp₂, he⟩ := Option.bind_eq_some_iff.mp he
    obtain ⟨s, hsc, he⟩ := Option.bind_eq_some_iff.mp he
    obtain ⟨m₁, hm₁, hs₁⟩ := h.pop st hp₁
    obtain ⟨m₂, hm₂, hs₂⟩ := hs₁.pop st hp₂
    have ha : m₂.a = v.a := by rw [hs₂.a, pop_a hp₂, pop_a hp₁]
    rw [Machine.execute, Step.bind_ok hm₁, Step.bind_ok hm₂, Step.get_bind, ha,
      Step.bind_ok (scopeOf_of hsc)]
    exact .of_acted he fun y st' _ => ⟨_, rfl, hs₂.setA _⟩
  | _ => cases he

end Machine

end LispEngines
