import LispEngines.Proofs.Course.Recursion
import LispEngines.Proofs.Machine.Boundary

/-!
# Registers of 64 bits

The registers of a machine are natural numbers, which add without end, and its stack is only
read through checks.  A processor has 64 bits for a register.  A machine made for one adds to a
register without looking for a carry where it fetches a word, pops a value, exchanges the two
top slots or dumps eight of them; it stores PC and BP as signed numbers of the same width; and it
exchanges and dumps slots without asking whether they are there.  `Words.step` is that machine,
and it traps where one of these operations would go wrong.

It never traps, whatever the program does and however often it has failed before
(`stays_in_bounds`).  A program can load any number that is not negative into PC and BP, and
from BP it gets into SP; but it is a signed number, so there is room above it.  All other values
of SP and BP are positions of slots, and PC is advanced only past a word that is there.  An entry
beyond all signed numbers is the one exception: nothing is ever fetched there, so a machine with
such an entry does not move at all.

* `Words.step`, `Words.dump`: the machine with bare register arithmetic.
* `InRange`: the invariant.  `keeps_execute`: every instruction keeps it, if it succeeds or not.
* `same_execute`: from a machine in range, no instruction traps.
* `Stepped`: what can become of a machine by calls of `step`.
-/

namespace LispEngines

/-- A register that a word names is a signed number. -/
theorem Opcode.lt_of_position? {n : Int64} {i : Nat} (h : Opcode.position? n = some i) :
    i < 2 ^ 63 := by
  have hn := n.toInt_lt
  rw [Opcode.position?] at h
  split at h
  · cases h
  · cases h
    rw [Int64.toNatClampNeg]
    omega

namespace Machine

/-! ## The machine with bare registers -/

/-- Work that traps where a sum of registers overflows, a cast loses bits or an access without
a check is out of range.  A trap, `none`, leaves nothing behind. -/
abbrev Words (α : Type) := Run Machine α

namespace Words

def trap {α : Type} : Words α := fun _ _ => none

/-- A sum of registers. -/
def sum (i j : Nat) : Words Nat := if i + j < 2 ^ 64 then pure (i + j) else trap

/-- A register as a signed number. -/
def signed (i : Nat) : Words Value := if i < 2 ^ 63 then pure (registerValue i) else trap

/-- A stack slot that is read without a check. -/
def slot (i : Nat) : Words Value := do
  match (← get).stack[i]? with
  | some v => pure v
  | none => trap

/-- Two stack slots are exchanged without a check. -/
def exchange (i j : Nat) : Words Unit := do
  let u ← slot i
  let v ← slot j
  modify fun m => { m with stack := (m.stack.setIfInBounds i v).setIfInBounds j u }

/-- The next code word. -/
def fetch : Words Int64 := do
  let pc := (← get).pc
  match (← get).program.code[pc]? with
  | some w =>
    let pc ← sum pc 1
    modify fun m => { m with pc }
    pure w
  | none => Run.ofStep (fault (.outsideCode pc))

/-- Pop a value. -/
def pop : Words Value := do
  let v ← Run.ofStep top
  let sp ← sum (← get).sp 1
  modify fun m => { m with sp }
  pure v

/-- The lines of a dump for so many slots from `i` on. -/
def dumpSlots (st : Store) (i : Nat) : (count : Nat) → Words String
  | 0 => pure ""
  | count + 1 => do
    let v ← slot i
    let rest ← dumpSlots st (i + 1) count
    return "\n  [" ++ toString i ++ "] " ++ v.inspected st ++ rest

/-- The registers, and the slots from SP up to the eighth or to the end of the stack. -/
def dump : Words String := do
  let m ← get
  let st ← getThe Store
  let stop := min m.stack.size (← sum m.sp 8)
  let lines ← dumpSlots st m.sp (stop - m.sp)
  return "PC=" ++ toString m.pc ++ " SP=" ++ toString m.sp ++ " BP=" ++ toString m.bp ++
    " A=" ++ m.a.inspected st ++ " steps=" ++ toString m.steps ++ lines

/-- Exchange the two top slots.  Only the lower one is looked for. -/
def swap : Words Unit := do
  let sp := (← get).sp
  let _ ← Run.ofStep (Machine.slot (← sum sp 1))
  exchange sp (← sum sp 1)

/-- Push PC and jump. -/
def call (n : Int64) : Words Unit := do
  Run.ofStep (push (← signed (← get).pc))
  let pc ← Run.ofStep (target n)
  modify fun m => { m with pc }

/-- Push BP and make room for a frame. -/
def enter (n : Int64) : Words Unit := do
  Run.ofStep (push (← signed (← get).bp))
  Run.ofStep do
    modify fun m => { m with bp := m.sp }
    match Opcode.position? n with
    | none => fault (.negativeFrame n)
    | some size =>
      if size ≤ (← get).sp then modify fun m => { m with sp := m.sp - size }
      else fault .stackOverflow

/-- Go back to the frame and to the position that the frame holds. -/
def leave : Words Unit := do
  modify fun m => { m with sp := m.bp }
  let bp ← Run.ofStep (savedRegister (← pop))
  modify fun m => { m with bp }
  let pc ← Run.ofStep (savedRegister (← pop))
  modify fun m => { m with pc }

/-- Compare a value that is popped with the accumulator. -/
def comparison (op : Comparison) : Words Unit := do
  let left ← pop
  Run.ofStep do setA (flag (← Step.act (Value.compare op left (← get).a)))

/-- Test whether a value that is popped equals the accumulator. -/
def equality (wanted : Bool) : Words Unit := do
  let left ← pop
  Run.ofStep do
    let right := (← get).a
    setA (flag (left.same right (← getThe Store) == wanted))

/-- Execute one instruction with its operand.  The instructions that are left to the last line
reach registers and stack through checks alone. -/
def execute (op : Opcode) (n : Int64) : Words Unit := do
  match op with
  | .pop => Run.ofStep (setA (← pop))
  | .swap => swap
  | .call => call n
  | .enter => enter n
  | .leave => leave
  | .less => comparison .less
  | .lessEqual => comparison .lessEqual
  | .greater => comparison .greater
  | .equal => equality true
  | .unequal => equality false
  | .sub =>
    let left ← pop
    Run.ofStep do setA (← Step.act (Value.sub left (← get).a))
  | .mul =>
    let left ← pop
    Run.ofStep do setA (← Step.act (Value.mul left (← get).a))
  | .getScope =>
    let v ← pop
    Run.ofStep do setA (.scope (← scopeOf "CELLGETENV" v))
  | .invoke =>
    let args ← pop
    let scope ← pop
    Run.ofStep do setA (← invoke (← get).a (args.items (← getThe Store)) scope)
  | .lookup =>
    let key ← pop
    Run.ofStep do
      let s ← scopeOf "ENVLOOKUP" (← get).a
      setA (← Step.act (do Action.lookup s (← Action.keyText key)))
  | .assign =>
    let key ← pop
    Run.ofStep do
      let key ← Step.act (Action.keyText key)
      let s ← scopeOf "ENVSET" (← top)
      Step.act (Action.assign s key (← get).a)
  | .define =>
    let key ← pop
    Run.ofStep do
      let key ← Step.act (Action.keyText key)
      let s ← scopeOf "ENVDEFINE" (← top)
      Step.act (Action.define s key (← get).a)
  | .newScope =>
    let values ← pop
    let keys ← pop
    Run.ofStep do
      let parent ← scopeOf "ENVNEW" (← get).a
      let items := values.items (← getThe Store)
      setA (.scope (← Step.act (Action.bindParameters keys items parent)))
  | .dump => Run.ofStep (emit ((← dump) ++ "\n"))
  | op => Run.ofStep (Machine.execute op n)

/-- Fetch, decode and execute one instruction. -/
def step : Words Unit := do
  let pc := (← get).pc
  if (← get).finished then
    Run.ofStep (throw (.missingOpcode ((← get).program.code.getD pc (-1)) pc))
  let word ← fetch
  match Opcode.ofWord? word with
  | none => Run.ofStep (throw (.missingOpcode word pc))
  | some op =>
    let n ← if op.operandCount = 0 then pure 0 else fetch
    modify fun m => { m with steps := m.steps + 1 }
    execute op n

end Words

/-! ## Machines in range -/

/-- The machine has its program and the stack its size, and the registers are numbers that can
be signed. -/
structure InRange (p : Program) (size : Nat) (m : Machine) : Prop where
  program : m.program = p
  code : p.code.size < 2 ^ 63
  room : size < 2 ^ 62
  stack : m.stack.size = size
  sp : m.sp < 2 ^ 63
  bp : m.bp < 2 ^ 63
  pc : m.pc < 2 ^ 63

/-- Work that leaves a machine in range whether it succeeds or not.  Where it succeeds its result
is as `Q` says, and SP has not left the stack. -/
def Keeps {α : Type} (p : Program) (size : Nat) (x : Step Machine α) (Q : α → Prop) : Prop :=
  ∀ m st, InRange p size m → InRange p size (x m st).1.2 ∧
    ∀ a, (x m st).1.1 = .ok a → Q a ∧ (m.sp ≤ size → (x m st).1.2.sp ≤ size)

variable {α β : Type} {p : Program} {size : Nat} {Q : α → Prop} {R : β → Prop}

/-- Any result will do. -/
abbrev Any (_ : α) : Prop := True

theorem Looks.keeps {x : Step Machine α} (h : Looks x) : Keeps p size x Any := by
  intro m st hm
  rw [(h m st).1]
  exact ⟨hm, fun _ _ => ⟨trivial, id⟩⟩

namespace Keeps

theorem bind {x : Step Machine α} {f : α → Step Machine β} (hx : Keeps p size x Q)
    (hf : ∀ a, Q a → Keeps p size (f a) R) : Keeps p size (x >>= f) R := by
  intro m st hm
  obtain ⟨hk, hr⟩ := hx m st hm
  rw [Step.bind_apply]
  rcases h : x m st with ⟨⟨e | a, m₁⟩, st₁⟩ <;> rw [h] at hk hr
  · exact ⟨hk, nofun⟩
  · obtain ⟨ha, hsp⟩ := hr a rfl
    obtain ⟨hk', hr'⟩ := hf a ha m₁ st₁ hk
    exact ⟨hk', fun b hb => ⟨(hr' b hb).1, fun h => (hr' b hb).2 (hsp h)⟩⟩

theorem pure {a : α} (h : Q a) : Keeps p size (pure a) Q := by
  refine fun m st hm => ⟨hm, fun b hb => ?_⟩
  cases hb
  exact ⟨h, id⟩

theorem throw (e : Failure) : Keeps p size (throw e : Step Machine α) Q := fun _ _ hm => ⟨hm, nofun⟩

theorem get : Keeps p size get (InRange p size) := by
  refine fun m st hm => ⟨hm, fun b hb => ?_⟩
  cases hb
  exact ⟨hm, id⟩

theorem getStore : Keeps p size (getThe Store) Any := fun _ _ hm => ⟨hm, fun _ _ => ⟨trivial, id⟩⟩

theorem modify {f : Machine → Machine} (h : ∀ m, InRange p size m → InRange p size (f m))
    (hsp : ∀ m, InRange p size m → m.sp ≤ size → (f m).sp ≤ size) : Keeps p size (modify f) Any :=
  fun m _ hm => ⟨h m hm, fun _ _ => ⟨trivial, hsp m hm⟩⟩

theorem act (a : Action α) : Keeps p size (Step.act a) Any :=
  fun _ _ hm => ⟨hm, fun _ _ => ⟨trivial, id⟩⟩

end Keeps

theorem keeps_fault (f : Fault) : Keeps p size (fault f : Step Machine α) Q := .throw _

theorem keeps_setSlot (i : Nat) (v : Value) : Keeps p size (setSlot i v) Any := by
  refine .bind .get fun m _ => ?_
  split
  · exact .modify (fun m hm => { hm with stack := by simpa using hm.stack }) fun _ _ h => h
  · exact keeps_fault _

theorem keeps_setTop (v : Value) : Keeps p size (setTop v) Any :=
  .bind .get fun _ _ => keeps_setSlot _ v

theorem keeps_setA (v : Value) : Keeps p size (setA v) Any :=
  .modify (fun _ hm => { hm with }) fun _ _ h => h

theorem keeps_push (v : Value) : Keeps p size (push v) Any := by
  intro m st hm
  have hsp := hm.sp
  rw [push, Step.get_bind]
  cases hs : m.sp with
  | zero => exact ⟨hm, fun _ ha => by cases ha⟩
  | succ sp =>
    have hset : Keeps p size (setSlot sp v) Any := keeps_setSlot sp v
    obtain ⟨hk, hr⟩ := hset { m with sp } st { hm with sp := by show sp < 2 ^ 63; omega }
    exact ⟨hk, fun a ha => ⟨trivial, fun h => (hr a ha).2 (Nat.le_of_succ_le h)⟩⟩

theorem top_apply (m : Machine) (st : Store) : top m st =
    ((match m.stack[m.sp]? with
      | some v => .ok v
      | none => .error (.fault (.stackIndex m.sp)), m), st) := by
  rw [top, Step.get_bind, slot, Step.get_bind]
  cases m.stack[m.sp]? <;> rfl

theorem pop_apply (m : Machine) (st : Store) : pop m st =
    match m.stack[m.sp]? with
    | some v => ((.ok v, { m with sp := m.sp + 1 }), st)
    | none => ((.error (.fault (.stackIndex m.sp)), m), st) := by
  rw [pop, Step.bind_apply, top_apply]
  cases m.stack[m.sp]? <;> rfl

/-- Where a value is popped, SP was at a slot, wherever it was taken from. -/
theorem keeps_popFrom {f : Machine → Machine} (h : ∀ m, InRange p size m → InRange p size (f m)) :
    Keeps p size (modify f >>= fun _ => pop) Any := by
  intro m st hm
  have hf := h m hm
  rw [Step.modify_bind, pop_apply]
  cases hs : (f m).stack[(f m).sp]? with
  | none => exact ⟨hf, nofun⟩
  | some v =>
    have hlt : (f m).sp < size := hf.stack ▸ (Array.getElem?_eq_some_iff.mp hs).1
    have hroom := hf.room
    refine ⟨{ hf with sp := ?_ }, fun a _ => ⟨trivial, fun _ => hlt⟩⟩
    show (f m).sp + 1 < 2 ^ 63
    omega

theorem keeps_pop : Keeps p size pop Any := keeps_popFrom fun _ hm => hm

theorem keeps_fetch : Keeps p size fetch Any := by
  refine fun m st hm => ?_
  have hcode := hm.program ▸ hm.code
  rw [fetch, Step.get_bind, Step.get_bind]
  cases hw : m.program.code[m.pc]? with
  | none => exact ⟨hm, fun _ ha => by cases ha⟩
  | some w =>
    have hlt := (Array.getElem?_eq_some_iff.mp hw).1
    refine ⟨{ hm with pc := ?_ }, fun _ _ => ⟨trivial, id⟩⟩
    show m.pc + 1 < 2 ^ 63
    omega

theorem keeps_target (n : Int64) : Keeps p size (target n) (· < 2 ^ 63) := by
  rw [target]
  split
  · next hn =>
    refine .bind .get fun m hm => ?_
    split
    · exact .pure (Opcode.lt_of_position? hn)
    · exact keeps_fault _
  · exact keeps_fault _

theorem keeps_offset (base : Nat) (delta : Int64) :
    Keeps p size (offset base delta) (· < 2 ^ 63) := by
  rw [offset]
  split
  · exact .pure (by omega)
  · exact keeps_fault _

theorem keeps_savedRegister (v : Value) : Keeps p size (savedRegister v) (· < 2 ^ 63) := by
  rw [savedRegister]
  split
  · next hi =>
    obtain ⟨n, -, hn⟩ := Option.bind_eq_some_iff.mp hi
    exact .pure (Opcode.lt_of_position? hn)
  · exact .bind .getStore fun _ _ => keeps_fault _

/-- PC goes where a register may point. -/
theorem keeps_setPc {pc : Nat} (h : pc < 2 ^ 63) :
    Keeps p size (modify fun m : Machine => { m with pc }) Any :=
  .modify (fun _ hm => { hm with pc := h }) fun _ _ h => h

theorem keeps_comparison (op : Comparison) (keep : Bool) :
    Keeps p size (comparison op keep) Any := by
  refine .bind (Q := Any) ?_ fun _ _ => .bind .get fun _ _ => .bind (.act _) fun _ _ => keeps_setA _
  cases keep
  · exact keeps_pop
  · exact looks_top.keeps

theorem keeps_equality (wanted keep : Bool) : Keeps p size (equality wanted keep) Any := by
  refine .bind (Q := Any) ?_ fun _ _ => .bind .get fun _ _ => .bind .getStore fun _ _ => keeps_setA _
  cases keep
  · exact keeps_pop
  · exact looks_top.keeps

theorem keeps_jumpIf (test : Int64 → Bool) (n : Int64) : Keeps p size (jumpIf test n) Any := by
  refine .bind .get fun m _ => ?_
  split
  · exact .bind (keeps_target n) fun _ hpc => keeps_setPc hpc
  · exact .pure trivial

theorem keeps_invoke (callee : Value) (args : List Value) (scope : Value) :
    Keeps p size (invoke callee args scope) Any := by
  cases callee with
  | native p => exact .act _
  | scopeNative p => exact .bind (looks_scopeOf _ _).keeps fun _ _ => .act _
  | _ => exact .bind .getStore fun _ _ => .throw _

/-- `LEAVE` takes SP to the frame and pops from there. -/
theorem execute_leave (n : Int64) : execute .leave n =
    (modify (fun m => { m with sp := m.bp }) >>= fun _ => pop) >>= (fun link => do
      let bp ← savedRegister link
      modify fun m => { m with bp }
      let pc ← savedRegister (← pop)
      modify fun m => { m with pc }) := by
  rw [bind_assoc]
  rfl

/-- Every instruction keeps a machine in range. -/
theorem keeps_execute (op : Opcode) (n : Int64) : Keeps p size (execute op n) Any := by
  cases op with
  | nop => exact .pure trivial
  | load =>
    exact .bind .get fun _ _ => .bind (keeps_offset _ _) fun _ _ =>
      .bind (looks_slot _).keeps fun _ _ => keeps_setA _
  | store =>
    exact .bind .get fun _ _ => .bind (keeps_offset _ _) fun _ _ => .bind .get fun _ _ =>
      keeps_setSlot _ _
  | adjust =>
    refine .bind .get fun _ _ => .bind (keeps_offset _ _) fun sp hsp => .bind .get fun m hm => ?_
    split
    · exact .bind (Q := fun _ => False) (keeps_fault _) fun _ h => h.elim
    · next hle =>
      have hstack := hm.stack
      exact .modify (fun _ hm => { hm with sp := hsp }) fun _ _ _ => by
        show sp ≤ size
        omega
  | push => exact .bind .get fun _ _ => keeps_push _
  | pop => exact .bind keeps_pop fun _ _ => keeps_setA _
  | peek => exact .bind looks_top.keeps fun _ _ => keeps_setA _
  | dup => exact .bind looks_top.keeps fun _ _ => keeps_push _
  | swap =>
    exact .bind .get fun _ _ => .bind (looks_slot _).keeps fun _ _ => .bind (looks_slot _).keeps fun _ _ =>
      .bind (keeps_setSlot _ _) fun _ _ => keeps_setSlot _ _
  | data => exact .bind (looks_constant n).keeps fun _ _ => keeps_setA _
  | call =>
    exact .bind .get fun _ _ => .bind (keeps_push _) fun _ _ => .bind (keeps_target n) fun _ hpc =>
      keeps_setPc hpc
  | enter =>
    refine .bind .get fun _ _ => .bind (keeps_push _) fun _ _ =>
      .bind (.modify (fun _ hm => { hm with bp := hm.sp }) fun _ _ h => h) fun _ _ => ?_
    split
    · exact keeps_fault _
    · next frame _ =>
      refine .bind .get fun _ _ => ?_
      split
      · refine .modify (fun m hm => { hm with sp := ?_ }) fun m _ h => ?_
        · exact Nat.lt_of_le_of_lt (Nat.sub_le _ _) hm.sp
        · exact Nat.le_trans (Nat.sub_le _ _) h
      · exact keeps_fault _
  | leave =>
    rw [execute_leave]
    exact .bind (keeps_popFrom fun _ hm => { hm with sp := hm.bp }) fun _ _ =>
      .bind (keeps_savedRegister _) fun _ hbp =>
      .bind (.modify (fun _ hm => { hm with bp := hbp }) fun _ _ h => h) fun _ _ =>
      .bind keeps_pop fun _ _ => .bind (keeps_savedRegister _) fun _ hpc => keeps_setPc hpc
  | jumpZero | jumpNonzero => exact keeps_jumpIf _ n
  | jump => exact .bind (keeps_target n) fun _ hpc => keeps_setPc hpc
  | less | lessKeep | lessEqual | lessEqualKeep | greater | greaterKeep =>
    exact keeps_comparison _ _
  | equal | equalKeep | unequal | unequalKeep => exact keeps_equality _ _
  | sub | mul =>
    exact .bind keeps_pop fun _ _ => .bind .get fun _ _ => .bind (.act _) fun _ _ => keeps_setA _
  | new => exact .bind .get fun _ _ => .bind (.act _) fun _ _ => keeps_setA _
  | kind => exact .bind .get fun _ _ => keeps_setA _
  | count => exact .bind .get fun _ _ => .bind .getStore fun _ _ => keeps_setA _
  | index =>
    refine .bind .get fun _ _ => .bind looks_top.keeps fun _ _ => .bind .getStore fun _ _ => ?_
    split
    · exact keeps_setA _
    · exact keeps_fault _
  | setScope =>
    refine .bind .get fun _ _ => .bind (looks_scopeOf _ _).keeps fun _ _ => .bind looks_top.keeps fun v _ => ?_
    split
    · exact keeps_setTop _
    · exact keeps_setTop _
    · exact .throw _
  | getScope =>
    exact .bind keeps_pop fun _ _ => .bind (looks_scopeOf _ _).keeps fun _ _ => keeps_setA _
  | extend =>
    refine .bind looks_top.keeps fun v _ => ?_
    split
    · exact .bind .get fun _ _ => fun m st hm => ⟨hm, fun _ _ => ⟨trivial, id⟩⟩
    · exact .throw _
  | convert =>
    refine .bind .get fun _ _ => ?_
    dsimp only
    split
    · exact .bind .getStore fun _ _ => .throw _
    · exact .bind looks_top.keeps fun _ _ => .bind (.act _) fun _ _ => keeps_setTop _
  | invoke =>
    exact .bind keeps_pop fun _ _ => .bind keeps_pop fun _ _ => .bind .get fun _ _ =>
      .bind .getStore fun _ _ => .bind (keeps_invoke _ _ _) fun _ _ => keeps_setA _
  | head | tail => exact .bind looks_top.keeps fun _ _ => .bind (.act _) fun _ _ => keeps_setA _
  | lookup =>
    exact .bind keeps_pop fun _ _ => .bind .get fun _ _ => .bind (looks_scopeOf _ _).keeps fun _ _ =>
      .bind (.act _) fun _ _ => keeps_setA _
  | assign | define =>
    exact .bind keeps_pop fun _ _ => .bind (.act _) fun _ _ => .bind looks_top.keeps fun _ _ =>
      .bind (looks_scopeOf _ _).keeps fun _ _ => .bind .get fun _ _ => .act _
  | newScope =>
    exact .bind keeps_pop fun _ _ => .bind keeps_pop fun _ _ => .bind .get fun _ _ =>
      .bind (looks_scopeOf _ _).keeps fun _ _ => .bind .getStore fun _ _ => .bind (.act _) fun _ _ =>
      keeps_setA _
  | exit => exact .modify (fun _ hm => { hm with }) fun _ _ h => h
  | print => exact .bind .get fun _ _ => .bind .getStore fun _ _ => .act _
  | halt =>
    exact .bind (looks_constant n).keeps fun _ _ => .bind .getStore fun _ _ => .bind (.act _) fun _ _ =>
      .modify (fun _ hm => { hm with }) fun _ _ h => h
  | dump => exact .bind .get fun _ _ => .bind .getStore fun _ _ => .act _

/-! ## No trap -/

/-- From a machine in range, `y` does what `x` does, without a trap. -/
def Same (p : Program) (size : Nat) (x : Step Machine α) (y : Words α) : Prop :=
  ∀ m st, InRange p size m → y m st = some (x m st)

namespace Same

theorem ofStep (x : Step Machine α) : Same p size x (Run.ofStep x) := fun _ _ _ => rfl

theorem bind {x : Step Machine α} {y : Words α} {f : α → Step Machine β} {g : α → Words β}
    (h : Same p size x y) (hx : Keeps p size x Q) (hf : ∀ a, Q a → Same p size (f a) (g a)) :
    Same p size (x >>= f) (y >>= g) := by
  intro m st hm
  obtain ⟨hk, hr⟩ := hx m st hm
  rw [Run.bind_apply, h m st hm, Step.bind_apply, Option.bind_some]
  rcases hxm : x m st with ⟨⟨e | a, m₁⟩, st₁⟩
  · rfl
  · rw [hxm] at hk hr
    exact hf a (hr a rfl).1 m₁ st₁ hk

theorem get : Same p size get get := fun _ _ _ => rfl

theorem modify (f : Machine → Machine) : Same p size (modify f) (modify f) := fun _ _ _ => rfl

end Same

theorem Words.sum_of_lt {i j : Nat} (h : i + j < 2 ^ 64) : sum i j = pure (i + j) := if_pos h

theorem Words.signed_of_lt {i : Nat} (h : i < 2 ^ 63) : signed i = pure (registerValue i) :=
  if_pos h

theorem Words.slot_of {m : Machine} {i : Nat} {v : Value} (h : m.stack[i]? = some v) (st : Store) :
    slot i m st = some ((.ok v, m), st) := by
  show (match m.stack[i]? with | some v => (pure v : Words Value) | none => trap) m st = _
  rw [h]
  rfl

theorem same_pop : Same p size pop Words.pop := by
  refine .bind (.ofStep top) looks_top.keeps fun v _ m st hm => ?_
  have hsp := hm.sp
  show ((Words.sum m.sp 1 >>= fun sp => (modify fun m => { m with sp }) >>= fun _ => pure v) :
    Words Value) m st = _
  rw [Words.sum_of_lt (by omega)]
  rfl

theorem same_fetch : Same p size fetch Words.fetch := by
  intro m st hm
  have hcode := hm.program ▸ hm.code
  show (match m.program.code[m.pc]? with
    | some w => Words.sum m.pc 1 >>= fun pc => (modify fun m => { m with pc }) >>= fun _ => pure w
    | none => Run.ofStep (fault (.outsideCode m.pc)) : Words Int64) m st = _
  rw [fetch, Step.get_bind, Step.get_bind]
  cases hw : m.program.code[m.pc]? with
  | none => rfl
  | some w =>
    have hlt := (Array.getElem?_eq_some_iff.mp hw).1
    dsimp only
    rw [Words.sum_of_lt (by omega)]
    rfl

/-- Where the lower of two slots is there, so is the upper one. -/
theorem same_exchange (i : Nat) :
    Same p size (do
        let lower ← slot (i + 1)
        let upper ← slot i
        setSlot i lower
        setSlot (i + 1) upper)
      (Run.ofStep (slot (i + 1)) >>= fun _ => Words.exchange i (i + 1)) := by
  intro m st _
  cases hl : m.stack[i + 1]? with
  | none =>
    have hs : slot (i + 1) m st = ((.error (.fault (.stackIndex (i + 1))), m), st) := by
      rw [slot, Step.get_bind, hl]
      rfl
    rw [Step.bind_error hs]
    exact Run.bind_error (congrArg some hs)
  | some lower =>
    have hlt := (Array.getElem?_eq_some_iff.mp hl).1
    obtain ⟨upper, hu⟩ : ∃ upper, m.stack[i]? = some upper :=
      ⟨_, Array.getElem?_eq_getElem (by omega)⟩
    rw [Run.bind_ok (congrArg some (slot_of hl)), Words.exchange, Run.bind_ok (Words.slot_of hu st),
      Run.bind_ok (Words.slot_of hl st), Step.bind_ok (slot_of hl), Step.bind_ok (slot_of hu),
      Step.bind_ok (setSlot_of lower (by omega)), setSlot_of upper (by simpa using hlt)]
    rfl

theorem same_swap (n : Int64) : Same p size (execute .swap n) Words.swap := by
  refine .bind .get .get fun m hm => ?_
  have hsp := hm.sp
  dsimp only
  rw [Words.sum_of_lt (by omega)]
  exact same_exchange m.sp

theorem same_call (n : Int64) : Same p size (execute .call n) (Words.call n) := by
  refine .bind .get .get fun m hm => ?_
  rw [Words.signed_of_lt hm.pc]
  exact .bind (.ofStep (push (registerValue m.pc))) (keeps_push _) fun _ _ =>
    .bind (.ofStep (target n)) (keeps_target n) fun _ _ => .modify _

theorem same_enter (n : Int64) : Same p size (execute .enter n) (Words.enter n) := by
  refine .bind .get .get fun m hm => ?_
  rw [Words.signed_of_lt hm.bp]
  exact .bind (.ofStep (push (registerValue m.bp))) (keeps_push _) fun _ _ => .ofStep _

theorem same_leave (n : Int64) : Same p size (execute .leave n) Words.leave := by
  have hsplit : Words.leave =
      (modify (fun m => { m with sp := m.bp }) >>= fun _ => Words.pop) >>= (fun link => do
        let bp ← Run.ofStep (savedRegister link)
        modify fun m => { m with bp }
        let pc ← Run.ofStep (savedRegister (← Words.pop))
        modify fun m => { m with pc }) := by
    rw [bind_assoc]
    rfl
  have hfrom : Same p size (modify (fun m => { m with sp := m.bp }) >>= fun _ => pop)
      (modify (fun m => { m with sp := m.bp }) >>= fun _ => Words.pop) :=
    fun m st hm => same_pop { m with sp := m.bp } st { hm with sp := hm.bp }
  rw [execute_leave, hsplit]
  exact hfrom.bind (keeps_popFrom fun _ hm => { hm with sp := hm.bp }) fun _ _ =>
    .bind (.ofStep _) (keeps_savedRegister _) fun bp hbp =>
    .bind (.modify _) (.modify (fun _ hm => { hm with bp := hbp }) fun _ _ h => h) fun _ _ =>
    same_pop.bind keeps_pop fun _ _ =>
    .bind (.ofStep _) (keeps_savedRegister _) fun _ _ => .modify _

theorem same_comparison (op : Comparison) :
    Same p size (comparison op false) (Words.comparison op) :=
  same_pop.bind keeps_pop fun _ _ => .ofStep _

theorem same_equality (wanted : Bool) :
    Same p size (equality wanted false) (Words.equality wanted) :=
  same_pop.bind keeps_pop fun _ _ => .ofStep _

/-! ### The dump -/

/-- The slots that are dumped are there. -/
theorem words_dumpSlots (m : Machine) (st : Store) : ∀ n i : Nat,
    Words.dumpSlots st i (min m.stack.size (i + n) - i) m st =
      some ((.ok (m.dumpSlots st i n), m), st)
  | 0, i => by
    have hnone : min m.stack.size (i + 0) - i = 0 := by omega
    rw [hnone]
    rfl
  | n + 1, i => by
    rw [Machine.dumpSlots]
    cases hs : m.stack[i]? with
    | none =>
      have hle := Array.getElem?_eq_none_iff.mp hs
      have hnone : min m.stack.size (i + (n + 1)) - i = 0 := by omega
      rw [hnone]
      rfl
    | some v =>
      have hlt := (Array.getElem?_eq_some_iff.mp hs).1
      have hmore : min m.stack.size (i + (n + 1)) - i =
          min m.stack.size (i + 1 + n) - (i + 1) + 1 := by omega
      rw [hmore, Words.dumpSlots, Run.bind_ok (Words.slot_of hs st),
        Run.bind_ok (words_dumpSlots m st n (i + 1))]
      rfl

theorem words_dump {m : Machine} (hsp : m.sp < 2 ^ 63) (st : Store) :
    Words.dump m st = some ((.ok (m.dump st), m), st) := by
  have hsum : Words.sum m.sp 8 = pure (m.sp + 8) := Words.sum_of_lt (by omega)
  have hget : (get : Words Machine) m st = some ((.ok m, m), st) := rfl
  have hstore : (getThe Store : Words Store) m st = some ((.ok st, m), st) := rfl
  rw [Words.dump, Run.bind_ok hget, Run.bind_ok hstore, hsum, pure_bind,
    Run.bind_ok (words_dumpSlots m st 8 m.sp)]
  rfl

/-- Every instruction does what it does without a trap. -/
theorem same_execute (op : Opcode) (n : Int64) :
    Same p size (execute op n) (Words.execute op n) := by
  cases op with
  | pop => exact same_pop.bind keeps_pop fun _ _ => .ofStep _
  | swap => exact same_swap n
  | call => exact same_call n
  | enter => exact same_enter n
  | leave => exact same_leave n
  | less | lessEqual | greater => exact same_comparison _
  | equal | unequal => exact same_equality _
  | sub | mul | getScope | lookup | assign | define =>
    exact same_pop.bind keeps_pop fun _ _ => .ofStep _
  | invoke | newScope =>
    exact same_pop.bind keeps_pop fun _ _ => same_pop.bind keeps_pop fun _ _ => .ofStep _
  | dump =>
    intro m st hm
    show (Words.dump >>= fun text => Run.ofStep (emit (text ++ "\n"))) m st = _
    rw [Run.bind_ok (words_dump hm.sp st)]
    rfl
  | _ => exact .ofStep _

/-! ## Steps -/

theorem keeps_counted (op : Opcode) (n : Int64) : Keeps p size (do
    modify fun m : Machine => { m with steps := m.steps + 1 }
    execute op n) Any :=
  .bind (.modify (fun _ hm => { hm with }) fun _ _ h => h) fun _ _ => keeps_execute op n

theorem same_counted (op : Opcode) (n : Int64) : Same p size (do
      modify fun m : Machine => { m with steps := m.steps + 1 }
      execute op n)
    (do
      modify fun m : Machine => { m with steps := m.steps + 1 }
      Words.execute op n) :=
  .bind (.modify _) (.modify (fun _ hm => { hm with }) fun _ _ h => h) fun _ _ => same_execute op n

/-- A step keeps a machine in range. -/
theorem keeps_step : Keeps p size step Any := by
  refine .bind .get fun _ _ => .bind .get fun _ _ => ?_
  split
  · exact .bind .get fun _ _ => .bind (Q := fun _ => False) (.throw _) fun _ h => h.elim
  · refine .bind keeps_fetch fun w _ => ?_
    cases Opcode.ofWord? w with
    | none => exact .throw _
    | some op =>
      dsimp only
      split
      · exact .bind (Q := Any) (.pure trivial) fun n _ => keeps_counted op n
      · exact .bind keeps_fetch fun n _ => keeps_counted op n

/-- A step of a machine in range does not trap. -/
theorem same_step : Same p size step Words.step := by
  refine .bind .get .get fun m _ => .bind .get .get fun m' _ => ?_
  split
  · refine .bind .get .get fun m'' _ => .bind (Q := fun _ => False) (.ofStep (throw _)) (.throw _) ?_
    exact fun _ h => h.elim
  · refine .bind same_fetch keeps_fetch fun w _ => ?_
    cases Opcode.ofWord? w with
    | none => exact .ofStep (throw _)
    | some op =>
      dsimp only
      split
      · exact .bind (Q := Any) (fun _ _ _ => rfl) (.pure trivial) fun n _ => same_counted op n
      · exact same_fetch.bind keeps_fetch fun n _ => same_counted op n

/-- Where there is no code, nothing is fetched and nothing changes. -/
theorem step_outside {m : Machine} (h : m.program.code.size ≤ m.pc) (st : Store) :
    ∃ e, step m st = ((.error e, m), st) ∧ Words.step m st = some ((.error e, m), st) := by
  cases hf : m.finished with
  | true =>
    refine ⟨.missingOpcode (m.program.code.getD m.pc (-1)) m.pc, ?_, ?_⟩
    · rw [step, Step.get_bind, Step.get_bind, if_pos hf]
      rfl
    · show (if m.finished then _ else _ : Words Unit) m st = _
      rw [if_pos hf]
      rfl
  | false =>
    have hnone : m.program.code[m.pc]? = none := Array.getElem?_eq_none h
    refine ⟨.fault (.outsideCode m.pc), ?_, ?_⟩
    · have hx : fetch m st = ((.error (.fault (.outsideCode m.pc)), m), st) := by
        rw [fetch, Step.get_bind, Step.get_bind, hnone]
        rfl
      rw [step, Step.get_bind, Step.get_bind, if_neg (by simp [hf])]
      exact Step.bind_error hx
    · have hx : Words.fetch m st = some ((.error (.fault (.outsideCode m.pc)), m), st) := by
        show (match m.program.code[m.pc]? with
          | some w => _
          | none => Run.ofStep (fault (.outsideCode m.pc)) : Words Int64) m st = _
        rw [hnone]
        rfl
      show (if m.finished then _ else _ : Words Unit) m st = _
      rw [if_neg (by simp [hf])]
      exact Run.bind_error hx

/-- What can become of a machine by calls of `step`, each with whatever store there is then; and
whether all of them have succeeded. -/
inductive Stepped (m₀ : Machine) : (clean : Bool) → Machine → Prop
  | start : Stepped m₀ true m₀
  | ok {clean : Bool} {m m' : Machine} {st st' : Store} (h : Stepped m₀ clean m)
      (hs : step m st = ((.ok (), m'), st')) : Stepped m₀ clean m'
  | failed {clean : Bool} {m m' : Machine} {e : Failure} {st st' : Store} (h : Stepped m₀ clean m)
      (hs : step m st = ((.error e, m'), st')) : Stepped m₀ false m'

/-- What a machine is like between steps: it is in range, or it is still at an entry so far out
that there is no code. -/
inductive Bounded (p : Program) (size : Nat) (m : Machine) : Prop
  | inRange (h : InRange p size m)
  | outside (h : InRange p size { m with pc := 0 }) (hpc : m.pc = p.entry)
      (hout : p.code.size ≤ p.entry)

theorem Bounded.stack_size {m : Machine} (h : Bounded p size m) :
    m.stack.size = size ∧ m.sp < 2 ^ 63 ∧ m.bp < 2 ^ 63 := by
  cases h with
  | inRange h => exact ⟨h.stack, h.sp, h.bp⟩
  | outside h => exact ⟨h.stack, h.sp, h.bp⟩

theorem Bounded.pc_le {m : Machine} (h : Bounded p size m) :
    m.pc ≤ max (max p.code.size (2 ^ 63 - 1)) p.entry := by
  cases h with
  | inRange h =>
    have hpc := h.pc
    omega
  | outside _ hpc => omega

theorem Bounded.words_step {m : Machine} (h : Bounded p size m) (st : Store) :
    Words.step m st = some (step m st) := by
  cases h with
  | inRange h => exact same_step m st h
  | outside h hpc hout =>
    obtain rfl : m.program = p := h.program
    obtain ⟨e, hs, hw⟩ := step_outside (m := m) (by omega) st
    rw [hs, hw]

/-- **What a step preserves**, whether it succeeds or not. -/
theorem Bounded.step {m m' : Machine} {st st' : Store} {r : Except Failure Unit}
    (h : Bounded p size m) (hs : step m st = ((r, m'), st')) :
    Bounded p size m' ∧ (r = .ok () → m.sp ≤ size → m'.sp ≤ size) := by
  cases h with
  | inRange h =>
    obtain ⟨hk, hr⟩ := keeps_step m st h
    rw [hs] at hk hr
    exact ⟨.inRange hk, fun hok => (hr () hok).2⟩
  | outside h hpc hout =>
    obtain rfl : m.program = p := h.program
    obtain ⟨e, hs', -⟩ := step_outside (m := m) (by omega) st
    rw [hs'] at hs
    cases hs
    exact ⟨.outside h hpc hout, fun _ => id⟩

theorem bounded_of_start {args : List Value} {st st₀ : Store} {m₀ : Machine}
    (hcode : p.code.size < 2 ^ 63) (hsize : size < 2 ^ 62)
    (hstart : start p args size st = (.ok m₀, st₀)) : Bounded p size m₀ ∧ m₀.sp ≤ size := by
  obtain ⟨m, hm, hshows⟩ | ⟨-, hm⟩ := start_shows p args (show size < 2 ^ 63 by omega) st <;>
    rw [hm] at hstart <;> cases hstart
  have hsp := hshows.sp
  have hbp := hshows.bp
  simp only [List.length_append, List.length_reverse, List.length_singleton] at hsp hbp
  have hrange (pc : Nat) (hpc : pc < 2 ^ 63) : InRange p size { m₀ with pc } :=
    { program := hshows.program, code := hcode, room := hsize, stack := hshows.stack, pc := hpc
      sp := by show m₀.sp < 2 ^ 63; omega
      bp := by show m₀.bp < 2 ^ 63; omega }
  refine ⟨?_, by omega⟩
  by_cases he : p.entry < 2 ^ 63
  · exact .inRange (hrange m₀.pc (hshows.pc.trans_lt he))
  · exact .outside (hrange 0 (by omega)) hshows.pc (by omega)

/-- **No run of a machine leaves the bounds of 64-bit registers.**  After any steps, and whether
they have succeeded or not, the machine with bare registers takes the same next step and dumps the
same text, without a trap; the stack has its size; SP and BP can be signed and added to, and PC is
no further than the code, the numbers that can be signed, or the entry.  As long as no step has
failed SP has not left the stack.  The code is an array of words in a memory of 64-bit addresses,
which bounds its size. -/
theorem stays_in_bounds {args : List Value} {st st₀ : Store} {m₀ : Machine}
    (hcode : p.code.size < 2 ^ 63) (hsize : size < 2 ^ 62)
    (hstart : start p args size st = (.ok m₀, st₀)) {clean : Bool} {m : Machine}
    (h : Stepped m₀ clean m) :
    (∀ st, Words.step m st = some (step m st)) ∧
      (∀ st, Words.dump m st = some ((.ok (m.dump st), m), st)) ∧
      m.stack.size = size ∧ m.sp + 8 < 2 ^ 64 ∧ m.bp < 2 ^ 63 ∧
      m.pc ≤ max (max p.code.size (2 ^ 63 - 1)) p.entry ∧ (clean = true → m.sp ≤ size) := by
  have hb : Bounded p size m ∧ (clean = true → m.sp ≤ size) := by
    induction h with
    | start =>
      obtain ⟨hb, hsp⟩ := bounded_of_start hcode hsize hstart
      exact ⟨hb, fun _ => hsp⟩
    | ok _ hs ih =>
      obtain ⟨hb, hsp⟩ := ih.1.step hs
      exact ⟨hb, fun hc => hsp rfl (ih.2 hc)⟩
    | failed _ hs ih => exact ⟨(ih.1.step hs).1, nofun⟩
  obtain ⟨hb, hclean⟩ := hb
  obtain ⟨hstack, hsp, hbp⟩ := hb.stack_size
  exact ⟨hb.words_step, words_dump hsp, hstack, by omega, hbp, hb.pc_le, hclean⟩

/-- A program that puts the largest signed number in the place of its saved BP and then leaves
twice. -/
def straying : Program where
  code := #[11, 0, 9, 0, 2, 0, 12, 12]
  data := #[.number 9223372036854775807]
  entry := 0

/-- Its second `LEAVE` takes SP as far out as it can come, and fails. -/
theorem stays_in_bounds_of_straying :
    ∃ m₀ m, start straying [.number 7] 64 {} = (.ok m₀, {}) ∧ Stepped m₀ false m ∧
      m.sp = 2 ^ 63 - 1 ∧ m.sp + 8 < 2 ^ 64 ∧ m.stack.size = 64 ∧
      Words.step m {} = some (step m {}) ∧ Words.dump m {} = some ((.ok (m.dump {}), m), {}) := by
  have hstart : start straying [.number 7] 64 {} =
      (.ok { load straying 64 with
        stack := (load straying 64).stack.setIfInBounds 62 (.number 7), sp := 62 }, {}) := rfl
  have goes {m₀ m m' : Machine} (h : Stepped m₀ true m) (hs : step m {} = ((.ok (), m'), {})) :
      Stepped m₀ true m' := .ok h hs
  have fails (e : Failure) {m₀ m m' : Machine} {st' : Store} (h : Stepped m₀ true m)
      (hs : step m {} = ((.error e, m'), st')) : Stepped m₀ false m' := .failed h hs
  have hrun := fails (.fault (.stackIndex (2 ^ 63 - 1)))
    (goes (goes (goes (goes (@Stepped.start { load straying 64 with
      stack := (load straying 64).stack.setIfInBounds 62 (.number 7)
      sp := 62 }) rfl) rfl) rfl) rfl)
    rfl
  obtain ⟨hstep, hdump, hstack, hsp, -⟩ := stays_in_bounds (by decide) (by decide) hstart hrun
  exact ⟨_, _, hstart, hrun, rfl, hsp, hstack, hstep {}, hdump {}⟩

end Machine

end LispEngines
