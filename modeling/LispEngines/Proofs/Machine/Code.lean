import LispEngines.Engine
import LispEngines.Proofs.Machine.View

/-!
# Stretches of code

A program is an array of words, but its author wrote instructions.  An `Instruction` has
its operand with it, `Program.CodeAt` says that the words at a position are those of a list
of instructions, and `View.runBlock` carries such a list out, up to the first jump that is
taken.

A machine may find no room on its stack at any push, so what is said of a stretch of code
is said within a `Setting`: how large the stack is, how much of it is needed, and what is
known of every store on the way.

* `Machine.Goes`, `Machine.Passes`: the machine becomes another one by instructions that
  succeed, and what is known of the stores on its way.
* `Setting.Reaches`: a machine with some view goes on to where something holds, or it has
  less room than needed.
* `Setting.comes_of_runBlock`, `Setting.fails_of_runBlock`: what a stretch of code leads to.
-/

namespace LispEngines

/-- An instruction with its operand. -/
structure Instruction where
  op : Opcode
  operand : Int64 := 0
  deriving DecidableEq, Repr

/-- Whether an instruction may change the store. -/
def Opcode.writes : Opcode → Bool
  | .new | .extend | .convert | .invoke | .head | .tail | .lookup | .assign | .define
  | .newScope => true
  | _ => false

namespace Instruction

/-- The number of words of an instruction. -/
@[simp] def size (i : Instruction) : Nat := 1 + i.op.operandCount

/-- The words of an instruction. -/
def words (i : Instruction) : List Int64 :=
  if i.op.operandCount = 0 then [i.op.word] else [i.op.word, i.operand]

/-- By how much the stack is higher after an instruction, at most. -/
def lift (i : Instruction) : Int :=
  match i.op with
  | .push | .call => 1
  | .pop | .less | .lessEqual | .equal | .lookup | .assign | .define => -1
  | .invoke | .newScope => -2
  | .adjust => -i.operand.toInt
  | _ => 0

/-- By how much the stack gets higher in the course of some instructions, at most. -/
def peak : List Instruction → Int
  | [] => 0
  | i :: is => max 0 (i.lift + peak is)

theorem peak_nonneg : ∀ is : List Instruction, 0 ≤ peak is
  | [] => Int.le_refl 0
  | _ :: _ => Int.le_max_left _ _

end Instruction

/-- The words of the code from a position on begin with those of these instructions. -/
def Program.CodeAt (p : Program) (pc : Nat) (is : List Instruction) : Prop :=
  is.flatMap Instruction.words <+: p.code.toList.drop pc

namespace Machine

/-! ## Runs -/

/-- The machine becomes another one by a number of instructions that succeed. -/
inductive Goes : Nat → Machine → Store → Machine → Store → Prop
  | refl {m : Machine} {st : Store} : Goes 0 m st m st
  | head {k : Nat} {m m₁ m₂ : Machine} {st st₁ st₂ : Store} (hf : m.finished = false)
      (hs : step m st = ((.ok (), m₁), st₁)) (h : Goes k m₁ st₁ m₂ st₂) :
      Goes (k + 1) m st m₂ st₂

/-- The machine fails in its next instruction, which is this one. -/
structure FailsIn (m : Machine) (st : Store) (op : Opcode) (e : Failure) (st' : Store) :
    Prop where
  running : m.finished = false
  opcode : m.program.code[m.pc]? = some op.word
  fails : ∃ m', step m st = ((.error e, m'), st')

variable {m m₁ m₂ : Machine} {st st₁ st₂ : Store} {j k : Nat}

theorem Goes.trans (h : Goes j m st m₁ st₁) (h' : Goes k m₁ st₁ m₂ st₂) :
    Goes (j + k) m st m₂ st₂ := by
  induction h with
  | refl => rwa [Nat.zero_add]
  | @head j m m' m₁ st st' st₁ hf hs _ ih =>
    rw [Nat.add_right_comm]
    exact .head hf hs (ih h')

/-- Of two ways of a machine the longer one goes on from the end of the shorter one. -/
theorem Goes.split (h : Goes j m st m₁ st₁) :
    ∀ {n : Nat}, Goes (j + n) m st m₂ st₂ → Goes n m₁ st₁ m₂ st₂ := by
  induction h with
  | refl =>
    intro n h'
    rwa [Nat.zero_add] at h'
  | @head j m m' m₁ st st' st₁ hf hs _ ih =>
    intro n h'
    rw [Nat.add_right_comm] at h'
    cases h' with
    | head _ hs' h' =>
      cases hs.symm.trans hs'
      exact ih h'

/-- Short of its end, a way goes on with an instruction that succeeds. -/
theorem Goes.next (h : Goes j m st m₁ st₁) :
    ∀ {i : Nat} {m' : Machine} {st' : Store}, Goes i m st m' st' → i < j →
      m'.finished = false ∧ ∃ m'' st'', step m' st' = ((.ok (), m''), st'') := by
  induction h with
  | refl => exact fun _ hi => absurd hi (Nat.not_lt_zero _)
  | head hf hs _ ih =>
    intro i m' st' h' hi
    cases h' with
    | refl => exact ⟨hf, _, _, hs⟩
    | head _ hs' h' =>
      cases hs.symm.trans hs'
      exact ih h' (Nat.lt_of_succ_lt_succ hi)

/-- A machine that cannot go on has come to the end of its way. -/
theorem Goes.stop (h : Goes j m st m₁ st₁) (h' : Goes k m st m₂ st₂) (hj : j ≤ k)
    (hn : m₁.finished = true ∨ ∃ e m' st', step m₁ st₁ = ((.error e, m'), st')) :
    k = j ∧ m₂ = m₁ ∧ st₂ = st₁ := by
  obtain ⟨n, rfl⟩ := Nat.exists_eq_add_of_le hj
  have hs := h.split h'
  cases hs with
  | refl => exact ⟨rfl, rfl, rfl⟩
  | head hf hs _ =>
    rcases hn with hn | ⟨e, m', st', he⟩
    · rw [hf] at hn
      cases hn
    · cases hs.symm.trans he

theorem run_succ (fuel : Nat) (m : Machine) (st : Store) :
    run (fuel + 1) m st =
      (if m.finished then (do return (← get).a) else do Run.ofStep step; run fuel :
        Run Machine Value) m st :=
  rfl

theorem run_finished (fuel : Nat) (hf : m.finished = true) :
    run (fuel + 1) m st = some ((.ok m.a, m), st) := by
  rw [run_succ, if_pos hf]
  rfl

theorem run_step (fuel : Nat) (hf : m.finished = false) :
    run (fuel + 1) m st =
      match step m st with
      | ((.ok (), m₁), st₁) => run fuel m₁ st₁
      | ((.error e, m₁), st₁) => some ((.error e, m₁), st₁) := by
  have h : (do Run.ofStep step; run fuel : Run Machine Value) m st =
      ExceptT.bindCont (fun _ => run fuel) (step m st).1.1 (step m st).1.2 (step m st).2 := rfl
  rw [run_succ, if_neg (by simp [hf])]
  refine h.trans ?_
  rcases step m st with ⟨⟨_ | _, _⟩, _⟩ <;> rfl

/-- A run comes to where the machine goes. -/
theorem Goes.run (h : Goes k m st m₁ st₁) (fuel : Nat) :
    Machine.run (fuel + k) m st = Machine.run fuel m₁ st₁ := by
  induction h with
  | refl => rfl
  | head hf hs _ ih =>
    rw [← Nat.add_assoc, run_step _ hf, hs]
    exact ih

/-- A run that ends has gone to where the machine is finished or fails. -/
theorem goes_of_run : ∀ (fuel : Nat) {m m' : Machine} {st st' : Store} {r : Except Failure Value},
    run fuel m st = some ((r, m'), st') →
      ∃ k m₁ st₁, Goes k m st m₁ st₁ ∧
        ((m₁.finished = true ∧ r = .ok m₁.a ∧ m' = m₁ ∧ st' = st₁) ∨
          (m₁.finished = false ∧ ∃ e, r = .error e ∧ step m₁ st₁ = ((.error e, m'), st'))) := by
  intro fuel
  induction fuel with
  | zero => intro m m' st st' r h; cases h
  | succ fuel ih =>
    intro m m' st st' r h
    rcases hf : m.finished with _ | _
    · rw [run_step fuel hf] at h
      rcases hs : step m st with ⟨⟨e | _, m₁⟩, st₁⟩ <;> rw [hs] at h
      · cases h
        exact ⟨0, m, st, .refl, .inr ⟨hf, e, rfl, hs⟩⟩
      · obtain ⟨k, m₂, st₂, hg, ho⟩ := ih h
        exact ⟨k + 1, m₂, st₂, .head hf hs hg, ho⟩
    · rw [run_finished fuel hf] at h
      cases h
      exact ⟨0, m, st, .refl, .inl ⟨hf, rfl, rfl, rfl⟩⟩

/-! ## One instruction of a list -/

variable {p : Program} {size : Nat} {v w : View} {i : Instruction} {is : List Instruction}

/-- The words of the first instruction are where it is, and those of the others follow. -/
theorem codeAt_cons {pc : Nat} (h : p.CodeAt pc (i :: is)) :
    p.code[pc]? = some i.op.word ∧
      (i.op.operandCount ≠ 0 → p.code[pc + 1]? = some i.operand) ∧
      p.CodeAt (pc + i.size) is := by
  obtain ⟨rest, hr⟩ := h
  have hw (k : Nat) : p.code[pc + k]? = (i.words ++ (is.flatMap Instruction.words ++ rest))[k]? := by
    rw [← List.append_assoc, ← List.flatMap_cons, hr, List.getElem?_drop, Array.getElem?_toList]
  have hs : i.words.length = i.size := by
    obtain ⟨op, n⟩ := i
    cases op <;> rfl
  refine ⟨?_, fun hn => ?_, ⟨rest, ?_⟩⟩
  · rw [← Nat.add_zero pc, hw 0, Instruction.words]
    split <;> rfl
  · rw [hw 1, Instruction.words, if_neg hn]
    rfl
  · rw [← List.drop_drop, ← hr, List.flatMap_cons, ← hs, List.append_assoc, List.drop_left]

/-- No instruction without an operand looks at one. -/
theorem exec_operand {op : Opcode} (h : op.operandCount = 0) (n : Int64) :
    v.exec p size op n st = v.exec p size op 0 st := by
  cases op <;> first | rfl | cases h

theorem fetch_of {word : Int64} (h : m.program.code[m.pc]? = some word) :
    fetch m st = ((.ok word, { m with pc := m.pc + 1 }), st) := by
  rw [fetch, Step.get_bind, Step.get_bind, h]
  rfl

/-- The machine takes up the instruction that is next. -/
theorem step_of_codeAt (st : Store) (h : Shows p size m v) (hc : p.CodeAt v.pc (i :: is)) :
    ∃ m' n, Shows p size m' { v with pc := v.pc + i.size } ∧ step m st = execute i.op n m' st ∧
      (i.op.operandCount = 0 ∨ n = i.operand) := by
  obtain ⟨hw, hn, -⟩ := codeAt_cons hc
  have hf : fetch m st = ((.ok i.op.word, { m with pc := m.pc + 1 }), st) :=
    fetch_of (by rw [h.program, h.pc]; exact hw)
  by_cases ho : i.op.operandCount = 0
  · refine ⟨{ m with pc := m.pc + 1, steps := m.steps + 1 }, 0, ?_, ?_, .inl ho⟩
    · exact { h with pc := by show m.pc + 1 = v.pc + i.size; rw [h.pc, Instruction.size, ho] }
    · rw [step, Step.get_bind, Step.get_bind, if_neg (by simp [h.running])]
      show (fetch >>= _) m st = _
      rw [Step.bind_ok hf, Opcode.ofWord?_word]
      simp only [ho, ↓reduceIte]
      rfl
  · refine ⟨{ m with pc := m.pc + 2, steps := m.steps + 1 }, i.operand, ?_, ?_, .inr rfl⟩
    · refine { h with pc := ?_ }
      have h1 : i.op.operandCount = 1 := by
        obtain ⟨op, n⟩ := i
        cases op <;> first | rfl | exact absurd rfl ho
      show m.pc + 2 = v.pc + i.size
      rw [h.pc, Instruction.size, h1]
    · rw [step, Step.get_bind, Step.get_bind, if_neg (by simp [h.running])]
      show (fetch >>= _) m st = _
      rw [Step.bind_ok hf, Opcode.ofWord?_word]
      simp only [ho, ↓reduceIte]
      rw [Step.bind_ok (fetch_of (by rw [h.program, h.pc]; exact hn ho))]
      rfl

/-- The machine carries the next instruction out. -/
theorem step_shown {out : Except Failure View × Store} (h : Shows p size m v)
    (hc : p.CodeAt v.pc (i :: is))
    (he : View.exec p size i.op i.operand { v with pc := v.pc + i.size } st = some out) :
    Shown p size i.op out (step m st) := by
  obtain ⟨m', n, hs, hx, hn⟩ := step_of_codeAt st h hc
  rw [hx]
  refine hs.execute (Eq.trans ?_ he)
  rcases hn with ho | rfl
  · rw [exec_operand ho n, exec_operand ho i.operand]
  · rfl

theorem FailsIn.of_step {e : Failure} (h : Shows p size m v) (hc : p.CodeAt v.pc (i :: is))
    (hs : ∃ m', step m st = ((.error e, m'), st₁)) : FailsIn m st i.op e st₁ where
  running := h.running
  opcode := by rw [h.program, h.pc]; exact (codeAt_cons hc).1
  fails := hs

/-! ## Lists of instructions -/

/-- Carry out instructions in order, up to a jump that is taken. -/
@[simp] def View.runBlock (p : Program) (size : Nat) :
    List Instruction → View → Store → Option (Except (Opcode × Failure) View × Store)
  | [], v, st => some (.ok v, st)
  | i :: is, v, st =>
    match exec p size i.op i.operand { v with pc := v.pc + i.size } st with
    | some (.ok w, st) =>
      bif w.pc == v.pc + i.size then runBlock p size is w st else some (.ok w, st)
    | some (.error e, st) => some (.error (i.op, e), st)
    | none => none

theorem goto_length {n : Int64} (h : v.goto p n = some w) :
    w.cells.length = v.cells.length := by
  rw [goto_cells h]

theorem pop_length {x : Value} (h : v.pop = some (x, w)) :
    w.cells.length + 1 = v.cells.length := by
  obtain ⟨pc, _ | base, _ | ⟨y, cells⟩, a⟩ := v <;> cases h
  rfl

theorem numbers_store (st : Store) (op : String) (a b : Value) :
    (Value.numbers op a b st).2 = st := by
  cases a <;> cases b <;> rfl

theorem compare_store (op : Comparison) (a b : Value) : (Value.compare op a b st).2 = st := by
  have hn := numbers_store st op.name a b
  rw [Value.compare, Action.bind_apply]
  rcases hx : Value.numbers op.name a b st with ⟨_ | _, _⟩ <;> rw [hx] at hn <;> exact hn

/-- An instruction that does not write leaves the store as it is. -/
theorem exec_store {op : Opcode} {n : Int64} {r : Except Failure View} (hw : op.writes = false)
    (h : v.exec p size op n st = some (r, st₁)) : st₁ = st := by
  have still {o : Option View} (h : View.still o st = some (r, st₁)) : st₁ = st := by
    obtain ⟨w, -, h⟩ := Option.map_eq_some_iff.mp h
    cases h
    rfl
  have compared {c : Comparison} (h : (v.pop.bind fun y =>
      View.acted (Value.compare c y.1 v.a) (fun b => { y.2 with a := flag b }) st) = some (r, st₁)) :
      st₁ = st := by
    obtain ⟨⟨x, w⟩, -, h⟩ := Option.bind_eq_some_iff.mp h
    cases h
    exact compare_store c _ _
  cases op with
  | less | lessEqual => exact compared h
  | load | store | adjust | push | pop | data | call | leave | jumpZero | jumpNonzero | jump
  | equal | equalKeep | kind | count | index | setScope => exact still h
  | new | extend | convert | invoke | head | tail | lookup | assign | define | newScope => cases hw
  | _ => cases h

/-- How high the stack is after an instruction. -/
theorem exec_length {op : Opcode} {n : Int64} (hb : v.base ≤ v.cells.length)
    (h : v.exec p size op n st = some (.ok w, st₁)) :
    (w.cells.length : Int) ≤ v.cells.length + Instruction.lift ⟨op, n⟩ := by
  have still {o : Option View} (h : View.still o st = some (.ok w, st₁)) : o = some w := by
    obtain ⟨w', hw, h⟩ := Option.map_eq_some_iff.mp h
    cases h
    exact hw
  have acted {α : Type} {x : Action α} {f : α → View}
      (h : View.acted x f st = some (.ok w, st₁)) : ∃ y, w = f y := by
    rcases hx : x st with ⟨_ | y, st'⟩ <;> simp [hx, Except.map] at h
    exact ⟨y, h.1.symm⟩
  have compared {c : Comparison} (h : (v.pop.bind fun y =>
      View.acted (Value.compare c y.1 v.a) (fun b => { y.2 with a := flag b }) st) =
        some (.ok w, st₁)) : w.cells.length + 1 = v.cells.length := by
    obtain ⟨⟨x, w'⟩, hp, h⟩ := Option.bind_eq_some_iff.mp h
    have hl := pop_length hp
    obtain ⟨y, rfl⟩ := acted h
    exact hl
  have bound {f : ScopeRef → String → Value → Action Unit} (h : (v.pop.bind fun y =>
      (y.2.cells.head?.bind Value.scope?).bind fun s =>
        View.acted (do f s (← Action.keyText y.1) v.a) (fun _ => y.2) st) = some (.ok w, st₁)) :
      w.cells.length + 1 = v.cells.length := by
    obtain ⟨⟨key, w'⟩, hp, h⟩ := Option.bind_eq_some_iff.mp h
    obtain ⟨s, -, h⟩ := Option.bind_eq_some_iff.mp h
    obtain ⟨y, rfl⟩ := acted h
    exact pop_length hp
  cases op with
  | less | lessEqual =>
    have hl := compared h
    simp only [Instruction.lift]
    omega
  | assign | define =>
    have hl := bound h
    simp only [Instruction.lift]
    omega
  | load =>
    obtain ⟨x, -, rfl⟩ := Option.map_eq_some_iff.mp (still h)
    exact Int.le_of_eq (Int.add_zero _).symm
  | store =>
    obtain ⟨j, -, h⟩ := Option.bind_eq_some_iff.mp (still h)
    split at h <;> cases h
    simp [Instruction.lift]
  | adjust =>
    obtain ⟨j, hj, h⟩ := Option.bind_eq_some_iff.mp (still h)
    have hn := place_eq hj
    split at h <;> cases h
    simp only [Instruction.lift, List.length_drop]
    omega
  | push =>
    cases still h
    simp [Instruction.lift]
  | pop =>
    obtain ⟨⟨x, w'⟩, hp, rfl⟩ := Option.map_eq_some_iff.mp (still h)
    have hl := pop_length hp
    simp only [Instruction.lift]
    omega
  | equal =>
    obtain ⟨⟨x, w'⟩, hp, rfl⟩ := Option.map_eq_some_iff.mp (still h)
    have hl := pop_length hp
    simp only [Instruction.lift]
    omega
  | call =>
    have hl := goto_length (still h)
    simp only [View.push, List.length_cons] at hl
    simp only [Instruction.lift]
    omega
  | jump =>
    have hl := goto_length (still h)
    simp only [Instruction.lift]
    omega
  | jumpZero | jumpNonzero =>
    have h := still h
    split at h
    · have hl := goto_length h
      simp only [Instruction.lift]
      omega
    · cases h
      simp [Instruction.lift]
  | leave =>
    have h := still h
    rw [View.leave] at h
    split at h
    case h_1 link back rest hc =>
      obtain ⟨⟨pc, base⟩, -, rfl⟩ := Option.map_eq_some_iff.mp h
      have hl := congrArg List.length hc
      simp only [List.length_drop, List.length_cons] at hl
      simp only [Instruction.lift]
      omega
    case h_2 => cases h
  | data =>
    obtain ⟨x, -, rfl⟩ := Option.map_eq_some_iff.mp (still h)
    exact Int.le_of_eq (Int.add_zero _).symm
  | equalKeep =>
    obtain ⟨x, -, rfl⟩ := Option.map_eq_some_iff.mp (still h)
    exact Int.le_of_eq (Int.add_zero _).symm
  | kind | count =>
    cases still h
    exact Int.le_of_eq (Int.add_zero _).symm
  | index =>
    obtain ⟨x, -, h⟩ := Option.bind_eq_some_iff.mp (still h)
    obtain ⟨y, -, rfl⟩ := Option.map_eq_some_iff.mp h
    exact Int.le_of_eq (Int.add_zero _).symm
  | new =>
    obtain ⟨y, rfl⟩ := acted h
    exact Int.le_of_eq (Int.add_zero _).symm
  | setScope =>
    obtain ⟨s, -, h⟩ := Option.bind_eq_some_iff.mp (still h)
    split at h
    case h_1 hc | h_2 hc =>
      cases h
      simp [Instruction.lift, hc]
    case h_3 => cases h
  | extend =>
    rw [View.exec] at h
    split at h <;> cases h
    exact Int.le_of_eq (Int.add_zero _).symm
  | convert =>
    obtain ⟨k, -, h⟩ := Option.bind_eq_some_iff.mp h
    split at h
    case h_1 hc =>
      obtain ⟨y, rfl⟩ := acted h
      simp [Instruction.lift, hc]
    case h_2 => cases h
  | head | tail =>
    obtain ⟨x, -, h⟩ := Option.bind_eq_some_iff.mp h
    obtain ⟨y, rfl⟩ := acted h
    exact Int.le_of_eq (Int.add_zero _).symm
  | lookup =>
    obtain ⟨⟨key, w'⟩, hp, h⟩ := Option.bind_eq_some_iff.mp h
    obtain ⟨s, -, h⟩ := Option.bind_eq_some_iff.mp h
    have hl := pop_length hp
    obtain ⟨y, rfl⟩ := acted h
    simp only [Instruction.lift]
    omega
  | invoke =>
    obtain ⟨⟨args, w₁⟩, hp₁, h⟩ := Option.bind_eq_some_iff.mp h
    obtain ⟨⟨scope, w₂⟩, hp₂, h⟩ := Option.bind_eq_some_iff.mp h
    obtain ⟨x, -, h⟩ := Option.bind_eq_some_iff.mp h
    have hl₁ := pop_length hp₁
    have hl₂ := pop_length hp₂
    obtain ⟨y, rfl⟩ := acted h
    simp only [Instruction.lift]
    omega
  | newScope =>
    obtain ⟨⟨values, w₁⟩, hp₁, h⟩ := Option.bind_eq_some_iff.mp h
    obtain ⟨⟨keys, w₂⟩, hp₂, h⟩ := Option.bind_eq_some_iff.mp h
    obtain ⟨s, -, h⟩ := Option.bind_eq_some_iff.mp h
    have hl₁ := pop_length hp₁
    have hl₂ := pop_length hp₂
    obtain ⟨y, rfl⟩ := acted h
    simp only [Instruction.lift]
    omega
  | _ => cases h

/-! ## What a stretch of code leads to -/

/-- The circumstances under which something is said of a program. -/
structure Setting where
  program : Program
  /-- The size of the stack. -/
  size : Nat
  /-- How much of the stack is needed. -/
  need : Nat
  /-- What is known of every store on the way. -/
  Kept : Store → Prop

/-- The machine goes on, and every store on its way, the first and the last included, is one
to be kept. -/
structure Passes (Kept : Store → Prop) (k : Nat) (m : Machine) (st : Store) (m' : Machine)
    (st' : Store) : Prop where
  goes : Goes k m st m' st'
  kept : ∀ {j m₁ st₁}, j ≤ k → Goes j m st m₁ st₁ → Kept st₁

namespace Passes

variable {Kept : Store → Prop}

theorem refl (m : Machine) (hk : Kept st) : Passes Kept 0 m st m st where
  goes := .refl
  kept hj hg := by
    cases hg with
    | refl => exact hk
    | head => exact absurd hj (Nat.not_succ_le_zero _)

theorem trans (h : Passes Kept j m st m₁ st₁) (h' : Passes Kept k m₁ st₁ m₂ st₂) :
    Passes Kept (j + k) m st m₂ st₂ where
  goes := h.goes.trans h'.goes
  kept {i m' st'} hi hg := by
    rcases Nat.le_total i j with hij | hji
    · exact h.kept hij hg
    · obtain ⟨n, rfl⟩ := Nat.exists_eq_add_of_le hji
      exact h'.kept (by omega) (h.goes.split hg)

theorem single (hf : m.finished = false) (hs : step m st = ((.ok (), m₁), st₁)) (hk : Kept st)
    (hk₁ : Kept st₁) : Passes Kept 1 m st m₁ st₁ where
  goes := .head hf hs .refl
  kept hj hg := by
    cases hg with
    | refl => exact hk
    | head _ hs' hg =>
      cases hs.symm.trans hs'
      exact (refl m₁ hk₁).kept (Nat.le_of_succ_le_succ hj) hg

end Passes

/-- The machine gets stuck for want of room on its stack. -/
def Overflows (Kept : Store → Prop) (m : Machine) (st : Store) : Prop :=
  ∃ k m₁ st₁ op, Passes Kept k m st m₁ st₁ ∧ FailsIn m₁ st₁ op (.fault .stackOverflow) st₁ ∧
    op.grows = true

namespace Setting

/-- A machine that looks like this goes on, by at least so many instructions, to where `P`
holds, or it has less room than needed. -/
def Reaches (E : Setting) (least : Nat) (v : View) (st : Store) (P : Machine → Store → Prop) :
    Prop :=
  ∀ m, Shows E.program E.size m v →
    (∃ k m' st', least ≤ k ∧ Passes E.Kept k m st m' st' ∧ P m' st') ∨
      (E.size < E.need ∧ Overflows E.Kept m st)

/-- A machine that looks like the first view goes on to one that looks like the second
view. -/
def Comes (E : Setting) (v : View) (st : Store) (w : View) (st' : Store) : Prop :=
  E.Reaches 1 v st fun m st₁ => Shows E.program E.size m w ∧ st₁ = st'

/-- A machine that looks like this goes on to an instruction that fails. -/
def Fails (E : Setting) (v : View) (st : Store) (op : Opcode) (e : Failure) (st' : Store) :
    Prop :=
  E.Reaches 0 v st fun m st₁ => FailsIn m st₁ op e st'

/-- A machine that looks like this carries out an action, in this instruction, and goes on to
the view that its value leads to. -/
structure Performs {α : Type} (E : Setting) (v : View) (st : Store) (op : Opcode) (x : Action α)
    (w : α → View) : Prop where
  ok : ∀ {y st'}, x st = (.ok y, st') → E.Kept st' → E.Comes v st (w y) st'
  error : ∀ {e st'}, x st = (.error e, st') → E.Kept st' → E.Fails v st op e st'

variable {E : Setting} {v w v₁ : View} {st st₁ st₂ : Store} {P Q : Machine → Store → Prop}
  {op : Opcode} {e : Failure} {least : Nat} {i : Instruction} {is : List Instruction}

theorem Reaches.imp (h : E.Reaches least v st P) (hPQ : ∀ m st', P m st' → Q m st') :
    E.Reaches least v st Q := by
  intro m hm
  obtain ⟨k, m', st', hk, hg, hp⟩ | h := h m hm
  · exact .inl ⟨k, m', st', hk, hg, hPQ m' st' hp⟩
  · exact .inr h

/-- Going on from where something holds. -/
theorem Reaches.bind {n : Nat} (h : E.Reaches least v st P)
    (h' : ∀ m st₁, P m st₁ → ∃ w, Shows E.program E.size m w ∧ E.Reaches n w st₁ Q) :
    E.Reaches least v st Q := by
  intro m hm
  obtain ⟨j, m₁, st₁, hj, hg, hp⟩ | h := h m hm
  · obtain ⟨w, hs, hr⟩ := h' m₁ st₁ hp
    obtain ⟨k, m', st', -, hg', hq⟩ | ⟨hn, k, m', st', op, hg', ho⟩ := hr m₁ hs
    · exact .inl ⟨j + k, m', st', Nat.le_add_right_of_le hj, hg.trans hg', hq⟩
    · exact .inr ⟨hn, j + k, m', st', op, hg.trans hg', ho⟩
  · exact .inr h

theorem Comes.reaches {n : Nat} (h : E.Comes v st w st₁) (h' : E.Reaches n w st₁ P)
    (hl : least ≤ n + 1) : E.Reaches least v st P := by
  intro m hm
  obtain ⟨j, m₁, _, hj, hg, hs, rfl⟩ | h := h m hm
  · obtain ⟨k, m', st', hk, hg', hp⟩ | ⟨hn, k, m', st', op, hg', ho⟩ := h' m₁ hs
    · exact .inl ⟨j + k, m', st', by omega, hg.trans hg', hp⟩
    · exact .inr ⟨hn, j + k, m', st', op, hg.trans hg', ho⟩
  · exact .inr h

theorem Comes.trans (h : E.Comes v st w st₁) (h' : E.Comes w st₁ v₁ st₂) :
    E.Comes v st v₁ st₂ :=
  h.reaches h' (by omega)

theorem Comes.fails {st' : Store} (h : E.Comes v st w st₁) (h' : E.Fails w st₁ op e st') :
    E.Fails v st op e st' :=
  h.reaches h' (by omega)

theorem Comes.performs {α : Type} {x : Action α} {f : α → View} (h : E.Comes v st w st)
    (h' : E.Performs w st op x f) : E.Performs v st op x f :=
  ⟨fun hx hk => h.trans (h'.ok hx hk), fun hx hk => h.fails (h'.error hx hk)⟩

/-- What is shown may be used. -/
theorem Reaches.of_shows (h : ∀ m, Shows E.program E.size m v → E.Reaches least v st P) :
    E.Reaches least v st P :=
  fun m hm => h m hm m hm

/-- An instruction that succeeds if there is room for it. -/
theorem comes_of_exec (hc : E.program.CodeAt v.pc (i :: is)) (hk : E.Kept st) (hk₁ : E.Kept st₁)
    (hn : (v.cells.length : Int) + i.lift ≤ E.need)
    (he : View.exec E.program E.size i.op i.operand { v with pc := v.pc + i.size } st =
      some (.ok w, st₁)) : E.Comes v st w st₁ := by
  intro m hm
  have ho := step_shown hm hc he
  generalize hs : step m st = out at ho
  cases ho with
  | ok hw => exact .inl ⟨1, _, _, Nat.le_refl 1, .single hm.running hs hk hk₁, hw, rfl⟩
  | overflow hg hl =>
    have hw : i.op.writes = false := by
      obtain ⟨op, n⟩ := i
      cases op <;> first | rfl | cases hg
    cases exec_store hw he
    have hlen : (w.cells.length : Int) ≤ v.cells.length + i.lift :=
      exec_length (v := { v with pc := v.pc + i.size }) hm.base_le he
    exact .inr ⟨by omega, 0, m, st, i.op, .refl m hk, .of_step hm hc ⟨_, hs⟩, hg⟩

theorem fails_of_exec (hc : E.program.CodeAt v.pc (i :: is)) (hk : E.Kept st)
    (he : View.exec E.program E.size i.op i.operand { v with pc := v.pc + i.size } st =
      some (.error e, st₁)) : E.Fails v st i.op e st₁ := by
  intro m hm
  have ho := step_shown hm hc he
  generalize hs : step m st = out at ho
  cases ho with
  | error => exact .inl ⟨0, m, st, Nat.le_refl 0, .refl m hk, .of_step hm hc ⟨_, hs⟩⟩

/-- Entering a procedure without slots of its own. -/
theorem comes_of_enter (hc : E.program.CodeAt v.pc (⟨.enter, 0⟩ :: is)) (hk : E.Kept st)
    (hn : v.cells.length + 1 ≤ E.need) :
    E.Comes v st ⟨v.pc + 2, 0, registerValue (E.size - v.cells.length + v.base) :: v.cells, v.a⟩
      st := by
  intro m hm
  obtain ⟨m₁, n, hs, hx, hn'⟩ := step_of_codeAt st hm hc
  obtain rfl : n = 0 := hn'.resolve_left (by decide)
  have he : _ ∨ (∃ m', execute .enter (Int64.ofNat 0) m₁ st = ((.error _, m'), st)) ∧ _ :=
    hs.enter (by decide)
  obtain ⟨m₂, slots, he, hlen, hs₂⟩ | ⟨⟨m₂, he⟩, ho⟩ := he
  · obtain rfl := List.length_eq_zero_iff.mp hlen
    exact .inl ⟨1, m₂, st, Nat.le_refl 1, .single hm.running (hx.trans he) hk hk, hs₂, rfl⟩
  · exact .inr ⟨Nat.lt_of_lt_of_le ho hn, 0, m, st, .enter, .refl m hk,
      .of_step hm hc ⟨m₂, hx.trans he⟩, rfl⟩

/-- An instruction that succeeds and leaves the store as it is. -/
theorem comes_of_execute (hc : E.program.CodeAt v.pc (i :: is)) (hk : E.Kept st)
    (he : ∀ m n, Shows E.program E.size m { v with pc := v.pc + i.size } →
      ∃ m', execute i.op n m st = ((.ok (), m'), st) ∧ Shows E.program E.size m' w) :
    E.Comes v st w st := by
  intro m hm
  obtain ⟨m₁, n, hs, hx, -⟩ := step_of_codeAt st hm hc
  obtain ⟨m₂, he, hw⟩ := he m₁ n hs
  exact .inl ⟨1, m₂, st, Nat.le_refl 1, .single hm.running (hx.trans he) hk hk, hw, rfl⟩

/-- Instructions that do not write leave the store as it is. -/
theorem runBlock_store {p : Program} {size : Nat} {r : Except (Opcode × Failure) View}
    (hw : is.countP (·.op.writes) = 0) (h : View.runBlock p size is v st = some (r, st₁)) :
    st₁ = st := by
  induction is generalizing v st with
  | nil =>
    cases h
    rfl
  | cons i is ih =>
    have hi := List.countP_eq_zero.mp hw
    have hw₁ : i.op.writes = false := by simpa using hi i (List.mem_cons_self ..)
    have hw₂ : is.countP (·.op.writes) = 0 :=
      List.countP_eq_zero.mpr fun j hj => hi j (List.mem_cons_of_mem _ hj)
    rw [View.runBlock] at h
    split at h
    case h_1 v' st' he =>
      cases exec_store hw₁ he
      cases hpc : v'.pc == v.pc + i.size <;> rw [hpc] at h
      · cases h
        rfl
      · exact ih hw₂ h
    case h_2 he =>
      cases h
      exact exec_store hw₁ he
    case h_3 => cases h

/-- After the first instruction of a stretch that writes at most once, the store is as it
was or as it will be. -/
theorem kept_of_exec {r : Except (Opcode × Failure) View} {st' : Store}
    (hw : (i :: is).countP (·.op.writes) ≤ 1) (hk : E.Kept st) (hk' : E.Kept st')
    (he : View.exec E.program E.size i.op i.operand v st = some (.ok w, st₁))
    (h : View.runBlock E.program E.size is w st₁ = some (r, st')) : E.Kept st₁ := by
  rcases hi : i.op.writes with _ | _
  · cases exec_store hi he
    exact hk
  · rw [List.countP_cons_of_pos (by exact hi)] at hw
    cases runBlock_store (by omega) h
    exact hk'

/-- The machine carries out the first instruction of a stretch, and can go on with the others. -/
theorem comes_of_head {r : Except (Opcode × Failure) View} {st' : Store}
    (hc : E.program.CodeAt v.pc (i :: is)) (hw : (i :: is).countP (·.op.writes) ≤ 1)
    (hn : (v.cells.length : Int) + Instruction.peak (i :: is) ≤ E.need) (hk : E.Kept st)
    (hk' : E.Kept st') (hb : v.base ≤ v.cells.length)
    (he : View.exec E.program E.size i.op i.operand { v with pc := v.pc + i.size } st =
      some (.ok w, st₁)) (hpc : (w.pc == v.pc + i.size) = true)
    (h : View.runBlock E.program E.size is w st₁ = some (r, st')) :
    E.Comes v st w st₁ ∧ E.Kept st₁ ∧ E.program.CodeAt w.pc is ∧
      is.countP (·.op.writes) ≤ 1 ∧ (w.cells.length : Int) + Instruction.peak is ≤ E.need := by
  have hp : i.lift + Instruction.peak is ≤ Instruction.peak (i :: is) := Int.le_max_right _ _
  have hp' := Instruction.peak_nonneg is
  have hl : (w.cells.length : Int) ≤ v.cells.length + i.lift :=
    exec_length (v := { v with pc := v.pc + i.size }) hb he
  obtain ⟨-, -, hc'⟩ := codeAt_cons hc
  have hk₁ := kept_of_exec hw hk hk' he h
  rw [List.countP_cons] at hw
  refine ⟨comes_of_exec hc hk hk₁ (by omega) he, hk₁, ?_, by omega, by omega⟩
  rw [beq_iff_eq.mp hpc]
  exact hc'

/-- Where a stretch of code is, the machine carries it out. -/
theorem comes_of_runBlock {st' : Store} (hc : E.program.CodeAt v.pc (i :: is))
    (hw : (i :: is).countP (·.op.writes) ≤ 1)
    (hn : (v.cells.length : Int) + Instruction.peak (i :: is) ≤ E.need)
    (hk : E.Kept st) (hk' : E.Kept st')
    (h : View.runBlock E.program E.size (i :: is) v st = some (.ok w, st')) :
    E.Comes v st w st' := by
  induction is generalizing i v st with
  | nil =>
    have hp : i.lift ≤ Instruction.peak [i] := by
      rw [Instruction.peak, Instruction.peak, Int.add_zero]
      exact Int.le_max_right _ _
    rw [View.runBlock] at h
    split at h
    case h_1 v' st₁ he =>
      have hv : v' = w ∧ st₁ = st' := by
        cases hpc : v'.pc == v.pc + i.size <;> rw [hpc] at h <;> cases h <;> exact ⟨rfl, rfl⟩
      obtain ⟨rfl, rfl⟩ := hv
      exact comes_of_exec hc hk hk' (by omega) he
    case h_2 => cases h
    case h_3 => cases h
  | cons i' is ih =>
    refine .of_shows fun m hm => ?_
    rw [View.runBlock] at h
    split at h
    case h_1 v' st₁ he =>
      cases hpc : v'.pc == v.pc + i.size <;> rw [hpc] at h
      case true =>
        obtain ⟨h₁, hk₁, hc', hw', hn'⟩ := comes_of_head hc hw hn hk hk' hm.base_le he hpc h
        exact h₁.trans (ih hc' hw' hn' hk₁ h)
      case false =>
        cases h
        have hp : i.lift + Instruction.peak (i' :: is) ≤ Instruction.peak (i :: i' :: is) :=
          Int.le_max_right _ _
        have hp' := Instruction.peak_nonneg (i' :: is)
        exact comes_of_exec hc hk hk' (by omega) he
    case h_2 => cases h
    case h_3 => cases h

theorem fails_of_runBlock {st' : Store} (hc : E.program.CodeAt v.pc is)
    (hw : is.countP (·.op.writes) ≤ 1)
    (hn : (v.cells.length : Int) + Instruction.peak is ≤ E.need)
    (hk : E.Kept st) (hk' : E.Kept st')
    (h : View.runBlock E.program E.size is v st = some (.error (op, e), st')) :
    E.Fails v st op e st' := by
  induction is generalizing v st with
  | nil => cases h
  | cons i is ih =>
    refine .of_shows fun m hm => ?_
    rw [View.runBlock] at h
    split at h
    case h_1 v' st₁ he =>
      cases hpc : v'.pc == v.pc + i.size <;> rw [hpc] at h
      case true =>
        obtain ⟨h₁, hk₁, hc', hw', hn'⟩ := comes_of_head hc hw hn hk hk' hm.base_le he hpc h
        exact h₁.fails (ih hc' hw' hn' hk₁ h)
      case false => cases h
    case h_2 he =>
      cases h
      exact fails_of_exec hc hk he
    case h_3 => cases h

end Setting

end Machine

end LispEngines
