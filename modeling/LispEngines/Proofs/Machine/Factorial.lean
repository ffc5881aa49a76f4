import LispEngines.Proofs.Machine.Assembled
import LispEngines.Proofs.Machine.Boundary
import Mathlib.Data.Nat.Factorial.Basic

/-!
# The factorial program

The factorial is written as assembly text, by plain recursion.  A call has four slots of its own
while the call inside it is under way: its argument, where it returns to, the frame of its caller,
and the argument once more as the left factor.  So the height of the stack is known at every
depth, and with it how much stack the program needs: `4 * depth n + 3` slots for the argument `n`,
and with fewer it fails (`factorial_run`).

The product wraps around like every product of the machine, and so what comes out is the factorial
modulo `2 ^ 64`.
-/

namespace LispEngines.Machine.Factorial

/-! ## The program -/

/-- The main part calls the procedure with its argument. -/
def mainCode : List Instruction :=
  [⟨.enter, 0⟩, ⟨.load, 1⟩, .plain .push, ⟨.call, 10⟩, ⟨.adjust, 1⟩, .plain .exit]

/-- The procedure gives one for an argument that is at most one. -/
def testCode : List Instruction :=
  [⟨.enter, 0⟩, ⟨.load, 2⟩, .plain .push, ⟨.data, 0⟩, .plain .lessEqual, ⟨.jumpZero, 23⟩,
   ⟨.data, 1⟩, .plain .leave]

/-- Otherwise it multiplies the argument by what it gives for the one before. -/
def recurseCode : List Instruction :=
  [⟨.load, 2⟩, .plain .push, ⟨.load, 2⟩, .plain .push, ⟨.data, 2⟩, .plain .sub, .plain .push,
   ⟨.call, 10⟩, ⟨.adjust, 1⟩, .plain .mul, .plain .leave]

/-- The factorial as the machine loads it. -/
def program : Program where
  code := ((mainCode ++ testCode ++ recurseCode).flatMap Instruction.words).toArray
  data := #[.number 1, .number 1, .number 1]
  entry := 0

-- The text is split into its characters first, as that of the evaluator is.
set_option maxRecDepth 4000 in
theorem drafting_text : ∃ cs, factorialText = String.ofList cs ∧
    ((do Draft.feed cs; Draft.finish "main".toList : Drafting Program)
      ({ labels := Assembler.predefined ⟨0⟩ } : Assembler).draft).any (·.1.sameAs program) = true :=
  ⟨_, rfl, by decide +kernel⟩

/-- Assembling the text of the factorial gives the factorial. -/
theorem assemble_factorialText (st : Store) :
    (Assembler.assemble factorialText "main" st).1 = .ok program := by
  obtain ⟨cs, hcs, ht⟩ := drafting_text
  obtain ⟨⟨p, d⟩, hd, hp : p.sameAs program = true⟩ := (Option.any_eq_true _ _).mp ht
  have hcs' : cs = factorialText.toList := by rw [hcs, String.toList_ofList]
  rw [hcs'] at hd
  rw [Assembler.assemble_of_drafting st hd, Program.eq_of_sameAs hp]
  simp [Assembler.movedProgram, program, Assembler.moved]

/-- Where instructions are. -/
theorem codeAt {pc : Nat} {is : List Instruction}
    (h : (is.flatMap Instruction.words).isPrefixOf (program.code.toList.drop pc) = true) :
    program.CodeAt pc is :=
  List.isPrefixOf_iff_prefix.mp h

@[simp] theorem goto_procedure (v : View) : v.goto program 10 = some { v with pc := 10 } := rfl

@[simp] theorem goto_recurse (v : View) : v.goto program 23 = some { v with pc := 23 } := rfl

@[simp] theorem constant_zero : program.constant? 0 = some (.number 1) := rfl

@[simp] theorem constant_one : program.constant? 1 = some (.number 1) := rfl

@[simp] theorem constant_two : program.constant? 2 = some (.number 1) := rfl

/-! ## Values and depths -/

/-- The factorial as a wrapping integer; it is one for what is at most one. -/
def value (n : Int64) : Int64 := Int64.ofNat (Nat.factorial n.toInt.toNat)

/-- How many calls of the procedure are nested. -/
def depth (n : Int64) : Nat := (max n.toInt 1).toNat

variable {n : Int64}

theorem value_of_le (h : n ≤ 1) : value n = 1 := by
  rw [Int64.le_iff_toInt_le] at h
  have ht : n.toInt.toNat ≤ 1 := by
    have h1 : (1 : Int64).toInt = 1 := rfl
    omega
  rw [value, Nat.factorial_eq_one.mpr ht]
  rfl

theorem toInt_pred (h : ¬ n ≤ 1) : (n - 1).toInt = n.toInt - 1 := by
  have h1 : (1 : Int64).toInt = 1 := rfl
  rw [Int64.le_iff_toInt_le, h1] at h
  have hlt := Int64.toInt_lt n
  rw [Int64.toInt_sub, h1]
  exact Int.bmod_eq_of_le (by omega) (by omega)

theorem value_of_not_le (h : ¬ n ≤ 1) : value n = n * value (n - 1) := by
  have hp := toInt_pred h
  have h1 : (1 : Int64).toInt = 1 := rfl
  rw [Int64.le_iff_toInt_le, h1] at h
  obtain ⟨k, hk⟩ : ∃ k : Nat, n.toInt = k + 1 := ⟨(n.toInt - 1).toNat, by omega⟩
  have hn : n = Int64.ofNat (k + 1) := by
    rw [← Int64.toInt_inj, hk, Int64.toInt_ofNat_of_lt]
    · simp
    · have hlt := Int64.toInt_lt n
      omega
  have ht : n.toInt.toNat = k + 1 := by omega
  have ht' : (n - 1).toInt.toNat = k := by omega
  rw [value, value, ht, ht', Nat.factorial_succ, Int64.ofNat_mul, ← hn]

theorem depth_of_le (h : n ≤ 1) : depth n = 1 := by
  have h1 : (1 : Int64).toInt = 1 := rfl
  rw [Int64.le_iff_toInt_le, h1] at h
  rw [depth, max_eq_right h]
  rfl

theorem depth_of_not_le (h : ¬ n ≤ 1) : depth n = depth (n - 1) + 1 := by
  have hp := toInt_pred h
  have h1 : (1 : Int64).toInt = 1 := rfl
  rw [Int64.le_iff_toInt_le, h1] at h
  rw [depth, depth, hp]
  omega

/-! ## The run -/

section

variable {E : Setting} {st : Store} (hp : E.program = program) (hk : E.Kept st)
include hp hk

/-- A stretch of the factorial that needs so many slots is carried out. -/
theorem comes_of_stretch {pc base : Nat} {cells : List Value} {a : Value} {w : View}
    (i : Instruction) (is : List Instruction) (slots : Nat)
    (hc : ((i :: is).flatMap Instruction.words).isPrefixOf (program.code.toList.drop pc) = true)
    (hw : (i :: is).countP (·.op.writes) = 0) (hs : Instruction.peak (i :: is) ≤ slots)
    (hn : cells.length + slots ≤ E.need)
    (h : View.runBlock program E.size (i :: is) ⟨pc, base, cells, a⟩ st = some (.ok w, st)) :
    E.Comes ⟨pc, base, cells, a⟩ st w st :=
  Setting.comes_of_runBlock (by rw [hp]; exact codeAt hc) (by omega)
    (by show (cells.length : Int) + _ ≤ _; omega) hk hk (by rw [hp]; exact h)

/-- A procedure is entered. -/
theorem comes_of_enter {pc base : Nat} {cells : List Value} {a : Value}
    (hc : ([Instruction.mk .enter 0].flatMap Instruction.words).isPrefixOf
      (program.code.toList.drop pc) = true) (hn : cells.length + 1 ≤ E.need) :
    E.Comes ⟨pc, base, cells, a⟩ st
      ⟨pc + 2, 0, registerValue (E.size - cells.length + base) :: cells, a⟩ st := by
  have hc' : E.program.CodeAt pc [⟨.enter, 0⟩] := by
    rw [hp]
    exact codeAt hc
  exact Setting.comes_of_enter (v := ⟨pc, base, cells, a⟩) hc' hk hn

/-- An arithmetic instruction is carried out. -/
theorem comes_of_arithmetic {pc base : Nat} {cells : List Value} {x y z : Value} (op : Opcode)
    (f : Value → Value → Action Value)
    (hc : ([Instruction.plain op].flatMap Instruction.words).isPrefixOf
      (program.code.toList.drop pc) = true)
    (he : ∀ n m, execute op n m st =
      (Machine.pop >>= fun left => get >>= fun m => Step.act (f left m.a) >>= setA) m st)
    (hz : f x y st = (.ok z, st)) :
    E.Comes ⟨pc, base + 1, x :: cells, y⟩ st
      ⟨pc + (Instruction.plain op).size, base, cells, z⟩ st := by
  have hc' : E.program.CodeAt pc [.plain op] := by
    rw [hp]
    exact codeAt hc
  refine Setting.comes_of_execute (v := ⟨pc, base + 1, x :: cells, y⟩) hc' hk fun m n hm => ?_
  obtain ⟨m', hpop, hs⟩ := hm.pop st rfl
  refine ⟨_, ?_, hs.setA z⟩
  have ha : m'.a = y := hs.a
  show execute op n m st = _
  rw [he, Step.bind_ok hpop, Step.get_bind, ha, Step.act_bind_ok m' hz]
  rfl

variable {link back a : Value} {rest : List Value} {pc base : Nat}

/-- The procedure takes its argument. -/
theorem comes_argument (hn : rest.length + 4 ≤ E.need) :
    E.Comes ⟨12, 0, link :: back :: .number n :: rest, a⟩ st
      ⟨15, 1, .number n :: link :: back :: .number n :: rest, .number n⟩ st :=
  comes_of_stretch hp hk ⟨.load, 2⟩ [.plain .push] 1 (by decide) (by decide) (by decide)
    (by simp only [List.length_cons]; omega) (by simp)

/-- The procedure tells whether its argument is at most one. -/
theorem comes_test (hn : rest.length + 4 ≤ E.need) :
    E.Comes ⟨15, 1, .number n :: link :: back :: .number n :: rest, .number n⟩ st
      ⟨if n ≤ 1 then 20 else 23, 0, link :: back :: .number n :: rest, flag (n ≤ 1)⟩ st := by
  refine comes_of_stretch hp hk ⟨.data, 0⟩ [.plain .lessEqual, ⟨.jumpZero, 23⟩] 0 (by decide)
    (by decide) (by decide) (by simp only [List.length_cons]; omega) ?_
  by_cases h : n ≤ 1 <;> simp [Comparison.holds, h]

/-- The procedure gives one. -/
theorem comes_one (hr : View.restore E.size link back (rest.length + 1) = some (pc, base))
    (hn : rest.length + 4 ≤ E.need) :
    E.Comes ⟨20, 0, link :: back :: .number n :: rest, a⟩ st
      ⟨pc, base, .number n :: rest, .number 1⟩ st :=
  comes_of_stretch hp hk ⟨.data, 1⟩ [.plain .leave] 0 (by decide) (by decide) (by decide)
    (by simp only [List.length_cons]; omega) (by simp [hr])

/-- The procedure calls itself with the number before its argument. -/
theorem comes_call (hn : rest.length + 8 ≤ E.need) :
    E.Comes ⟨23, 0, link :: back :: .number n :: rest, a⟩ st
      ⟨10, 3, registerValue 35 :: .number (n - 1) :: .number n :: link :: back :: .number n :: rest,
        .number (n - 1)⟩ st := by
  have hload : E.Comes ⟨23, 0, link :: back :: .number n :: rest, a⟩ st
      ⟨31, 2, .number n :: .number n :: link :: back :: .number n :: rest, .number 1⟩ st :=
    comes_of_stretch hp hk ⟨.load, 2⟩ [.plain .push, ⟨.load, 2⟩, .plain .push, ⟨.data, 2⟩] 2
      (by decide) (by decide) (by decide) (by simp only [List.length_cons]; omega) (by simp)
  have hsub : E.Comes
      ⟨31, 2, .number n :: .number n :: link :: back :: .number n :: rest, .number 1⟩ st
      ⟨32, 1, .number n :: link :: back :: .number n :: rest, .number (n - 1)⟩ st :=
    comes_of_arithmetic hp hk .sub Value.sub (by decide) (fun _ _ => rfl) rfl
  exact (hload.trans hsub).trans (comes_of_stretch hp hk (.plain .push) [⟨.call, 10⟩] 2 (by decide)
    (by decide) (by decide) (by simp only [List.length_cons]; omega) (by simp))

/-- The procedure multiplies its argument by what the inner call has given. -/
theorem comes_product (hr : View.restore E.size link back (rest.length + 1) = some (pc, base))
    {x y : Int64} (hn : rest.length + 8 ≤ E.need) :
    E.Comes ⟨35, 2, .number x :: .number n :: link :: back :: .number n :: rest, .number y⟩ st
      ⟨pc, base, .number n :: rest, .number (n * y)⟩ st := by
  have hdrop : E.Comes
      ⟨35, 2, .number x :: .number n :: link :: back :: .number n :: rest, .number y⟩ st
      ⟨37, 1, .number n :: link :: back :: .number n :: rest, .number y⟩ st :=
    comes_of_stretch hp hk ⟨.adjust, 1⟩ [] 0 (by decide) (by decide) (by decide)
      (by simp only [List.length_cons]; omega) (by simp)
  have hmul : E.Comes ⟨37, 1, .number n :: link :: back :: .number n :: rest, .number y⟩ st
      ⟨38, 0, link :: back :: .number n :: rest, .number (n * y)⟩ st :=
    comes_of_arithmetic hp hk .mul Value.mul (by decide) (fun _ _ => rfl) rfl
  exact (hdrop.trans hmul).trans (comes_of_stretch hp hk (.plain .leave) [] 0 (by decide)
    (by decide) (by decide) (by simp only [List.length_cons]; omega) (by simp [hr]))

end

/-- The procedure gives the factorial of its argument, if the stack has room for all calls. -/
theorem reaches_value {E : Setting} {st : Store} (hp : E.program = program) (hk : E.Kept st) :
    ∀ (calls : Nat) (n : Int64) (rest : List Value) (pc base : Nat) (a : Value),
      depth n = calls → rest.length + 4 * calls ≤ E.need → pc < 2 ^ 63 →
      E.Reaches 1 ⟨10, base + 1, registerValue pc :: .number n :: rest, a⟩ st fun m st' =>
        st' = st ∧ rest.length + 4 * calls ≤ E.size ∧
          Shows E.program E.size m ⟨pc, base, .number n :: rest, .number (value n)⟩ := by
  intro calls
  induction calls with
  | zero =>
    intro n rest pc base a hd
    rw [depth] at hd
    omega
  | succ calls ih =>
    intro n rest pc base a hd hn hpc
    refine .of_shows fun m hm => ?_
    have hsize := hm.length_le
    have hbase := hm.base_le
    have hsmall := hm.small
    simp only [List.length_cons] at hsize hbase
    have hr : View.restore E.size (registerValue (E.size - (rest.length + 1 + 1) + (base + 1)))
        (registerValue pc) (rest.length + 1) = some (pc, base) :=
      restore_link (by omega) (by omega) hsmall hpc
    have henter : E.Comes ⟨10, base + 1, registerValue pc :: .number n :: rest, a⟩ st
        ⟨12, 0, registerValue (E.size - (rest.length + 1 + 1) + (base + 1)) :: registerValue pc ::
          .number n :: rest, a⟩ st :=
      comes_of_enter hp hk (by decide) (by simp only [List.length_cons]; omega)
    generalize registerValue (E.size - (rest.length + 1 + 1) + (base + 1)) = link at hr henter
    -- once it has taken its argument, a call has all its slots on the stack
    refine (henter.trans (comes_argument hp hk (by omega))).reaches (n := 1)
      (.of_shows fun m hm => ?_) (by decide)
    have hroom := hm.length_le
    simp only [List.length_cons] at hroom
    have htest : E.Comes
        ⟨15, 1, .number n :: link :: registerValue pc :: .number n :: rest, .number n⟩ st
        ⟨if n ≤ 1 then 20 else 23, 0, link :: registerValue pc :: .number n :: rest,
          flag (n ≤ 1)⟩ st := comes_test hp hk (by omega)
    by_cases h : n ≤ 1
    · rw [depth_of_le h] at hd
      rw [if_pos h] at htest
      rw [value_of_le h]
      exact (htest.trans (comes_one hp hk hr (by omega))).imp fun m st' hm =>
        ⟨hm.2, by omega, hm.1⟩
    · rw [depth_of_not_le h, Nat.add_right_cancel_iff] at hd
      have hpos : 0 < calls := by
        rw [← hd, depth]
        omega
      rw [if_neg h] at htest
      rw [value_of_not_le h]
      have hinner := ih (n - 1) (.number n :: link :: registerValue pc :: .number n :: rest) 35 2
        (.number (n - 1)) hd (by simp only [List.length_cons]; omega) (by decide)
      refine (htest.trans (comes_call hp hk (by omega))).reaches (hinner.bind (n := 1) ?_)
        (by decide)
      rintro m st₁ ⟨rfl, hle, hm⟩
      simp only [List.length_cons] at hle
      exact ⟨_, hm, (comes_product hp hk hr (by omega)).imp fun m st' hm =>
        ⟨hm.2, by omega, hm.1⟩⟩

/-- The machine has come to its end by the instruction for it, with this value and with its
argument and the frame of its caller still on the stack. -/
structure Exited (size : Nat) (v : Value) (m : Machine) : Prop where
  finished : m.finished = true
  silent : m.haltMessage = none
  last : m.program.code[m.pc - 1]? = some Opcode.exit.word
  a : m.a = v
  sp : m.sp + 3 = size
  bp : m.bp + 3 = size

/-- The main part exits with the factorial of its argument, if the stack has room for all calls. -/
theorem reaches_exit {E : Setting} {st : Store} (hp : E.program = program) (hk : E.Kept st)
    (hn : 4 * depth n + 3 ≤ E.need) :
    E.Reaches 1 ⟨0, 1, [.number n, .number 0], .number 0⟩ st fun m st' =>
      st' = st ∧ 4 * depth n + 3 ≤ E.size ∧ Exited E.size (.number (value n)) m := by
  have hpos : 0 < depth n := by
    rw [depth]
    omega
  have henter : E.Comes ⟨0, 1, [.number n, .number 0], .number 0⟩ st
      ⟨2, 0, [registerValue (E.size - 2 + 1), .number n, .number 0], .number 0⟩ st :=
    comes_of_enter hp hk (by decide) (by simp only [List.length_cons, List.length_nil]; omega)
  generalize registerValue (E.size - 2 + 1) = link at henter
  have hcall : E.Comes ⟨2, 0, [link, .number n, .number 0], .number 0⟩ st
      ⟨10, 2, [registerValue 7, .number n, link, .number n, .number 0], .number n⟩ st :=
    comes_of_stretch hp hk ⟨.load, 1⟩ [.plain .push, ⟨.call, 10⟩] 2 (by decide) (by decide)
      (by decide) (by simp only [List.length_cons, List.length_nil]; omega) (by simp)
  have hvalue := reaches_value hp hk (depth n) n [link, .number n, .number 0] 7 1 (.number n) rfl
    (by simp only [List.length_cons, List.length_nil]; omega) (by decide)
  refine (henter.trans hcall).reaches (hvalue.bind (n := 1) ?_) (by decide)
  rintro m st₁ ⟨rfl, hle, hm⟩
  simp only [List.length_cons, List.length_nil] at hle
  refine ⟨_, hm, (comes_of_stretch hp hk ⟨.adjust, 1⟩ [] 0 (by decide) (by decide) (by decide)
    (by simp only [List.length_cons, List.length_nil]; omega) (by simp)).reaches (n := 1)
      (w := ⟨9, 0, [link, .number n, .number 0], .number (value n)⟩) (fun m₁ hm₁ => ?_) (by decide)⟩
  have hc : E.program.CodeAt 9 [.plain .exit] := by
    rw [hp]
    exact codeAt (by decide)
  obtain ⟨m₂, k, hs, hx, -⟩ := step_of_codeAt st₁ hm₁ hc
  have hsp := hs.sp
  have hbp := hs.bp
  simp only [List.length_cons, List.length_nil] at hsp hbp
  refine .inl ⟨1, { m₂ with finished := true }, st₁, Nat.le_refl 1,
    .single hm₁.running (hx.trans rfl) hk hk, rfl, by omega, ?_⟩
  exact {
    finished := rfl
    silent := hs.silent
    last := by
      show m₂.program.code[m₂.pc - 1]? = _
      rw [hs.program, hs.pc, hp]
      rfl
    a := hs.a
    sp := hsp
    bp := by
      show m₂.bp + 3 = E.size
      omega }

/-! ## The whole -/

/-- The setting for a run that needs so many slots, in a store that stays as it is. -/
def setting (size need : Nat) (st : Store) : Setting := ⟨program, size, need, (· = st)⟩

/-- The assembled program is run on a number.  With `4 * max n 1 + 3` slots of the stack it exits
with the factorial, and with fewer it fails for want of stack, when it is loaded or later.  The
slots have to have addresses that the registers can hold, as those of a stack in memory do. -/
theorem factorial_run (n : Int64) (size : Nat) (hsize : size < 2 ^ 63) (st : Store) :
    ∃ p, (Assembler.assemble factorialText "main" st).1 = .ok p ∧ ∀ st₁,
      (4 * max n.toInt 1 + 3 ≤ size →
        ∃ m fuel m', start p [.number n] size st₁ = (.ok m, st₁) ∧
          run fuel m st₁ = some ((.ok (.number (value n)), m'), st₁) ∧
          Exited size (.number (value n)) m') ∧
      (size < 4 * max n.toInt 1 + 3 →
        start p [.number n] size st₁ =
            (.error (.fault (if size = 0 then .noStack else .stackOverflow)), st₁) ∨
          ∃ m fuel m', start p [.number n] size st₁ = (.ok m, st₁) ∧
            run fuel m st₁ = some ((.error (.fault .stackOverflow), m'), st₁)) := by
  refine ⟨program, assemble_factorialText st, fun st₁ => ?_⟩
  have hdepth : (depth n : Int) = max n.toInt 1 := by
    rw [depth]
    omega
  rw [← hdepth]
  obtain ⟨m, hm, hshows⟩ | ⟨hl, hstart⟩ := start_shows program [.number n] hsize st₁
  · have hreach := reaches_exit (E := setting size (4 * depth n + 3) st₁) (n := n) rfl rfl
      (Nat.le_refl _) m hshows
    rcases hreach with ⟨k, m', st', -, hpass, rfl, hle, hexit⟩ | ⟨hlt, k, m', st', op, hpass, hfail, -⟩
    · refine ⟨fun _ => ⟨m, 1 + k, m', hm, ?_, hexit⟩, fun hlt => ?_⟩
      · rw [hpass.goes.run 1, run_finished 0 hexit.finished, hexit.a]
      · have hle : 4 * depth n + 3 ≤ size := hle
        omega
    · have hlt : size < 4 * depth n + 3 := hlt
      obtain rfl : st' = st₁ := hpass.kept (Nat.le_refl k) hpass.goes
      obtain ⟨m'', hs⟩ := hfail.fails
      refine ⟨fun hle => by omega, fun _ => .inr ⟨m, 1 + k, m'', hm, ?_⟩⟩
      rw [hpass.goes.run 1, run_step 0 hfail.running, hs]
  · have hpos : 0 < depth n := by omega
    rw [List.length_singleton] at hl
    exact ⟨fun hle => by omega, fun _ => .inl hstart⟩

/-- The factorial of three is six with fifteen slots, and with fourteen the stack overflows. -/
theorem factorial_run_of_three :
    ∃ p, (Assembler.assemble factorialText "main" {}).1 = .ok p ∧
      (∃ m fuel m', start p [.number 3] 15 {} = (.ok m, {}) ∧
        run fuel m {} = some ((.ok (.number 6), m'), {}) ∧ Exited 15 (.number 6) m') ∧
      ∃ m fuel m', start p [.number 3] 14 {} = (.ok m, {}) ∧
        run fuel m {} = some ((.error (.fault .stackOverflow), m'), {}) := by
  obtain ⟨p, hp, h⟩ := factorial_run 3 15 (by decide) {}
  obtain ⟨p', hp', h'⟩ := factorial_run 3 14 (by decide) {}
  cases hp.symm.trans hp'
  have hvalue : value 3 = 6 := by decide
  refine ⟨p, hp, ?_, ?_⟩
  · rw [← hvalue]
    exact (h {}).1 (by decide)
  · obtain rfl := Except.ok.inj (hp.symm.trans (assemble_factorialText {}))
    rcases (h' {}).2 (by decide) with hs | hs
    · obtain ⟨m, hm, -⟩ | ⟨hl, -⟩ :=
        start_shows program [.number 3] (by decide : 14 < 2 ^ 63) {}
      · cases hm.symm.trans hs
      · exact absurd hl (by decide)
    · exact hs

end LispEngines.Machine.Factorial
