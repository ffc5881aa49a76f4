import LispEngines.Proofs.Machine.Stretches
import LispEngines.Proofs.Store.Texts

/-!
# How the evaluator begins and ends

What the stretches of the evaluator do between its calls is one thing; here is what it
does at its edges.  It is started with an expression and a scope on its stack, it enters a
call, and it ends in one of two ways: by leaving its main part, with the value, or by
stopping with a message that rejects a form.
-/

namespace LispEngines

theorem Failure.ofHalt_append (detail : String) :
    ofHalt (malformedHalt ++ detail) = .malformed detail := by
  have h : Text.dropLead? malformedHalt (malformedHalt ++ detail) = some detail := by
    rw [Text.dropLead?, String.toList_append, Text.afterLead?_append, Option.map_some,
      String.ofList_toList]
  rw [ofHalt, h]

namespace Machine

variable {p : Program} {size : Nat} {m m' : Machine} {v : View} {st : Store}

/-- A machine with nothing on its stack. -/
theorem shows_load (p : Program) (h : 0 < size) (hs : size < 2 ^ 63) :
    Shows p size (load p size) ⟨p.entry, 0, [.number 0], .number 0⟩ where
  program := rfl
  running := rfl
  silent := rfl
  pc := rfl
  a := rfl
  stack := Array.size_replicate
  sp := by
    show size - 1 + 1 = size
    omega
  bp := rfl
  cells := by
    show (Array.replicate size (Value.number 0)).toList.drop (size - 1) = [.number 0]
    rw [Array.toList_replicate, List.drop_replicate, Nat.sub_sub_self h]
    rfl
  base_le := Nat.zero_le _
  small := hs

/-- Pushes find room or not. -/
theorem Shows.pushes (st : Store) : ∀ (args : List Value) {m : Machine} {v : View},
    Shows p size m v →
      (∃ m', args.forM Machine.push m st = ((.ok (), m'), st) ∧
        Shows p size m'
          { v with base := v.base + args.length, cells := args.reverse ++ v.cells }) ∨
      ((∃ m', args.forM Machine.push m st = ((.error (.fault .stackOverflow), m'), st)) ∧
        size < v.cells.length + args.length)
  | [], m, v, h => .inl ⟨m, rfl, h⟩
  | x :: args, m, v, h => by
    rw [List.forM_eq_forM, List.forM_cons]
    obtain ⟨m₁, hm, hs⟩ | ⟨hm, hl⟩ := h.push st x
    · rw [Step.bind_ok hm]
      have hb : (v.push x).base + args.length = v.base + (x :: args).length := by
        simp only [View.push, List.length_cons]
        omega
      have hc : args.reverse ++ (v.push x).cells = (x :: args).reverse ++ v.cells := by
        simp
      have hl : (v.push x).cells.length + args.length = v.cells.length + (x :: args).length := by
        simp only [View.push, List.length_cons]
        omega
      have ih := hs.pushes st args
      rwa [hb, hc, hl] at ih
    · rw [Step.bind_error hm]
      refine .inr ⟨⟨m, rfl⟩, ?_⟩
      simp only [View.push, List.length_cons] at hl ⊢
      omega

/-- A machine is started on its arguments, or its stack is too small for them. -/
theorem start_shows (p : Program) (args : List Value) (hs : size < 2 ^ 63) (st : Store) :
    (∃ m, start p args size st = (.ok m, st) ∧
      Shows p size m ⟨p.entry, args.length, args.reverse ++ [.number 0], .number 0⟩) ∨
    (size < args.length + 1 ∧ start p args size st =
      (.error (.fault (if size = 0 then .noStack else .stackOverflow)), st)) := by
  rcases Nat.eq_zero_or_pos size with rfl | hpos
  · exact .inr ⟨Nat.succ_pos _, rfl⟩
  · rw [start, if_neg (Nat.ne_of_gt hpos), if_neg (Nat.ne_of_gt hpos)]
    obtain ⟨m, hm, hm'⟩ | ⟨⟨m, hm⟩, hl⟩ := (shows_load p hpos hs).pushes st args
    · rw [hm]
      refine .inl ⟨m, rfl, ?_⟩
      rwa [Nat.zero_add] at hm'
    · rw [hm]
      exact .inr ⟨by rwa [Nat.add_comm] at hl, rfl⟩

/-- A call leaves to where it was made, with the frame that was there. -/
theorem restore_link {height base pc : Nat} (hl : height < size) (hb : base ≤ height)
    (hs : size < 2 ^ 63) (hpc : pc < 2 ^ 63) :
    View.restore size (registerValue (size - (height + 1) + (base + 1))) (registerValue pc)
      height = some (pc, base) := by
  rw [View.restore]
  simp only [registerValue, Value.number?, Option.bind_some]
  rw [Opcode.position?_ofNat (by omega), Opcode.position?_ofNat hpc, Option.bind_some,
    Option.bind_some, if_pos (by omega)]
  exact congrArg (fun n => some (pc, n)) (by omega)

/-- The machine has come to its end, with this value. -/
structure Exits (size : Nat) (v : Value) (m : Machine) : Prop where
  finished : m.finished = true
  silent : m.haltMessage = none
  a : m.a = v
  sp : m.sp + 4 = size
  bp : m.bp + 4 = size

/-- The machine has stopped with this message, which it has written on a line of its own. -/
structure Halts (text : String) (st : Store) (m : Machine) (st' : Store) : Prop where
  finished : m.finished = true
  message : m.haltMessage = some text
  sink : ∃ sink, st.sink.write? (text ++ "\n") = some sink ∧ st' = { st with sink }

namespace Evaluator

variable {E : Setting} {empty : ListRef} {k pc base : Nat} {f : Activation}
  {temps below : List Value} {a s x : Value} {b : Block}

/-- A call is entered.  Whatever the new slots hold, the call returns to where it was made. -/
theorem entered (h : Ready E empty (below.length + 10) st) (hpc : pc < 2 ^ 63) :
    E.Reaches 1 (called pc base s x below) st fun m st' => st' = st ∧
      ∃ (f : Activation) (a : Value), f.scope = s ∧ f.x = x ∧
        f.Returns E.size below pc base ∧ Shows E.program E.size m (f.view .evalTop [] below a) := by
  intro m hm
  have hc : E.program.CodeAt (called pc base s x below).pc [⟨.enter, 4⟩] := by
    rw [h.program]
    exact codeAt empty .eval
  obtain ⟨m₁, n, hs, hx, hn⟩ := step_of_codeAt st hm hc
  obtain rfl : n = 4 := hn.resolve_left (by decide)
  have hroom := h.room
  have hl : (called pc base s x below).cells.length = below.length + 3 := by simp
  have hle := hm.length_le
  have hb : base + 3 ≤ below.length + 3 := by simpa using hm.base_le
  have hsz := hm.small
  have he : _ ∨ (∃ m', execute .enter (Int64.ofNat 4) m₁ st = ((.error _, m'), st)) ∧ _ :=
    hs.enter (by decide)
  obtain ⟨m₂, slots, he, hlen, hs₂⟩ | ⟨⟨m₂, he⟩, ho⟩ := he
  · obtain ⟨y₁, y₂, y₃, y₄, rfl⟩ : ∃ y₁ y₂ y₃ y₄, slots = [y₁, y₂, y₃, y₄] := by
      match slots, hlen with
      | [y₁, y₂, y₃, y₄], _ => exact ⟨y₁, y₂, y₃, y₄, rfl⟩
    refine .inl ⟨1, m₂, st, Nat.le_refl 1,
      .single hm.running (hx.trans he) h.kept h.kept, rfl,
      ⟨y₁, y₂, y₃, y₄, registerValue (E.size - (below.length + 3) + (base + 3)), registerValue pc,
        s, x⟩, s, rfl, rfl, ?_, ?_⟩
    · exact restore_link (by omega) (by omega) hsz hpc
    · exact hs₂
  · refine .inr ⟨by simp at ho; omega, 0, m, st, .enter, .refl m h.kept,
      .of_step hm hc ⟨m₂, hx.trans he⟩, rfl⟩

/-- The main part calls the evaluation of its arguments. -/
theorem main (h : Ready E empty 14 st) :
    E.Reaches 1 ⟨Block.main.start, 2, [s, x, .number 0], .number 0⟩ st fun m st' => st' = st ∧
      ∃ link, Shows E.program E.size m
        (called Block.mainValue.start 0 s x [link, s, x, .number 0]) := by
  have hc : E.program.CodeAt 0 (⟨.enter, 0⟩ :: Block.main.code.tail) := by
    rw [h.program]
    exact codeAt empty .main
  have hroom := h.room
  have henter := Setting.comes_of_enter (v := ⟨0, 2, [s, x, .number 0], .number 0⟩) hc h.kept
    (by simp only [List.length_cons, List.length_nil]; omega)
  refine henter.reaches (n := 1) (Setting.Reaches.imp (@Setting.comes_of_runBlock _ _
    (called Block.mainValue.start 0 s x [registerValue (E.size - 3 + 2), s, x, .number 0]) _
    ⟨.load, 2⟩ Block.main.code.tail.tail _ (codeAt_cons hc).2.2 (by decide) ?_ h.kept h.kept ?_)
    fun m st' hm => ⟨hm.2, _, hm.1⟩) (by decide)
  · show ((4 : Nat) : Int) + Instruction.peak Block.main.code.tail ≤ E.need
    have hpeak : Instruction.peak Block.main.code.tail ≤ 3 := by decide +kernel
    omega
  · rw [h.program]
    simp

/-- The main part has its value and leaves. -/
theorem mainValue (h : Ready E empty 4 st) (hl : below.length = 4) {v : Value} :
    E.Reaches 1 (returned Block.mainValue.start 0 s x below v) st fun m st' =>
      st' = st ∧ Exits E.size v m := by
  have hc : E.program.CodeAt 10 Block.mainValue.code := by
    rw [h.program]
    exact codeAt empty .mainValue
  have hr := h.room
  have hg : E.Comes (returned Block.mainValue.start 0 s x below v) st ⟨12, 0, below, v⟩ st :=
    Setting.comes_of_exec hc h.kept h.kept (by simp [Instruction.lift]; omega) (by simp)
  refine hg.reaches (n := 1) (fun m hm => ?_) (by decide)
  obtain ⟨m₁, n, hs, hx, -⟩ := step_of_codeAt st hm (codeAt_cons hc).2.2
  have hsp := hs.sp
  have hbp := hs.bp
  exact .inl ⟨1, { m₁ with finished := true }, st, Nat.le_refl 1,
    .single hm.running (hx.trans rfl) h.kept h.kept, rfl,
    { finished := rfl
      silent := hs.silent
      a := hs.a
      sp := by
        show m₁.sp + 4 = E.size
        simp only at hsp
        omega
      bp := by
        show m₁.bp + 4 = E.size
        simp only at hsp hbp
        omega }⟩

/-- A stretch that rejects a form says so and stops, unless the output is closed. -/
theorem rejected (h : Ready E empty below.length st) {n : Int64} {text : String}
    (hb : b.code = [⟨.halt, n⟩]) (hn : (program empty).constant? n = some (.text text))
    (hk : ∀ sink, E.Kept { st with sink }) :
    E.Reaches 0 (f.view b [] below a) st fun m st' => Halts text st m st' ∨
      (st.sink.write? (text ++ "\n") = none ∧
        FailsIn m st' .halt (.fault (.output Action.sinkClosed)) st) := by
  intro m hm
  have hc : E.program.CodeAt (f.view b [] below a).pc [⟨.halt, n⟩] := by
    rw [h.program, ← hb]
    exact codeAt empty b
  obtain ⟨m₁, n', hs, hx, hn'⟩ := step_of_codeAt st hm hc
  obtain rfl : n' = n := hn'.resolve_left Nat.one_ne_zero
  have hp : m₁.program.constant? n' = some (.text text) := by rw [hs.program, h.program, hn]
  have hx' : execute .halt n' m₁ st = ((do
      Step.act (Action.write (text ++ "\n") fun reason => .fault (.output reason))
      modify fun m => { m with haltMessage := some text, finished := true } :
        Step Machine Unit) m₁ st) := by
    have ht : (Value.text text).shown st = text := by
      rw [Value.shown_of_list? rfl, Value.showWithin]
    show ((constant n' >>= fun v => _) : Step Machine Unit) m₁ st = _
    rw [Step.bind_ok (constant_of hp)]
    show ((emit ((Value.text text).shown st ++ "\n") >>= fun _ => _) : Step Machine Unit) m₁ st = _
    rw [ht, emit]
  rcases hw : st.sink.write? (text ++ "\n") with _ | sink
  · rw [Step.act_bind_error m₁ (Action.write_of_none hw _)] at hx'
    exact .inl ⟨0, m, st, Nat.le_refl 0, .refl m h.kept, .inr ⟨rfl, .of_step hm hc ⟨_, hx.trans hx'⟩⟩⟩
  · rw [Step.act_bind_ok m₁ (Action.write_of_some hw _)] at hx'
    exact .inl ⟨1, _, _, Nat.zero_le 1, .single hm.running (hx.trans hx') h.kept (hk sink),
      .inl ⟨rfl, rfl, sink, hw, rfl⟩⟩

end Evaluator

end Machine

end LispEngines
