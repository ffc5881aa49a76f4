import LispEngines.Proofs.Machine.Alike

/-!
# Machines abreast

What a call of `eval` does has nothing to do with the depth of the stack that it is made at, nor
with what lies around its frame.  To see this two machines are put side by side, which have the
same store and stand at the same place of the evaluator, in frames that agree.  The code reads what
is known only, so they do the same, and stand at the same place again, until the calls that are
compared return.

* `Abreast`: the machines stand at the same place of the code.
* `Abreast.step`: they make the same step, unless the first one is at fault.
* `Abreast.run`: wherever the first one goes, the second one goes with it.
-/

namespace LispEngines.Machine

open Evaluator (Block called returned)

variable {size size' pc : Nat} {p : Program} {m m' : Machine} {st : Store} {v v' w w' : View}
  {ks : List Bool} {o o' q q' : Return}

/-- No instruction without an operand looks at one. -/
theorem execute_operand {op : Opcode} (h : op.operandCount = 0) (n n' : Int64) :
    execute op n = execute op n' := by
  cases op <;> first | rfl | cases h

/-- The machine takes up the instruction that is next, with its operand. -/
theorem step_eq_execute {i : Instruction} {is : List Instruction} (st : Store)
    (h : Shows p size m v) (hc : p.CodeAt v.pc (i :: is)) :
    ∃ m', Shows p size m' { v with pc := v.pc + i.size } ∧
      step m st = execute i.op i.operand m' st := by
  obtain ⟨m', n, hs, hx, hn⟩ := step_of_codeAt st h hc
  refine ⟨m', hs, hx.trans ?_⟩
  rcases hn with ho | rfl
  · rw [execute_operand ho n i.operand]
  · rfl

namespace Evaluator

variable {empty : ListRef}

/-- Both machines stand at the same place of the evaluator: within a call, so much being known, or
about to enter one. -/
inductive Abreast (empty : ListRef) (size size' : Nat) (o o' : Return) : View → View → Prop
  | inside {is : List Instruction} {pc : Nat} {ks : List Bool} {v v' : View}
      (hc : (program empty).CodeAt pc is) (hf : flows pc is ks = true)
      (h : Alike size size' o o' pc ks v v') : Abreast empty size size' o o' v v'
  | entering {s x a : Value} {q q' : Return} (h : Suspended size size' o o' q q')
      (hq : q.pc < 2 ^ 63) (hq' : q'.pc < 2 ^ 63) : Abreast empty size size' o o'
        ⟨Block.eval.start, q.base + 3, registerValue q.pc :: s :: x :: q.below, a⟩
        ⟨Block.eval.start, q'.base + 3, registerValue q'.pc :: s :: x :: q'.below, a⟩

/-- What comes of a step: the machines stand side by side again, or the outermost calls have
returned, or a form has been rejected with a message, or both have failed. -/
inductive Stepped (empty : ListRef) (size size' : Nat) (o o' : Return) :
    (Except Failure Unit × Machine) × Store → (Except Failure Unit × Machine) × Store → Prop
  | on {m m' : Machine} {st : Store} {v v' : View} (h : Shows (program empty) size m v)
      (h' : Shows (program empty) size' m' v') (ha : Abreast empty size size' o o' v v') :
      Stepped empty size size' o o' ((.ok (), m), st) ((.ok (), m'), st)
  | returned {m m' : Machine} {st : Store} {s x a : Value}
      (h : Shows (program empty) size m (returned o.pc o.base s x o.below a))
      (h' : Shows (program empty) size' m' (returned o'.pc o'.base s x o'.below a)) :
      Stepped empty size size' o o' ((.ok (), m), st) ((.ok (), m'), st)
  | stopped {m m' : Machine} {st : Store} {text : String} (hf : m.finished = true)
      (ht : m.haltMessage = some text) (hf' : m'.finished = true) (ht' : m'.haltMessage = some text) :
      Stepped empty size size' o o' ((.ok (), m), st) ((.ok (), m'), st)
  | error {e : Failure} {m m' : Machine} {st : Store} :
      Stepped empty size size' o o' ((.error e, m), st) ((.error e, m'), st)
  | fault {f : Fault} {m : Machine} {st : Store} {out : (Except Failure Unit × Machine) × Store} :
      Stepped empty size size' o o' ((.error (.fault f), m), st) out

theorem Stepped.of_mirrors {x : Step Machine Unit} {Q : Unit → View → View → Prop}
    (h : Mirrors (program empty) size size' st Q x m m')
    (hQ : ∀ w w', Q () w w' → Abreast empty size size' o o' w w') :
    Stepped empty size size' o o' (x m st) (x m' st) := by
  unfold Mirrors at h
  generalize x m st = out at h ⊢
  generalize x m' st = out' at h ⊢
  cases h with
  | ok h h' hq => exact .on h h' (hQ _ _ hq)
  | error => exact .error
  | fault => exact .fault

/-- The stretch that a part of the check leads to. -/
theorem exists_of_find {f g : Block → Bool} (h : ((Block.all.find? f).any g) = true) :
    ∃ b, f b = true ∧ g b = true := by
  rcases hb : Block.all.find? f with _ | b <;> rw [hb] at h
  · cases h
  · exact ⟨b, List.find?_some hb, h⟩

/-- Machines side by side come to a stretch that asks for no more than they know. -/
theorem Abreast.of_admits {b : Block} (h : Alike size size' o o' b.start ks v v')
    (hb : b.admits ks = true) : Abreast empty size size' o o' v v' := by
  rw [Block.admits] at hb
  rcases hk : b.known? with _ | asked <;> rw [hk] at hb
  · cases hb
  · exact .inside (codeAt empty b) (flows_code hk) (h.of_covers hb)

/-- At the end of a stretch the next one begins. -/
theorem Abreast.exists_instruction {is : List Instruction} (hc : (program empty).CodeAt pc is)
    (hf : flows pc is ks = true) (h : Alike size size' o o' pc ks v v') :
    ∃ i is ks, (program empty).CodeAt pc (i :: is) ∧ flows pc (i :: is) ks = true ∧
      Alike size size' o o' pc ks v v' := by
  rcases is with _ | ⟨i, is⟩
  · obtain ⟨b, hb, ha⟩ := exists_of_find hf
    obtain rfl := beq_iff_eq.mp hb
    rw [Block.admits] at ha
    rcases hk : b.known? with _ | asked <;> rw [hk] at ha
    · cases ha
    · have hne : b.code ≠ [] := by cases b <;> exact List.cons_ne_nil _ _
      obtain ⟨i, is, hi⟩ := List.exists_cons_of_ne_nil hne
      exact ⟨i, is, asked, hi ▸ codeAt empty b, hi ▸ flows_code hk, h.of_covers ha⟩
  · exact ⟨i, is, ks, hc, hf, h⟩

section

variable (hm : Shows (program empty) size m v) (hm' : Shows (program empty) size' m' v')
include hm hm'

/-- A jump to a stretch, taken or not. -/
theorem mirrors_jump {op : Opcode} {b : Block} {t : Int64 → Bool}
    (hx : ∀ {size : Nat} (v : View), v.exec (program empty) size op b.word st =
      View.still (if t v.a.toInt then v.goto (program empty) b.word else some v) st)
    (hg : op.grows = false) (h : Alike size size' o o' pc ks v v') :
    Mirrors (program empty) size size' st
      (fun _ w w' => ∃ i, (i = pc ∨ i = b.start) ∧ Alike size size' o o' i ks w w')
      (execute op b.word) m m' := by
  have ha : t v'.a.toInt = t v.a.toInt := by rw [h.a_eq]
  by_cases ht : t v.a.toInt = true
  · have he : v.exec (program empty) size op b.word st = some (.ok { v with pc := b.start }, st) := by
      rw [hx, if_pos ht, goto_word]
      rfl
    have he' : v'.exec (program empty) size' op b.word st =
        some (.ok { v' with pc := b.start }, st) := by
      rw [hx, if_pos (ha.trans ht), goto_word]
      rfl
    exact (mirrors_still hm hm' hg he he' (h.withPc b.start)).imp fun _ _ _ hw => ⟨_, .inr rfl, hw⟩
  · refine (mirrors_still hm hm' hg ?_ ?_ h).imp fun _ _ _ hw => ⟨_, .inl rfl, hw⟩
    · rw [hx, if_neg ht]
      rfl
    · rw [hx, if_neg (by rw [ha]; exact ht)]
      rfl

/-- A call from a stretch that is to come back to another one. -/
theorem stepped_call {b : Block} {ks : List Bool}
    (hroom : size + o'.below.length ≤ size' + o.below.length)
    (h : Alike size size' o o' b.start ks v v') (hb : b.admits ks = true) (hr : b.resumes = true) :
    Stepped empty size size' o o' (execute .call Block.eval.word m st)
      (execute .call Block.eval.word m' st) := by
  rw [Block.admits] at hb
  rw [Block.resumes] at hr
  rcases hk : b.known? with _ | asked <;> rw [hk] at hb hr
  · cases hb
  have hpc : b.start < 2 ^ 63 := by
    have hlt : b.start < 559 := by cases b <;> decide
    omega
  have hl := h.room hroom
  cases h.of_covers hb with
  | @mk _ _ _ _ _ _ s x a _ _ hs hq hq' ht =>
    -- the scope and the expression of the call are on top
    obtain _ | ⟨t, ht⟩ | ⟨_, _, ht⟩ := ht
    · cases hr
    · obtain _ | ⟨y, ht⟩ | ⟨_, _, ht⟩ := ht
      · cases hr
      · have hnext : Abreast empty size size' o o' _ _ := .entering (s := t) (x := y) (a := a)
          (.within (s := s) (x := x) hs hq hq' hk ht) hpc hpc
        refine .of_mirrors (Q := fun _ w w' => Abreast empty size size' o o' w w')
          (mirrors_exec hm hm' (fun _ => ?_) ?_ ?_ hnext) fun _ _ hw => hw
        · simp only [List.length_cons, List.length_append] at hl ⊢
          omega
        · simp
        · simp
      · cases hr
    · cases hr

/-- A return leads to the frame around, or out of the outermost calls. -/
theorem stepped_leave {n : Int64} (h : Alike size size' o o' pc ks v v') :
    Stepped empty size size' o o' (execute .leave n m st) (execute .leave n m' st) := by
  cases h with
  | @mk top top' link back link' back' s x a q q' hs hq hq' ht =>
    obtain ⟨hl, hl'⟩ := ht.lengths
    have he : View.exec (program empty) size .leave n
        ⟨pc, ks.length, top ++ link :: back :: s :: x :: q.below, a⟩ st =
        some (.ok (returned q.pc q.base s x q.below a), st) := by
      have hr : View.restore size link back (q.below.length + 1 + 1) = some (q.pc, q.base + 2) := hq
      simp [List.drop_left' hl, hr]
    have he' : View.exec (program empty) size' .leave n
        ⟨pc, ks.length, top' ++ link' :: back' :: s :: x :: q'.below, a⟩ st =
        some (.ok (returned q'.pc q'.base s x q'.below a), st) := by
      have hr : View.restore size' link' back' (q'.below.length + 1 + 1) = some (q'.pc, q'.base + 2) :=
        hq'
      simp [List.drop_left' hl', hr]
    have hx := hm.execute he
    have hx' := hm'.execute he'
    generalize execute .leave n m st = out at hx ⊢
    generalize execute .leave n m' st = out' at hx' ⊢
    cases hx with
    | overflow ho => cases ho
    | ok hw =>
      cases hx' with
      | overflow ho => cases ho
      | ok hw' =>
        cases hs with
        | outermost => exact .returned hw hw'
        | @within b _ _ _ _ _ _ _ t y _ _ hs hp hp' hb ht =>
          exact .on hw hw' (.inside (codeAt empty b) (flows_code hb)
            (.mk (s := t) (x := y) hs hp hp' (.known s (.known x ht))))

/-- A form is rejected with the same message. -/
theorem stepped_halt (n : Int64) :
    Stepped empty size size' o o' (execute .halt n m st) (execute .halt n m' st) := by
  rcases hc : (program empty).constant? n with _ | x
  · rw [execute, constant, Step.bind_apply, Step.get_bind, hm.program, hc]
    exact .fault
  · rw [execute, Step.bind_ok (constant_of (by rw [hm.program, hc])),
      Step.bind_ok (constant_of (by rw [hm'.program, hc]))]
    show Stepped empty size size' o o'
      ((emit (x.shown st ++ "\n") >>= fun _ => modify fun m =>
        { m with haltMessage := some (x.shown st), finished := true } : Step Machine Unit) m st)
      ((emit (x.shown st ++ "\n") >>= fun _ => modify fun m =>
        { m with haltMessage := some (x.shown st), finished := true } : Step Machine Unit) m' st)
    rw [Step.bind_apply, Step.bind_apply, emit, Step.act_apply, Step.act_apply]
    rcases Action.write (x.shown st ++ "\n") (fun reason => .fault (.output reason)) st with
      ⟨e | _, st₁⟩
    · exact .error
    · exact .stopped rfl rfl rfl rfl

/-- A call is entered; nothing is known of its slots. -/
theorem stepped_enter {s x a : Value} (hroom : size + o'.below.length ≤ size' + o.below.length)
    (hs : Suspended size size' o o' q q') (hq : q.pc < 2 ^ 63) (hq' : q'.pc < 2 ^ 63)
    (hv : v = ⟨Block.evalTop.start, q.base + 3, registerValue q.pc :: s :: x :: q.below, a⟩)
    (hv' : v' = ⟨Block.evalTop.start, q'.base + 3, registerValue q'.pc :: s :: x :: q'.below, a⟩) :
    Stepped empty size size' o o' (execute .enter 4 m st) (execute .enter 4 m' st) := by
  subst hv hv'
  have hle := hm.length_le
  have hb := hm.base_le
  have hle' := hm'.length_le
  have hb' := hm'.base_le
  have hr := hs.room hroom
  simp only [List.length_cons] at hle hb hle' hb'
  have he : _ ∨ (∃ m₁, execute .enter (Int64.ofNat 4) m st = ((.error _, m₁), st)) ∧ _ :=
    hm.enter (by decide)
  have he' : _ ∨ (∃ m₁, execute .enter (Int64.ofNat 4) m' st = ((.error _, m₁), st)) ∧ _ :=
    hm'.enter (by decide)
  obtain ⟨m₁, slots, he, hlen, hs₁⟩ | ⟨⟨m₁, he⟩, -⟩ := he
  · obtain ⟨m₁', slots', he', hlen', hs₁'⟩ | ⟨-, ho⟩ := he'
    · have hleads : q.Leads size (registerValue (size - (q.below.length + 2 + 1) + (q.base + 2 + 1)))
          (registerValue q.pc) := restore_link (by omega) (by omega) hm.small hq
      have hleads' : q'.Leads size'
          (registerValue (size' - (q'.below.length + 2 + 1) + (q'.base + 2 + 1)))
          (registerValue q'.pc) := restore_link (by omega) (by omega) hm'.small hq'
      have hagree := Agree.of_length (hlen.trans hlen'.symm)
      rw [hlen] at hagree
      have hnext : Abreast empty size size' o o' _ _ := .inside (codeAt empty .evalTop) (flows_code rfl)
        (.mk (s := s) (x := x) (a := a) hs hleads hleads' hagree)
      have he₁ : execute .enter 4 m st = ((.ok (), m₁), st) := he
      have he₁' : execute .enter 4 m' st = ((.ok (), m₁'), st) := he'
      rw [he₁, he₁']
      exact .on hs₁ hs₁' hnext
    · have hle₁ := hs₁.length_le
      simp only [List.length_append, List.length_cons, hlen] at hle₁ ho
      omega
  · have he₁ : execute .enter 4 m st = ((.error (.fault .stackOverflow), m₁), st) := he
    rw [he₁]
    exact .fault

end

/-- **A step side by side**: the machines make the same step, unless the first one is at fault. -/
theorem Abreast.step (hroom : size + o'.below.length ≤ size' + o.below.length)
    (hm : Shows (program empty) size m v) (hm' : Shows (program empty) size' m' v')
    (h : Abreast empty size size' o o' v v') (st : Store) :
    Stepped empty size size' o o' (Machine.step m st) (Machine.step m' st) := by
  cases h with
  | entering hs hq hq' =>
    obtain ⟨m₁, hm₁, hx⟩ := step_eq_execute st hm (codeAt empty .eval)
    obtain ⟨m₁', hm₁', hx'⟩ := step_eq_execute st hm' (codeAt empty .eval)
    rw [hx, hx']
    exact stepped_enter hm₁ hm₁' hroom hs hq hq' rfl rfl
  | @inside _ pc _ _ _ hc hf h =>
    obtain ⟨hpc, hpc'⟩ := h.pc_eq
    obtain ⟨⟨op, n⟩, is, ks, hc, hf, h⟩ := Abreast.exists_instruction hc hf h
    obtain ⟨m₁, hm₁, hx⟩ := step_eq_execute st hm (hpc ▸ hc)
    obtain ⟨m₁', hm₁', hx'⟩ := step_eq_execute st hm' (hpc' ▸ hc)
    have hnext := (codeAt_cons hc).2.2
    rw [hx, hx']
    rw [hpc] at hm₁
    rw [hpc'] at hm₁'
    replace h := h.withPc (pc + Instruction.size ⟨op, n⟩)
    have hstraight (ho : ((knownAfter? op n ks).any
        (flows (pc + Instruction.size ⟨op, n⟩) is)) = true) :
        Stepped empty size size' o o' (execute op n m₁ st) (execute op n m₁' st) := by
      rcases hk : knownAfter? op n ks with _ | ks₁ <;> rw [hk] at ho
      · cases ho
      · exact .of_mirrors (mirrors_execute hm₁ hm₁' hroom h hk) fun _ _ hw => .inside hnext ho hw
    cases op with
    | leave => exact stepped_leave hm₁ hm₁' h
    | halt => exact stepped_halt hm₁ hm₁' n
    | jump =>
      obtain ⟨b, hb, ha⟩ := exists_of_find hf
      obtain rfl := beq_iff_eq.mp hb
      exact .of_mirrors (mirrors_still hm₁ hm₁' rfl (by rw [View.exec, goto_word]; rfl)
        (by rw [View.exec, goto_word]; rfl) (h.withPc b.start)) fun _ _ hw => .of_admits hw ha
    | jumpZero =>
      obtain ⟨hj, hf⟩ := Bool.and_eq_true_iff.mp hf
      obtain ⟨b, hb, ha⟩ := exists_of_find hj
      obtain rfl := beq_iff_eq.mp hb
      refine .of_mirrors (mirrors_jump (t := (· == 0)) hm₁ hm₁' (fun _ => rfl) rfl h) ?_
      rintro w w' ⟨i, rfl | rfl, hw⟩
      · exact .inside hnext hf hw
      · exact .of_admits hw ha
    | jumpNonzero =>
      obtain ⟨hj, hf⟩ := Bool.and_eq_true_iff.mp hf
      obtain ⟨b, hb, ha⟩ := exists_of_find hj
      obtain rfl := beq_iff_eq.mp hb
      refine .of_mirrors (mirrors_jump (t := (· != 0)) hm₁ hm₁' (fun _ => rfl) rfl h) ?_
      rintro w w' ⟨i, rfl | rfl, hw⟩
      · exact .inside hnext hf hw
      · exact .of_admits hw ha
    | call =>
      obtain ⟨hn, hf⟩ := Bool.and_eq_true_iff.mp hf
      obtain rfl := beq_iff_eq.mp hn
      obtain ⟨b, hb, ha⟩ := exists_of_find hf
      obtain ⟨ha, hr⟩ := Bool.and_eq_true_iff.mp ha
      rw [← beq_iff_eq.mp hb] at hm₁ hm₁' h
      exact stepped_call hm₁ hm₁' hroom h ha hr
    | _ => exact hstraight hf

/-- How far the second machine has come with the first one: they have left the outermost calls with
the same value, or have stopped with the same message, or still stand side by side. -/
inductive Accompanied (empty : ListRef) (size size' : Nat) (o o' : Return) (k : Nat) (m : Machine)
    (st : Store) (m₁ : Machine) (st₁ : Store) (m' : Machine) : Prop
  | returned {i j : Nat} {m₂ m₂' : Machine} {mid : Store} {s x a : Value} (hg : Goes i m st m₂ mid)
      (hg' : Goes i m' st m₂' mid) (hrest : Goes j m₂ mid m₁ st₁)
      (h : Shows (program empty) size m₂ (returned o.pc o.base s x o.below a))
      (h' : Shows (program empty) size' m₂' (returned o'.pc o'.base s x o'.below a))
  | stopped {m₁' : Machine} {text : String} (hg' : Goes k m' st m₁' st₁) (hf : m₁.finished = true)
      (ht : m₁.haltMessage = some text) (hf' : m₁'.finished = true)
      (ht' : m₁'.haltMessage = some text)
  | on {m₁' : Machine} {v v' : View} (hg' : Goes k m' st m₁' st₁)
      (h : Shows (program empty) size m₁ v) (h' : Shows (program empty) size' m₁' v')
      (ha : Abreast empty size size' o o' v v')

/-- **A run side by side**: wherever the first machine goes, the second one goes with it, until they
leave the outermost calls. -/
theorem Abreast.run {k : Nat} {m₁ : Machine} {st₁ : Store}
    (hroom : size + o'.below.length ≤ size' + o.below.length) (hg : Goes k m st m₁ st₁) :
    ∀ {m' : Machine} {v v' : View}, Shows (program empty) size m v →
      Shows (program empty) size' m' v' → Abreast empty size size' o o' v v' →
      Accompanied empty size size' o o' k m st m₁ st₁ m' := by
  induction hg with
  | refl => exact fun h h' ha => .on .refl h h' ha
  | @head k m m₂ m₁ st st₂ st₁ hf hs hg ih =>
    intro m' v v' h h' ha
    have hf' : m'.finished = false := h'.running
    have hstep := ha.step hroom h h' st
    rw [hs] at hstep
    generalize hs' : Machine.step m' st = out at hstep
    cases hstep with
    | on h₂ h₂' ha₂ =>
      cases ih h₂ h₂' ha₂ with
      | returned hi hi' hj hr hr' => exact .returned (.head hf hs hi) (.head hf' hs' hi') hj hr hr'
      | stopped hk hx ht hx' ht' => exact .stopped (.head hf' hs' hk) hx ht hx' ht'
      | on hk h₁ h₁' ha₁ => exact .on (.head hf' hs' hk) h₁ h₁' ha₁
    | returned hr hr' => exact .returned (.head hf hs .refl) (.head hf' hs' .refl) hg hr hr'
    | stopped hx ht hx' ht' =>
      cases hg with
      | refl => exact .stopped (.head hf' hs' .refl) hx ht hx' ht'
      | head hrun =>
        rw [hx] at hrun
        cases hrun

end Evaluator

end LispEngines.Machine
