import LispEngines.Proofs.Machine.Evaluator

/-!
# What the evaluator reads of its frame

A call finds in the slots of its frame whatever was left there.  The evaluator does no harm with
that, for it reads a slot only after it has written to it.  This is a property of its code, and it
is checked here as a loader checks byte code: for every stretch it is said which slots are *known*
where the stretch begins, and from there the check goes from instruction to instruction, up to the
jumps, which have to lead to stretches that ask for no more than is known.

* `Agree`: two lists of slots that are equal where they are known.
* `knownAfter?`: what is known after an instruction that reads known slots only.
* `Block.known?`: what is known where a stretch begins.
* `flows_code`: the evaluator passes the check.
-/

namespace LispEngines

/-- The slots are equal where they are known. -/
inductive Agree : List Bool → List Value → List Value → Prop
  | nil : Agree [] [] []
  | known {ks : List Bool} {vs ws : List Value} (v : Value) (h : Agree ks vs ws) :
      Agree (true :: ks) (v :: vs) (v :: ws)
  | unknown {ks : List Bool} {vs ws : List Value} (v w : Value) (h : Agree ks vs ws) :
      Agree (false :: ks) (v :: vs) (w :: ws)

/-- Whether everything is known that is asked for. -/
def covers : (asked known : List Bool) → Bool
  | [], [] => true
  | b :: asked, k :: known => (!b || k) && covers asked known
  | _, _ => false

namespace Agree

variable {ks ks' : List Bool} {vs ws vs' ws' : List Value}

theorem lengths (h : Agree ks vs ws) : vs.length = ks.length ∧ ws.length = ks.length := by
  induction h with
  | nil => exact ⟨rfl, rfl⟩
  | known _ _ ih | unknown _ _ _ ih => simp [ih]

theorem getElem? (h : Agree ks vs ws) :
    ∀ {i : Nat}, ks[i]? = some true → ∃ v, vs[i]? = some v ∧ ws[i]? = some v := by
  induction h with
  | nil => exact fun hi => by cases hi
  | known v _ ih =>
    rintro (_ | i) hi
    · exact ⟨v, rfl, rfl⟩
    · exact ih hi
  | unknown _ _ _ ih =>
    rintro (_ | i) hi
    · cases hi
    · exact ih hi

/-- A slot is known once it has been written. -/
theorem set (h : Agree ks vs ws) (x : Value) :
    ∀ i : Nat, Agree (ks.set i true) (vs.set i x) (ws.set i x) := by
  induction h with
  | nil => exact fun _ => .nil
  | known v h ih =>
    rintro (_ | i)
    · exact .known x h
    · exact .known v (ih i)
  | unknown v w h ih =>
    rintro (_ | i)
    · exact .known x h
    · exact .unknown v w (ih i)

theorem drop (h : Agree ks vs ws) : ∀ n : Nat, Agree (ks.drop n) (vs.drop n) (ws.drop n) := by
  induction h with
  | nil => exact fun _ => by simpa using nil
  | known v h ih =>
    rintro (_ | n)
    · exact .known v h
    · exact ih n
  | unknown v w h ih =>
    rintro (_ | n)
    · exact .unknown v w h
    · exact ih n

/-- Less may be known. -/
theorem of_covers (h : Agree ks vs ws) : ∀ {asked : List Bool}, covers asked ks = true →
    Agree asked vs ws := by
  induction h with
  | nil =>
    rintro (_ | _) hc
    · exact .nil
    · cases hc
  | known v _ ih =>
    rintro (_ | ⟨_ | _, asked⟩) hc
    · cases hc
    · exact .unknown v v (ih (by simpa [covers] using hc))
    · exact .known v (ih (by simpa [covers] using hc))
  | unknown v w _ ih =>
    rintro (_ | ⟨_ | _, asked⟩) hc
    · cases hc
    · exact .unknown v w (ih (by simpa [covers] using hc))
    · cases hc

/-- Slots of which nothing is known. -/
theorem of_length (h : vs.length = ws.length) : Agree (List.replicate vs.length false) vs ws := by
  induction vs generalizing ws with
  | nil =>
    obtain rfl := List.length_eq_zero_iff.mp h.symm
    exact .nil
  | cons v vs ih =>
    obtain _ | ⟨w, ws⟩ := ws
    · cases h
    · exact .unknown v w (ih (Nat.succ.inj h))

end Agree

namespace Machine

/-- What is known of the slots of a frame around its own: of the link and the position to return to
nothing, and the scope and the expression. -/
def frameKnown : List Bool := [false, false, true, true]

/-- What remains known when a known slot is taken off. -/
def popKnown : List Bool → Option (List Bool)
  | true :: ks => some ks
  | _ => none

/-- What remains known when a known slot on top is looked at. -/
def peekKnown (ks : List Bool) : Option (List Bool) := (popKnown ks).map fun _ => ks

theorem popKnown_eq {ks ks₁ : List Bool} (h : popKnown ks = some ks₁) : ks = true :: ks₁ := by
  obtain _ | ⟨_ | _, ks⟩ := ks <;> cases h
  rfl

theorem popKnown_bind_eq {ks ks₁ : List Bool} (h : (popKnown ks).bind popKnown = some ks₁) :
    ks = true :: true :: ks₁ := by
  obtain ⟨ks₂, hk, hk'⟩ := Option.bind_eq_some_iff.mp h
  rw [popKnown_eq hk, popKnown_eq hk']

theorem peekKnown_eq {ks ks₁ : List Bool} (h : peekKnown ks = some ks₁) :
    ∃ ks₂, ks = true :: ks₂ ∧ ks₁ = true :: ks₂ := by
  obtain ⟨ks₂, hk, rfl⟩ := Option.map_eq_some_iff.mp h
  exact ⟨ks₂, popKnown_eq hk, popKnown_eq hk⟩

theorem popKnown_bind_peekKnown_eq {ks ks₁ : List Bool}
    (h : (popKnown ks).bind peekKnown = some ks₁) :
    ∃ ks₂, ks = true :: true :: ks₂ ∧ ks₁ = true :: ks₂ := by
  obtain ⟨ks₂, hk, hk'⟩ := Option.bind_eq_some_iff.mp h
  obtain ⟨ks₃, rfl, rfl⟩ := peekKnown_eq hk'
  exact ⟨ks₃, popKnown_eq hk, rfl⟩

/-- What is known after an instruction that neither jumps nor calls nor returns, if it reads known
slots only and leaves the link and the position to return to alone. -/
def knownAfter? (op : Opcode) (n : Int64) (ks : List Bool) : Option (List Bool) :=
  match op with
  | .load => (View.place ks.length n).bind fun i =>
      if (ks ++ frameKnown)[i]? = some true then some ks else none
  | .store => (View.place ks.length n).bind fun i =>
      if i < ks.length then some (ks.set i true)
      else if i = ks.length + 2 ∨ i = ks.length + 3 then some ks else none
  | .adjust => (View.place 0 n).bind fun k => if k ≤ ks.length then some (ks.drop k) else none
  | .push => some (true :: ks)
  | .data | .kind | .count | .new => some ks
  | .less | .lessEqual | .equal | .lookup | .pop => popKnown ks
  | .assign | .define => (popKnown ks).bind peekKnown
  | .equalKeep | .index | .setScope | .extend | .convert | .head | .tail => peekKnown ks
  | .invoke | .newScope => (popKnown ks).bind popKnown
  | _ => none

namespace Evaluator

/-- The slots of its own that a stretch asks for, from the top of the frame on: scratch, the forms
still to come, the arguments so far and the operator. -/
def Block.locals : Block → List Bool
  | .beginLoop | .beginNext | .beginValue | .beginLast | .beginEmpty => [false, true, false, false]
  | .evalApply => [true, false, false, false]
  | .argsInit | .applyMacro | .expand | .expandBody => [false, false, false, true]
  | .argsForms | .applyLambda => [false, false, true, true]
  | .argsLoop | .argsNext | .operandValue | .nextOperand | .argsDone => [false, true, true, true]
  | _ => [false, false, false, false]

/-- What is known where a stretch of `eval` begins; the values on top of its frame are. -/
def Block.known? : Block → Option (List Bool)
  | .main | .mainValue | .eval => none
  | b => some (List.replicate b.temps true ++ b.locals)

/-- The stretch may be come to with so much known. -/
def Block.admits (b : Block) (ks : List Bool) : Bool := b.known?.any (covers · ks)

/-- The stretch is one to come back to, with the scope and the expression of the call on top. -/
def Block.resumes (b : Block) : Bool := b.known?.any fun ks => ks.take 2 == [true, true]

/-- The check of instructions at a code position, so much being known. -/
def flows : (pc : Nat) → List Instruction → List Bool → Bool
  | pc, [], ks => (Block.all.find? (·.start == pc)).any (·.admits ks)
  | pc, i :: is, ks =>
    match i.op with
    | .leave | .halt => true
    | .jump => (Block.all.find? (·.word == i.operand)).any (·.admits ks)
    | .jumpZero | .jumpNonzero =>
      (Block.all.find? (·.word == i.operand)).any (·.admits ks) && flows (pc + i.size) is ks
    | .call =>
      i.operand == Block.eval.word &&
        (Block.all.find? (·.start == pc + i.size)).any fun b => b.admits ks && b.resumes
    | op => (knownAfter? op i.operand ks).any (flows (pc + i.size) is)

/-- The evaluator reads what is known only. -/
theorem flows_code {b : Block} {ks : List Bool} (h : b.known? = some ks) :
    flows b.start b.code ks = true := by
  have hall : (Block.all.all fun b => b.known?.all (flows b.start b.code)) = true := by
    decide +kernel
  have hb : b ∈ Block.all := by cases b <;> decide
  have hk := List.all_eq_true.mp hall b hb
  rw [h] at hk
  exact hk

end Evaluator

end Machine

end LispEngines
