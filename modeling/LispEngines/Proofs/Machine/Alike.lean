import LispEngines.Proofs.Machine.Boundary
import LispEngines.Proofs.Machine.Known

/-!
# Instructions in frames that agree

Two machines with the same store are in calls that are to be compared.  What they know of their
frames is equal, and so is what they know of the frames between them and the calls that are compared;
where those return to is another matter, and so is how the stacks go on from there.  An instruction
that reads what is known only does the same in both.

* `Mirrors`: two machines do something side by side, and the first one may be at fault.
* `Suspended`, `Alike`: the frames of the two machines, from the compared calls to the innermost.
* `mirrors_execute`: an instruction in such frames.

The second machine must have as much room on its stack as the first one at least.
-/

namespace LispEngines.Machine

variable {α β : Type} {size size' pc base : Nat} {p : Program} {m m' : Machine} {st : Store}
  {v v' w w' : View} {ks : List Bool}

/-! ## Steps that agree -/

/-- What comes of two machines side by side: the same value, or the same failure, and the same
store.  What a fault of the first machine has to do with the second one is left open. -/
inductive Mirrored (p : Program) (size size' : Nat) (Q : α → View → View → Prop) :
    (Except Failure α × Machine) × Store → (Except Failure α × Machine) × Store → Prop
  | ok {x : α} {m m' : Machine} {st : Store} {v v' : View} (h : Shows p size m v)
      (h' : Shows p size' m' v') (hq : Q x v v') :
      Mirrored p size size' Q ((.ok x, m), st) ((.ok x, m'), st)
  | error {e : Failure} {m m' : Machine} {st : Store} :
      Mirrored p size size' Q ((.error e, m), st) ((.error e, m'), st)
  | fault {f : Fault} {m : Machine} {st : Store} {out : (Except Failure α × Machine) × Store} :
      Mirrored p size size' Q ((.error (.fault f), m), st) out

/-- The machines do something side by side. -/
abbrev Mirrors (p : Program) (size size' : Nat) (st : Store) (Q : α → View → View → Prop)
    (x : Step Machine α) (m m' : Machine) : Prop :=
  Mirrored p size size' Q (x m st) (x m' st)

namespace Mirrors

variable {Q : α → View → View → Prop} {R : β → View → View → Prop} {x : Step Machine α}
  {k : α → Step Machine β}

theorem bind (h : Mirrors p size size' st Q x m m')
    (hk : ∀ {a : α} {w w' : View} {m₁ m₁' : Machine} {st₁ : Store}, Shows p size m₁ w →
      Shows p size' m₁' w' → Q a w w' → Mirrors p size size' st₁ R (k a) m₁ m₁') :
    Mirrors p size size' st R (x >>= k) m m' := by
  unfold Mirrors at h ⊢
  rw [Step.bind_apply, Step.bind_apply]
  generalize x m st = out at h ⊢
  generalize x m' st = out' at h ⊢
  cases h with
  | ok h h' hq => exact hk h h' hq
  | error => exact .error
  | fault => exact .fault

theorem imp {Q' : α → View → View → Prop} (h : Mirrors p size size' st Q x m m')
    (hQ : ∀ a w w', Q a w w' → Q' a w w') : Mirrors p size size' st Q' x m m' := by
  unfold Mirrors at h ⊢
  generalize x m st = out at h ⊢
  generalize x m' st = out' at h ⊢
  cases h with
  | ok h h' hq => exact .ok h h' (hQ _ _ _ hq)
  | error => exact .error
  | fault => exact .fault

theorem act (a : Action α) (h : Shows p size m v) (h' : Shows p size' m' v') :
    Mirrors p size size' st (fun _ w w' => w = v ∧ w' = v') (Step.act a) m m' := by
  unfold Mirrors
  rw [Step.act_apply, Step.act_apply]
  rcases a st with ⟨e | x, st'⟩
  · exact .error
  · exact .ok h h' ⟨rfl, rfl⟩

end Mirrors

/-! ## Frames that agree -/

open Evaluator (Block called returned)

/-- Where a call returns to: a code position, how far the frame is from the top there, and what is
below the scope and the expression of the call. -/
structure Return where
  pc : Nat
  base : Nat
  below : List Value

/-- A frame with this link and this position leads there. -/
def Return.Leads (size : Nat) (link back : Value) (q : Return) : Prop :=
  View.restore size link back (q.below.length + 2) = some (q.pc, q.base + 2)

/-- Two calls that agree in the frames between them and a pair of calls, the outermost ones, which
return to `o` and `o'`. -/
inductive Suspended (size size' : Nat) (o o' : Return) : Return → Return → Prop
  | outermost : Suspended size size' o o' o o'
  | within {b : Block} {ks : List Bool} {top top' : List Value} {link back link' back' s x : Value}
      {q q' : Return} (h : Suspended size size' o o' q q') (hq : q.Leads size link back)
      (hq' : q'.Leads size' link' back') (hb : b.known? = some (true :: true :: ks))
      (ht : Agree ks top top') :
      Suspended size size' o o'
        ⟨b.start, ks.length, top ++ link :: back :: s :: x :: q.below⟩
        ⟨b.start, ks.length, top' ++ link' :: back' :: s :: x :: q'.below⟩

/-- Two machines in frames that agree where they are known. -/
inductive Alike (size size' : Nat) (o o' : Return) (pc : Nat) (ks : List Bool) : View → View → Prop
  | mk {top top' : List Value} {link back link' back' s x a : Value} {q q' : Return}
      (h : Suspended size size' o o' q q') (hq : q.Leads size link back)
      (hq' : q'.Leads size' link' back') (ht : Agree ks top top') :
      Alike size size' o o' pc ks
        ⟨pc, ks.length, top ++ link :: back :: s :: x :: q.below, a⟩
        ⟨pc, ks.length, top' ++ link' :: back' :: s :: x :: q'.below, a⟩

variable {o o' q q' : Return}

/-- The second machine keeps as much room as it has outside the outermost calls. -/
theorem Suspended.room (h : Suspended size size' o o' q q')
    (hroom : size + o'.below.length ≤ size' + o.below.length) :
    size + q'.below.length ≤ size' + q.below.length := by
  induction h with
  | outermost => exact hroom
  | within _ _ _ _ ht ih =>
    obtain ⟨hl, hl'⟩ := ht.lengths
    simp only [List.length_append, List.length_cons]
    omega

namespace Alike

theorem pc_eq (h : Alike size size' o o' pc ks v v') : v.pc = pc ∧ v'.pc = pc := by
  cases h
  exact ⟨rfl, rfl⟩

theorem base_eq (h : Alike size size' o o' pc ks v v') : v.base = ks.length ∧ v'.base = ks.length := by
  cases h
  exact ⟨rfl, rfl⟩

theorem a_eq (h : Alike size size' o o' pc ks v v') : v'.a = v.a := by
  cases h
  rfl

theorem setA (h : Alike size size' o o' pc ks v v') (x : Value) :
    Alike size size' o o' pc ks { v with a := x } { v' with a := x } := by
  cases h with
  | mk h hq hq' ht => exact .mk h hq hq' ht

theorem withPc (h : Alike size size' o o' pc ks v v') (i : Nat) :
    Alike size size' o o' i ks { v with pc := i } { v' with pc := i } := by
  cases h with
  | mk h hq hq' ht => exact .mk h hq hq' ht

/-- Less may be known. -/
theorem of_covers (h : Alike size size' o o' pc ks v v') {asked : List Bool}
    (hc : covers asked ks = true) : Alike size size' o o' pc asked v v' := by
  cases h with
  | mk h hq hq' ht =>
    have ht' := ht.of_covers hc
    rw [← ht.lengths.1, ht'.lengths.1]
    exact .mk h hq hq' ht'

/-- The slots of the frame, its link and what it was called with included. -/
theorem agree (h : Alike size size' o o' pc ks v v') : ∃ top top' below below',
    v.cells = top ++ below ∧ v'.cells = top' ++ below' ∧ Agree (ks ++ frameKnown) top top' := by
  cases h with
  | @mk top top' link back link' back' s x a q q' h hq hq' ht =>
    refine ⟨top ++ [link, back, s, x], top' ++ [link', back', s, x], q.below, q'.below, ?_, ?_, ?_⟩
    · simp
    · simp
    · clear h hq hq'
      induction ht with
      | nil => exact .unknown _ _ (.unknown _ _ (.known _ (.known _ .nil)))
      | known v _ ih => exact .known v ih
      | unknown v w _ ih => exact .unknown v w ih

/-- What is known is the same. -/
theorem getElem? (h : Alike size size' o o' pc ks v v') {i : Nat}
    (hi : (ks ++ frameKnown)[i]? = some true) :
    ∃ x, v.cells[i]? = some x ∧ v'.cells[i]? = some x := by
  obtain ⟨top, top', below, below', hv, hv', ha⟩ := h.agree
  obtain ⟨x, hx, hx'⟩ := ha.getElem? hi
  refine ⟨x, ?_, ?_⟩
  · rw [hv, List.getElem?_append_left (List.getElem?_eq_some_iff.mp hx).1, hx]
  · rw [hv', List.getElem?_append_left (List.getElem?_eq_some_iff.mp hx').1, hx']

theorem length_le (h : Alike size size' o o' pc ks v v') :
    ks.length + 4 ≤ v.cells.length ∧ ks.length + 4 ≤ v'.cells.length := by
  cases h with
  | mk h hq hq' ht =>
    obtain ⟨hl, hl'⟩ := ht.lengths
    simp only [List.length_append, List.length_cons]
    omega

/-- The second machine keeps as much room as it has outside the outermost calls. -/
theorem room (h : Alike size size' o o' pc ks v v')
    (hroom : size + o'.below.length ≤ size' + o.below.length) :
    size + v'.cells.length ≤ size' + v.cells.length := by
  cases h with
  | mk h hq hq' ht =>
    obtain ⟨hl, hl'⟩ := ht.lengths
    have hr := h.room hroom
    simp only [List.length_append, List.length_cons]
    omega

/-- A slot of the frame is written. -/
theorem set (h : Alike size size' o o' pc ks v v') {i : Nat} (hi : i < ks.length) (x : Value) :
    Alike size size' o o' pc (ks.set i true) { v with cells := v.cells.set i x }
      { v' with cells := v'.cells.set i x } := by
  cases h with
  | mk h hq hq' ht =>
    obtain ⟨hl, hl'⟩ := ht.lengths
    have hks : ks.length = (ks.set i true).length := List.length_set.symm
    rw [List.set_append_left _ _ (by omega), List.set_append_left _ _ (by omega), hks]
    exact .mk h hq hq' (ht.set x i)

/-- The scope or the expression of the call is written. -/
theorem setArgument (h : Alike size size' o o' pc ks v v') {i : Nat}
    (hi : i = ks.length + 2 ∨ i = ks.length + 3) (x : Value) :
    Alike size size' o o' pc ks { v with cells := v.cells.set i x }
      { v' with cells := v'.cells.set i x } := by
  cases h with
  | mk h hq hq' ht =>
    obtain ⟨hl, hl'⟩ := ht.lengths
    rw [List.set_append_right _ _ (by omega), List.set_append_right _ _ (by omega), hl, hl']
    rcases hi with rfl | rfl
    · rw [Nat.add_sub_cancel_left]
      exact .mk h hq hq' ht
    · rw [Nat.add_sub_cancel_left]
      exact .mk h hq hq' ht

theorem drop (h : Alike size size' o o' pc ks v v') {k : Nat} (hk : k ≤ ks.length) :
    Alike size size' o o' pc (ks.drop k) { v with base := v.base - k, cells := v.cells.drop k }
      { v' with base := v'.base - k, cells := v'.cells.drop k } := by
  cases h with
  | mk h hq hq' ht =>
    obtain ⟨hl, hl'⟩ := ht.lengths
    rw [List.drop_append_of_le_length (by omega), List.drop_append_of_le_length (by omega),
      ← List.length_drop]
    exact .mk h hq hq' (ht.drop k)

theorem push (h : Alike size size' o o' pc ks v v') (x : Value) :
    Alike size size' o o' pc (true :: ks) (v.push x) (v'.push x) := by
  cases h with
  | mk h hq hq' ht =>
    have ht' := ht.known x
    exact .mk h hq hq' ht'

/-- A known value on top is taken off. -/
theorem pop (h : Alike size size' o o' pc (true :: ks) v v') :
    ∃ x w w', v.pop = some (x, w) ∧ v'.pop = some (x, w') ∧ Alike size size' o o' pc ks w w' := by
  cases h with
  | mk h hq hq' ht =>
    cases ht with
    | known x ht => exact ⟨x, _, _, rfl, rfl, .mk h hq hq' ht⟩

/-- A known value on top is replaced. -/
theorem setTop (h : Alike size size' o o' pc (true :: ks) v v') : ∃ x rest rest',
    v.cells = x :: rest ∧ v'.cells = x :: rest' ∧ ∀ y, Alike size size' o o' pc (true :: ks)
      { v with cells := y :: rest } { v' with cells := y :: rest' } := by
  cases h with
  | mk h hq hq' ht =>
    cases ht with
    | known x ht => exact ⟨x, _, _, rfl, rfl, fun y => .mk h hq hq' (.known y ht)⟩

end Alike

/-! ## What the machines do in such frames -/

/-- The machines are left in frames that agree. -/
abbrev Stays (size size' : Nat) (o o' : Return) (pc : Nat) (ks : List Bool) : α → View → View → Prop :=
  fun _ => Alike size size' o o' pc ks

section

variable (hm : Shows p size m v) (hm' : Shows p size' m' v')

include hm hm'

theorem mirrors_setA (x : Value) (h : Alike size size' o o' pc ks v v') :
    Mirrors p size size' st (Stays size size' o o' pc ks) (setA x) m m' :=
  .ok (hm.setA x) (hm'.setA x) (h.setA x)

/-- Both machines work on the accumulator. -/
theorem mirrors_acted {a : Action α} {f : α → Value} (h : Alike size size' o o' pc ks v v') :
    Mirrors p size size' st (Stays size size' o o' pc ks) (Step.act a >>= fun x => setA (f x)) m m' :=
  (Mirrors.act a hm hm').bind fun {_ _ _ _ _ _} hm₁ hm₁' hw => by
    obtain ⟨rfl, rfl⟩ := hw
    exact mirrors_setA hm₁ hm₁' _ h

theorem mirrors_pop (h : Alike size size' o o' pc (true :: ks) v v') :
    Mirrors p size size' st (Stays size size' o o' pc ks) pop m m' := by
  obtain ⟨x, w, w', hw, hw', hs⟩ := h.pop
  obtain ⟨m₁, hx, hm₁⟩ := hm.pop st hw
  obtain ⟨m₁', hx', hm₁'⟩ := hm'.pop st hw'
  rw [Mirrors, hx, hx']
  exact .ok hm₁ hm₁' hs

theorem mirrors_top (h : Alike size size' o o' pc (true :: ks) v v') :
    Mirrors p size size' st (Stays size size' o o' pc (true :: ks)) top m m' := by
  obtain ⟨x, rest, rest', hc, hc', -⟩ := h.setTop
  rw [Mirrors, hm.top (by rw [hc]; rfl), hm'.top (by rw [hc']; rfl)]
  exact .ok hm hm' h

theorem mirrors_setTop (y : Value) (h : Alike size size' o o' pc (true :: ks) v v') :
    Mirrors p size size' st (Stays size size' o o' pc (true :: ks)) (setTop y) m m' := by
  obtain ⟨x, rest, rest', hc, hc', hy⟩ := h.setTop
  obtain ⟨m₁, hx, hm₁⟩ : ∃ m₁, setTop y m st = ((.ok (), m₁), st) ∧ _ := hm.setTop hc y
  obtain ⟨m₁', hx', hm₁'⟩ : ∃ m₁', setTop y m' st = ((.ok (), m₁'), st) ∧ _ := hm'.setTop hc' y
  rw [Mirrors, hx, hx']
  exact .ok hm₁ hm₁' (hy y)

theorem mirrors_scopeOf (op : String) (x : Value) (h : Alike size size' o o' pc ks v v') :
    Mirrors p size size' st (Stays size size' o o' pc ks) (scopeOf op x) m m' := by
  rw [Mirrors, scopeOf]
  rcases x.scope? with _ | s
  · exact .error
  · exact .ok hm hm' h

theorem mirrors_push (hroom : size + v'.cells.length ≤ size' + v.cells.length) (x : Value)
    (h : Alike size size' o o' pc ks v v') :
    Mirrors p size size' st (Stays size size' o o' pc (true :: ks)) (push x) m m' := by
  obtain ⟨m₁, hx, hm₁⟩ | ⟨hx, -⟩ := hm.push st x
  · obtain ⟨m₁', hx', hm₁'⟩ | ⟨-, hl⟩ := hm'.push st x
    · rw [Mirrors, hx, hx']
      exact .ok hm₁ hm₁' (h.push x)
    · have hle := hm₁.length_le
      simp only [View.push, List.length_cons] at hl hle
      omega
  · rw [Mirrors, hx]
    exact .fault

/-- An instruction that does not fail for anything but want of room. -/
theorem mirrors_exec {op : Opcode} {n : Int64} {Q : Unit → View → View → Prop}
    (hroom : op.grows = true → size + w'.cells.length ≤ size' + w.cells.length)
    (he : v.exec p size op n st = some (.ok w, st)) (he' : v'.exec p size' op n st = some (.ok w', st))
    (h : Q () w w') : Mirrors p size size' st Q (execute op n) m m' := by
  have hx := hm.execute he
  have hx' := hm'.execute he'
  unfold Mirrors
  generalize execute op n m st = out at hx ⊢
  generalize execute op n m' st = out' at hx' ⊢
  cases hx with
  | overflow => exact .fault
  | ok hw =>
    cases hx' with
    | overflow ho hl =>
      have hle := hw.length_le
      have hr := hroom ho
      omega
    | ok hw' => exact .ok hw hw' h

/-- An instruction that neither fails nor needs room. -/
theorem mirrors_still {op : Opcode} {n : Int64} (hg : op.grows = false)
    (he : v.exec p size op n st = some (.ok w, st)) (he' : v'.exec p size' op n st = some (.ok w', st))
    (h : Alike size size' o o' pc ks w w') :
    Mirrors p size size' st (Stays size size' o o' pc ks) (execute op n) m m' :=
  mirrors_exec hm hm' (fun ho => absurd ho (by rw [hg]; nofun)) he he' h

theorem mirrors_load {n : Int64} {ks₁ : List Bool} (h : Alike size size' o o' pc ks v v')
    (ho : knownAfter? .load n ks = some ks₁) :
    Mirrors p size size' st (Stays size size' o o' pc ks₁) (execute .load n) m m' := by
  obtain ⟨i, hi, ho⟩ := Option.bind_eq_some_iff.mp ho
  obtain ⟨hb, hb'⟩ := h.base_eq
  split at ho
  case isTrue hk =>
    cases ho
    obtain ⟨x, hx, hx'⟩ := h.getElem? hk
    exact mirrors_still hm hm' rfl (by rw [View.exec, hb, hi]; simp [hx])
      (by rw [View.exec, hb', hi]; simp [hx']) (h.setA x)
  case isFalse => cases ho

theorem mirrors_store {n : Int64} {ks₁ : List Bool} (h : Alike size size' o o' pc ks v v')
    (ho : knownAfter? .store n ks = some ks₁) :
    Mirrors p size size' st (Stays size size' o o' pc ks₁) (execute .store n) m m' := by
  obtain ⟨i, hi, ho⟩ := Option.bind_eq_some_iff.mp ho
  obtain ⟨hb, hb'⟩ := h.base_eq
  obtain ⟨hl, hl'⟩ := h.length_le
  have hset (hlt : i < ks.length + 4)
      (hs : Alike size size' o o' pc ks₁ { v with cells := v.cells.set i v.a }
        { v' with cells := v'.cells.set i v.a }) :
      Mirrors p size size' st (Stays size size' o o' pc ks₁) (execute .store n) m m' :=
    mirrors_still hm hm' rfl
      (by rw [View.exec, hb, hi]; simp [show i < v.cells.length by omega])
      (by rw [View.exec, hb', hi]; simp [show i < v'.cells.length by omega, h.a_eq]) hs
  split at ho
  case isTrue hlt =>
    cases ho
    exact hset (by omega) (h.set hlt v.a)
  case isFalse =>
    split at ho
    case isTrue hi =>
      cases ho
      exact hset (by omega) (h.setArgument hi v.a)
    case isFalse => cases ho

theorem mirrors_adjust {n : Int64} {ks₁ : List Bool} (h : Alike size size' o o' pc ks v v')
    (ho : knownAfter? .adjust n ks = some ks₁) :
    Mirrors p size size' st (Stays size size' o o' pc ks₁) (execute .adjust n) m m' := by
  obtain ⟨k, hk, ho⟩ := Option.bind_eq_some_iff.mp ho
  obtain ⟨hb, hb'⟩ := h.base_eq
  split at ho
  case isTrue hle =>
    cases ho
    exact mirrors_still hm hm' rfl
      (by rw [View.exec, hk, Option.bind_some, if_pos (by omega)]; rfl)
      (by rw [View.exec, hk, Option.bind_some, if_pos (by omega)]; rfl) (h.drop hle)
  case isFalse => cases ho

/-- A comparison of a known value on top with the accumulator. -/
theorem mirrors_comparison (c : Comparison) (h : Alike size size' o o' pc (true :: ks) v v') :
    Mirrors p size size' st (Stays size size' o o' pc ks) (comparison c false) m m' := by
  refine (mirrors_pop hm hm' h).bind fun {x _ _ m₁ m₁' _} hm₁ hm₁' h₁ => ?_
  rw [Mirrors, Step.get_bind, Step.get_bind, hm₁.a, hm₁'.a, h₁.a_eq]
  exact mirrors_acted hm₁ hm₁' h₁

/-- Binding a known name in the known scope below it. -/
theorem mirrors_bound (f : ScopeRef → String → Value → Action Unit) (op : String)
    (h : Alike size size' o o' pc (true :: true :: ks) v v') :
    Mirrors p size size' st (Stays size size' o o' pc (true :: ks)) (do
      let key ← Step.act (Action.keyText (← Machine.pop))
      let s ← scopeOf op (← Machine.top)
      Step.act (f s key (← get).a) : Step Machine Unit) m m' := by
  refine (mirrors_pop hm hm' h).bind fun {x _ _ _ _ _} hm₁ hm₁' h₁ => ?_
  refine (Mirrors.act _ hm₁ hm₁').bind fun {key _ _ _ _ _} hm₂ hm₂' h₂ => ?_
  obtain ⟨rfl, rfl⟩ := h₂
  refine (mirrors_top hm₂ hm₂' h₁).bind fun {y _ _ _ _ _} hm₃ hm₃' h₃ => ?_
  refine (mirrors_scopeOf hm₃ hm₃' op y h₃).bind fun {s w w' m₄ m₄' st₄} hm₄ hm₄' h₄ => ?_
  rw [Mirrors, Step.get_bind, Step.get_bind, hm₄.a, hm₄'.a, h₄.a_eq]
  have ha : Mirrors p size size' st₄ _ (Step.act (f s key w.a)) m₄ m₄' := .act _ hm₄ hm₄'
  exact ha.imp fun _ _ _ hw => by
    obtain ⟨rfl, rfl⟩ := hw
    exact h₄

theorem mirrors_index (n : Int64) (h : Alike size size' o o' pc (true :: ks) v v') :
    Mirrors p size size' st (Stays size size' o o' pc (true :: ks)) (execute .index n) m m' := by
  rw [Mirrors, execute, Step.get_bind, Step.get_bind, hm.a, hm'.a, h.a_eq]
  refine (mirrors_top hm hm' h).bind fun {x _ _ m₁ m₁' st₁} hm₁ hm₁' h₁ => ?_
  rw [Mirrors, Step.getThe_store_bind, Step.getThe_store_bind]
  rcases (Opcode.position? v.a.toInt).bind (x.get? st₁) with _ | y
  · exact .error
  · exact mirrors_setA hm₁ hm₁' y h₁

theorem mirrors_setScope (n : Int64) (h : Alike size size' o o' pc (true :: ks) v v') :
    Mirrors p size size' st (Stays size size' o o' pc (true :: ks)) (execute .setScope n) m m' := by
  rw [Mirrors, execute, Step.get_bind, Step.get_bind, hm.a, hm'.a, h.a_eq]
  refine (mirrors_scopeOf hm hm' _ v.a h).bind fun {s _ _ _ _ _} hm₁ hm₁' h₁ => ?_
  refine (mirrors_top hm₁ hm₁' h₁).bind fun {x _ _ _ _ _} hm₂ hm₂' h₂ => ?_
  cases x with
  | lambda c => exact mirrors_setTop hm₂ hm₂' _ h₂
  | expander c => exact mirrors_setTop hm₂ hm₂' _ h₂
  | _ => exact .error

theorem mirrors_extend (n : Int64) (h : Alike size size' o o' pc (true :: ks) v v') :
    Mirrors p size size' st (Stays size size' o o' pc (true :: ks)) (execute .extend n) m m' := by
  refine (mirrors_top hm hm' h).bind fun {x w w' m₁ m₁' st₁} hm₁ hm₁' h₁ => ?_
  cases x with
  | list r =>
    show Mirrored p size size' _ ((.ok (), m₁), st₁.extend r m₁.a) ((.ok (), m₁'), st₁.extend r m₁'.a)
    rw [hm₁'.a, hm₁.a, h₁.a_eq]
    exact .ok hm₁ hm₁' h₁
  | _ => exact .error

theorem mirrors_convert (n : Int64) (h : Alike size size' o o' pc (true :: ks) v v') :
    Mirrors p size size' st (Stays size size' o o' pc (true :: ks)) (execute .convert n) m m' := by
  rw [Mirrors, execute, Step.get_bind, Step.get_bind, hm.a, hm'.a, h.a_eq]
  rcases Kind.ofCode? v.a.toInt with _ | wanted
  · exact .error
  · refine (mirrors_top hm hm' h).bind fun {x _ _ _ _ _} hm₁ hm₁' h₁ => ?_
    refine (Mirrors.act _ hm₁ hm₁').bind fun {y _ _ _ _ _} hm₂ hm₂' h₂ => ?_
    obtain ⟨rfl, rfl⟩ := h₂
    exact mirrors_setTop hm₂ hm₂' y h₁

theorem mirrors_invoke (callee : Value) (args : List Value) (scope : Value)
    (h : Alike size size' o o' pc ks v v') :
    Mirrors p size size' st (Stays size size' o o' pc ks) (invoke callee args scope) m m' := by
  have hact (x : Action Value) : Mirrors p size size' st (Stays size size' o o' pc ks) (Step.act x) m m' :=
    (Mirrors.act x hm hm').imp fun _ _ _ hw => by
      obtain ⟨rfl, rfl⟩ := hw
      exact h
  cases callee with
  | native q => exact hact (q.call args)
  | scopeNative q =>
    refine (mirrors_scopeOf hm hm' _ scope h).bind fun {s _ _ _ _ _} hm₁ hm₁' h₁ => ?_
    exact (Mirrors.act (q.call args s) hm₁ hm₁').imp fun _ _ _ hw => by
      obtain ⟨rfl, rfl⟩ := hw
      exact h₁
  | _ => exact .error

/-- **Instructions side by side**: if an instruction reads what is known only, two machines in frames
that agree carry it out alike. -/
theorem mirrors_execute {op : Opcode} {n : Int64} {ks₁ : List Bool}
    (hroom : size + o'.below.length ≤ size' + o.below.length)
    (h : Alike size size' o o' pc ks v v') (ho : knownAfter? op n ks = some ks₁) :
    Mirrors p size size' st (Stays size size' o o' pc ks₁) (execute op n) m m' := by
  have ha : m'.a = m.a := by rw [hm.a, hm'.a, h.a_eq]
  cases op with
  | load => exact mirrors_load hm hm' h ho
  | store => exact mirrors_store hm hm' h ho
  | adjust => exact mirrors_adjust hm hm' h ho
  | push =>
    cases ho
    rw [Mirrors, execute, Step.get_bind, Step.get_bind, ha]
    exact mirrors_push hm hm' (h.room hroom) _ h
  | data =>
    cases ho
    rcases hc : p.constant? n with _ | x
    · rw [Mirrors, execute, constant, Step.bind_apply, Step.get_bind, hm.program, hc]
      exact .fault
    · exact mirrors_still hm hm' rfl (by rw [View.exec, hc]; rfl) (by rw [View.exec, hc]; rfl)
        (h.setA x)
  | kind =>
    cases ho
    exact mirrors_still hm hm' rfl rfl (by rw [View.exec, h.a_eq]; rfl) (h.setA _)
  | count =>
    cases ho
    exact mirrors_still hm hm' rfl rfl (by rw [View.exec, h.a_eq]; rfl) (h.setA _)
  | new =>
    cases ho
    rw [Mirrors, execute, Step.get_bind, Step.get_bind, ha]
    exact mirrors_acted hm hm' h
  | less =>
    obtain rfl := popKnown_eq ho
    exact mirrors_comparison hm hm' .less h
  | lessEqual =>
    obtain rfl := popKnown_eq ho
    exact mirrors_comparison hm hm' .lessEqual h
  | equal =>
    obtain rfl := popKnown_eq ho
    obtain ⟨x, w, w', hw, hw', hs⟩ := h.pop
    exact mirrors_still hm hm' rfl (by rw [View.exec, hw]; rfl) (by rw [View.exec, hw', h.a_eq]; rfl)
      (hs.setA _)
  | pop =>
    obtain rfl := popKnown_eq ho
    obtain ⟨x, w, w', hw, hw', hs⟩ := h.pop
    exact mirrors_still hm hm' rfl (by rw [View.exec, hw]; rfl) (by rw [View.exec, hw']; rfl)
      (hs.setA x)
  | lookup =>
    obtain rfl := popKnown_eq ho
    refine (mirrors_pop hm hm' h).bind fun {key _ _ m₁ m₁' st₁} hm₁ hm₁' h₁ => ?_
    rw [Mirrors, Step.get_bind, Step.get_bind, hm₁.a, hm₁'.a, h₁.a_eq]
    exact (mirrors_scopeOf hm₁ hm₁' _ _ h₁).bind fun hm₂ hm₂' h₂ => mirrors_acted hm₂ hm₂' h₂
  | assign =>
    obtain ⟨ks, rfl, rfl⟩ := popKnown_bind_peekKnown_eq ho
    exact mirrors_bound hm hm' Action.assign _ h
  | define =>
    obtain ⟨ks, rfl, rfl⟩ := popKnown_bind_peekKnown_eq ho
    exact mirrors_bound hm hm' Action.define _ h
  | equalKeep =>
    obtain ⟨ks, rfl, rfl⟩ := peekKnown_eq ho
    obtain ⟨x, rest, rest', hc, hc', -⟩ := h.setTop
    exact mirrors_still hm hm' rfl (by rw [View.exec, hc]; rfl)
      (by rw [View.exec, hc', h.a_eq]; rfl) (h.setA _)
  | index =>
    obtain ⟨ks, rfl, rfl⟩ := peekKnown_eq ho
    exact mirrors_index hm hm' n h
  | setScope =>
    obtain ⟨ks, rfl, rfl⟩ := peekKnown_eq ho
    exact mirrors_setScope hm hm' n h
  | extend =>
    obtain ⟨ks, rfl, rfl⟩ := peekKnown_eq ho
    exact mirrors_extend hm hm' n h
  | convert =>
    obtain ⟨ks, rfl, rfl⟩ := peekKnown_eq ho
    exact mirrors_convert hm hm' n h
  | head =>
    obtain ⟨ks, rfl, rfl⟩ := peekKnown_eq ho
    exact (mirrors_top hm hm' h).bind fun hm₁ hm₁' h₁ => mirrors_acted hm₁ hm₁' h₁
  | tail =>
    obtain ⟨ks, rfl, rfl⟩ := peekKnown_eq ho
    exact (mirrors_top hm hm' h).bind fun hm₁ hm₁' h₁ => mirrors_acted hm₁ hm₁' h₁
  | invoke =>
    obtain rfl := popKnown_bind_eq ho
    refine (mirrors_pop hm hm' h).bind fun {args _ _ _ _ _} hm₁ hm₁' h₁ => ?_
    refine (mirrors_pop hm₁ hm₁' h₁).bind fun {scope w w' m₂ m₂' st₂} hm₂ hm₂' h₂ => ?_
    rw [Mirrors, Step.get_bind, Step.get_bind, hm₂.a, hm₂'.a, h₂.a_eq]
    exact (mirrors_invoke hm₂ hm₂' _ (args.items st₂) scope h₂).bind fun hm₃ hm₃' h₃ =>
      mirrors_setA hm₃ hm₃' _ h₃
  | newScope =>
    obtain rfl := popKnown_bind_eq ho
    refine (mirrors_pop hm hm' h).bind fun {values _ _ _ _ _} hm₁ hm₁' h₁ => ?_
    refine (mirrors_pop hm₁ hm₁' h₁).bind fun {keys w w' m₂ m₂' st₂} hm₂ hm₂' h₂ => ?_
    rw [Mirrors, Step.get_bind, Step.get_bind, hm₂.a, hm₂'.a, h₂.a_eq]
    exact (mirrors_scopeOf hm₂ hm₂' _ _ h₂).bind fun hm₃ hm₃' h₃ => mirrors_acted hm₃ hm₃' h₃
  | _ => cases ho

end

end LispEngines.Machine
