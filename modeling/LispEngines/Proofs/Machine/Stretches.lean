import LispEngines.Proofs.Machine.Evaluator
import LispEngines.Proofs.Store.Tidy

/-!
# What the stretches of the evaluator do

The procedure `eval` of the evaluator has a frame of eight slots, an `Activation`, and
between its calls it has at most two more values on the stack.  For each stretch of the code,
or for a few of them in a row, it is said here what becomes of an activation.
-/

namespace LispEngines

/-- A part of a procedure stays while lists are kept. -/
theorem Store.KeepsLists.part? {st st' : Store} (h : st.KeepsLists st') {c : Closure} {i : Nat}
    {y : Value} (hy : c.part? st i = some y) : c.part? st' i = some y := by
  rw [Closure.part?] at hy ⊢
  rwa [h.items_of_ne_nil fun he => by rw [he] at hy; cases hy]

namespace Machine.Evaluator

open LispEngines.Action (Plain)

attribute [simp] Opcode.operandCount Opcode.position?

/-! ## What the instructions compare -/

@[simp] theorem same_kind (k k' : Kind) (st : Store) :
    Value.same (.number k.code) (.number k'.code) st = decide (k = k') := by
  cases k <;> cases k' <;> rfl

@[simp] theorem same_symbol_text (s t : String) (st : Store) :
    Value.same (.symbol s) (.text t) st = decide (s = t) := rfl

/-- No number is written as falsehood is. -/
theorem toString_ne_false (n : Int64) : toString n.toInt ≠ Value.falseName := by
  intro h
  have hm : 'f' ∈ n.toInt.repr.toList := by
    rw [← Int.toString_eq_repr, h]
    decide
  have hd (k : Nat) : 'f' ∉ k.repr.toList := fun hk => by
    rw [Nat.toList_repr] at hk
    exact absurd (Nat.isDigit_of_mem_toDigits (by decide) (by decide) hk) (by decide)
  rw [Int.repr_eq_if] at hm
  split at hm
  · exact hd _ hm
  · rw [String.toList_append] at hm
    rcases List.mem_append.mp hm with hm | hm
    · revert hm
      decide
    · exact hd _ hm

/-- The test for falsehood. -/
@[simp] theorem same_false (v : Value) (st : Store) :
    v.same (.ofBool false) st = !v.isTruthy := by
  cases v with
  | number n => exact decide_eq_false (toString_ne_false n)
  | symbol s => simp [Value.same, Value.ofBool, Value.atomText?, Value.isTruthy, bne, beq_eq_decide]
  | text s => simp [Value.same, Value.ofBool, Value.atomText?, Value.isTruthy, bne, beq_eq_decide]
  | _ => rfl

@[simp] theorem flag_beq_zero (b : Bool) : ((flag b).toInt == 0) = !b := by cases b <;> rfl

@[simp] theorem flag_bne_zero (b : Bool) : ((flag b).toInt != 0) = b := by cases b <;> rfl

@[simp] theorem map_ok {ε α β : Type} (g : α → β) (x : α) :
    Except.map g (.ok x : Except ε α) = .ok (g x) := rfl

@[simp] theorem map_error {ε α β : Type} (g : α → β) (e : ε) :
    Except.map g (.error e) = .error e := rfl

@[simp] theorem toInt_number (n : Int64) : (Value.number n).toInt = n := rfl

@[simp] theorem scope?_scope (s : ScopeRef) : (Value.scope s).scope? = some s := rfl

@[simp] theorem scope?_lambda (c : Closure) : (Value.lambda c).scope? = some c.scope := rfl

@[simp] theorem scope?_expander (c : Closure) : (Value.expander c).scope? = some c.scope := rfl

@[simp] theorem kind_symbol (s : String) : (Value.symbol s).kind = .symbol := rfl

@[simp] theorem kind_list (r : ListRef) : (Value.list r).kind = .list := rfl

@[simp] theorem keyText_symbol_bind {β : Type} (s : String) (g : String → Action β) :
    (Action.keyText (.symbol s) >>= g) = g s := by
  rw [Action.keyText_of_some rfl, pure_bind]

@[simp] theorem compare_number (op : Comparison) (m n : Int64) (st : Store) :
    Value.compare op (.number m) (.number n) st = (.ok (op.holds m n), st) := rfl

theorem toInt_count {n : Nat} (hn : n < 2 ^ 63) : (Int64.ofNat n).toInt = n :=
  Int64.toInt_ofNat_of_lt (by simpa using hn)

theorem less_count {n : Nat} (hn : n < 2 ^ 63) {k : Int64} (hk : 0 ≤ k.toInt) :
    Comparison.less.holds (Int64.ofNat n) k = decide (n < k.toNatClampNeg) := by
  rw [Comparison.holds]
  refine decide_eq_decide.mpr ?_
  rw [Int64.lt_iff_toInt_lt, toInt_count hn, Int64.toNatClampNeg]
  omega

theorem lessEqual_count {n : Nat} (hn : n < 2 ^ 63) {k : Int64} (hk : 0 ≤ k.toInt) :
    Comparison.lessEqual.holds (Int64.ofNat n) k = decide (n ≤ k.toNatClampNeg) := by
  rw [Comparison.holds]
  refine decide_eq_decide.mpr ?_
  rw [Int64.le_iff_toInt_le, toInt_count hn, Int64.toNatClampNeg]
  omega

theorem count_beq_zero {n : Nat} (hn : n < 2 ^ 63) : (Int64.ofNat n == 0) = decide (n = 0) := by
  rw [Bool.beq_eq_decide_eq]
  refine decide_eq_decide.mpr ⟨fun h => ?_, fun h => by rw [h]; rfl⟩
  have ht := congrArg Int64.toInt h
  rw [toInt_count hn] at ht
  exact Int.natCast_eq_zero.mp ht

theorem count_bne_zero {n : Nat} (hn : n < 2 ^ 63) : (Int64.ofNat n != 0) = decide (n ≠ 0) := by
  rw [bne, count_beq_zero hn, decide_not]

@[simp] theorem length_list (r : ListRef) (st : Store) :
    (Value.list r).length st = (st.items r).length := rfl

@[simp] theorem get?_list (r : ListRef) (st : Store) (i : Nat) :
    (Value.list r).get? st i = (st.items r)[i]? := rfl

/-! ## Activations -/

/-- The frame of a call of `eval`. -/
structure Activation where
  scratch : Value
  /-- The list of the forms still to come. -/
  forms : Value
  /-- The list of the arguments so far. -/
  args : Value
  callee : Value
  /-- The frame of the caller. -/
  link : Value
  /-- Where the caller goes on. -/
  back : Value
  scope : Value
  /-- The expression. -/
  x : Value

namespace Activation

variable (f : Activation)

/-- The slots of the frame, on top of what is below. -/
@[simp] def cells (below : List Value) : List Value :=
  f.scratch :: f.forms :: f.args :: f.callee :: f.link :: f.back :: f.scope :: f.x :: below

/-- At a stretch of the code, with some values more on top of the frame. -/
@[simp] def view (b : Block) (temps below : List Value) (a : Value) : View :=
  ⟨b.start, 4 + temps.length, temps ++ f.cells below, a⟩

/-- Leaving the call leads to this position, with the frame of the caller so far from the
top of what is below. -/
def Returns (size : Nat) (below : List Value) (pc base : Nat) : Prop :=
  View.restore size f.link f.back (below.length + 1 + 1) = some (pc, base + 2)

end Activation

/-- Where a call has come back with a value; its scope and its expression are still on top. -/
@[simp] def returned (pc base : Nat) (s x : Value) (below : List Value) (v : Value) : View :=
  ⟨pc, base + 2, s :: x :: below, v⟩

/-- Where a call has just been made, to go on at a position when it comes back. -/
@[simp] def called (pc base : Nat) (s x : Value) (below : List Value) : View :=
  ⟨Block.eval.start, base + 3, registerValue pc :: s :: x :: below, s⟩

/-- The setting is that of the evaluator; the stack has to be so high at least, and the
store is one to be kept. -/
structure Ready (E : Setting) (empty : ListRef) (height : Nat) (st : Store) : Prop where
  program : E.program = program empty
  room : height ≤ E.need
  kept : E.Kept st

section

variable {E : Setting} {empty : ListRef} {k pc base : Nat} {f : Activation}
  {temps below : List Value} {a : Value} {w : View} {st st' : Store} {b : Block}

theorem Ready.mono {k' : Nat} (h : Ready E empty k st) (hk : k' ≤ k) (hst : E.Kept st') :
    Ready E empty k' st' :=
  ⟨h.program, Nat.le_trans hk h.room, hst⟩

/-- Carrying out a stretch. -/
theorem comes_of_block (h : Ready E empty (below.length + k) st) (hn : b.room ≤ k)
    (ht : temps.length = b.temps) (hk' : E.Kept st')
    (hb : View.runBlock (program empty) E.size b.code (f.view b temps below a) st =
      some (.ok w, st')) :
    E.Comes (f.view b temps below a) st w st' := by
  have hroom := h.room
  have hl : (f.view b temps below a).cells.length = temps.length + (below.length + 8) := by simp
  have hp := peak_le_room b
  refine @Setting.comes_of_runBlock _ _ _ _ (b.code.head (by cases b <;> simp)) b.code.tail _
    ?_ ?_ ?_ h.kept hk' ?_
  · rw [List.cons_head_tail, h.program]
    exact codeAt empty b
  · rw [List.cons_head_tail]
    exact countP_writes_le b
  · rw [List.cons_head_tail]
    omega
  · rw [List.cons_head_tail, h.program]
    exact hb

theorem fails_of_block {op : Opcode} {e : Failure} (h : Ready E empty (below.length + k) st)
    (hn : b.room ≤ k) (ht : temps.length = b.temps) (hk' : E.Kept st')
    (hb : View.runBlock (program empty) E.size b.code (f.view b temps below a) st =
      some (.error (op, e), st')) :
    E.Fails (f.view b temps below a) st op e st' := by
  have hroom := h.room
  have hl : (f.view b temps below a).cells.length = temps.length + (below.length + 8) := by simp
  have hp := peak_le_room b
  refine Setting.fails_of_runBlock ?_ (countP_writes_le b) (by omega) h.kept hk' ?_
  · rw [h.program]
    exact codeAt empty b
  · rw [h.program]
    exact hb

variable {r : ListRef} {items : List Value}

/-! ## Telling expressions apart -/

theorem evalTop_symbol (h : Ready E empty (below.length + 10) st) {name : String}
    (hx : f.x = .symbol name) :
    E.Comes (f.view .evalTop [] below a) st
      (f.view .evalSymbol [.number Kind.symbol.code] below (flag true)) st :=
  comes_of_block h (by decide) rfl h.kept (by simp [hx])

theorem evalTop_list (h : Ready E empty (below.length + 10) st) (hx : f.x = .list r) :
    E.Comes (f.view .evalTop [] below a) st (f.view .evalList [] below (flag true)) st :=
  comes_of_block h (by decide) rfl h.kept (by simp [hx])

theorem evalTop_atom (h : Ready E empty (below.length + 10) st)
    (hr : f.Returns E.size below pc base) (hs : ∀ name, f.x ≠ .symbol name)
    (hl : ∀ r, f.x ≠ .list r) :
    E.Comes (f.view .evalTop [] below a) st (returned pc base f.scope f.x below f.x) st := by
  rw [Activation.Returns] at hr
  refine comes_of_block h (by decide) rfl h.kept ?_
  cases hx : f.x with
  | symbol name => exact absurd hx (hs name)
  | list r => exact absurd hx (hl r)
  | _ => simp [hx, hr, Value.kind]

theorem evalSymbol (h : Ready E empty (below.length + 10) st)
    (hr : f.Returns E.size below pc base) {name : String} {s : ScopeRef}
    (hx : f.x = .symbol name) (hs : f.scope = .scope s) :
    E.Performs (f.view .evalSymbol [.number Kind.symbol.code] below a) st .lookup
      (Action.lookup s name) (returned pc base f.scope f.x below) := by
  rw [Activation.Returns] at hr
  exact ⟨fun ha hk => comes_of_block h (by decide) rfl hk (by simp [hx, hs, ha, hr]),
    fun ha hk => fails_of_block h (by decide) rfl hk (by simp [hx, hs, ha])⟩

theorem evalList_nil (h : Ready E empty (below.length + 10) st)
    (hr : f.Returns E.size below pc base) (hx : f.x = .list r) (hi : st.items r = []) :
    E.Comes (f.view .evalList [] below a) st
      (returned pc base f.scope f.x below (.list empty)) st := by
  rw [Activation.Returns] at hr
  exact comes_of_block h (by decide) rfl h.kept (by simp [hx, hi, hr])

theorem evalList_cons (h : Ready E empty (below.length + 10) st) (hx : f.x = .list r)
    (hl : (st.items r).length < 2 ^ 63) (hi : st.items r ≠ []) :
    E.Comes (f.view .evalList [] below a) st
      (f.view .evalForm [] below (.number (Int64.ofNat (st.items r).length))) st :=
  comes_of_block h (by decide) rfl h.kept (by simp [hx, count_bne_zero hl, hi])

/-! ## Special forms -/

/-- Where the stretch for a special form begins. -/
@[simp] def formBlock : SpecialForm → Block
  | .quote => .formQuote
  | .branch => .formIf
  | .define => .formDefine
  | .assign => .formSet
  | .lambda => .formLambda
  | .expander => .formMacro
  | .sequence => .formBegin

/-- What is on top of the frame there; the last test drops the keyword. -/
@[simp] def formTemps : SpecialForm → List Value
  | .sequence => []
  | form => [.symbol form.keyword]

theorem evalForm_keyword (h : Ready E empty (below.length + 10) st) (hx : f.x = .list r)
    {form : SpecialForm} (hi : (st.items r)[0]? = some (.symbol form.keyword)) :
    E.Comes (f.view .evalForm [] below a) st
      ({ f with scratch := .symbol form.keyword }.view (formBlock form) (formTemps form) below
        (flag true)) st := by
  refine comes_of_block h (by decide) rfl h.kept ?_
  cases form <;> simp [hx, hi, SpecialForm.keyword, formBlock, formTemps]

/-- A list that is no special form is a call. -/
theorem evalForm_call (h : Ready E empty (below.length + 10) st) (hx : f.x = .list r)
    {head : Value} {operands : List Value} (hi : st.items r = head :: operands)
    (hf : SpecialForm.ofItems? (head :: operands) = none) :
    E.Comes (f.view .evalForm [] below a) st
      ({ f with scratch := head }.view .evalApply [] below (flag false)) st := by
  refine comes_of_block h (by decide) rfl h.kept ?_
  by_cases hk : head.kind = .symbol
  · obtain ⟨name, rfl⟩ : ∃ name, head = .symbol name := by
      cases head with
      | symbol name => exact ⟨name, rfl⟩
      | _ => cases hk
    have hn (form : SpecialForm) : name ≠ form.keyword := fun he => by
      have hk := SpecialForm.ofKeyword?_keyword form
      rw [← he, show SpecialForm.ofKeyword? name = none from hf] at hk
      cases hk
    have h₁ : name ≠ "quote" := hn .quote
    have h₂ : name ≠ "if" := hn .branch
    have h₃ : name ≠ "define" := hn .define
    have h₄ : name ≠ "set!" := hn .assign
    have h₅ : name ≠ "lambda" := hn .lambda
    have h₆ : name ≠ "macro" := hn .expander
    have h₇ : name ≠ "begin" := hn .sequence
    simp [hx, hi, h₁, h₂, h₃, h₄, h₅, h₆, h₇]
  · simp [hx, hi, hk]

/-- Where a special form is rejected that has too few operands. -/
@[simp] def rejection : SpecialForm → Block
  | .quote => .malformedQuote
  | .branch => .malformedIf
  | .define => .malformedDefine
  | .assign => .malformedSet
  | .lambda => .malformedLambda
  | .expander => .malformedMacro
  | .sequence => .formBegin

/-- How many elements a special form has at least. -/
def least : SpecialForm → Nat
  | .quote | .branch => 2
  | .define | .assign | .lambda | .expander => 3
  | .sequence => 1

theorem form_rejected (h : Ready E empty (below.length + 10) st) (hx : f.x = .list r)
    {form : SpecialForm} (hn : form ≠ .sequence) (hl : (st.items r).length < least form) :
    E.Comes (f.view (formBlock form) (formTemps form) below a) st
      (f.view (rejection form) [] below (flag true)) st := by
  have hs : (st.items r).length < 2 ^ 63 := by
    have : least form ≤ 3 := by cases form <;> decide
    omega
  cases form with
  | sequence => exact absurd rfl hn
  | _ =>
    simp only [formBlock, formTemps, rejection, least] at hl ⊢
    exact comes_of_block h (by decide) rfl h.kept (by simp [hx, less_count hs, hl])

theorem formQuote (h : Ready E empty (below.length + 10) st)
    (hr : f.Returns E.size below pc base) (hx : f.x = .list r)
    (hs : (st.items r).length < 2 ^ 63) {y : Value} (hy : (st.items r)[1]? = some y) :
    E.Comes (f.view .formQuote (formTemps .quote) below a) st
      (returned pc base f.scope f.x below y) st := by
  rw [Activation.Returns] at hr
  have hl : ¬ (st.items r).length < 2 := by
    have := (List.getElem?_eq_some_iff.mp hy).1
    omega
  exact comes_of_block h (by decide) rfl h.kept (by simp [hx, less_count hs, hl, hy, hr])

theorem formIf (h : Ready E empty (below.length + 20) st) (hx : f.x = .list r)
    (hs : (st.items r).length < 2 ^ 63) {y : Value} (hy : (st.items r)[1]? = some y) :
    E.Comes (f.view .formIf (formTemps .branch) below a) st
      (called Block.ifValue.start 4 f.scope y (f.cells below)) st := by
  have hl : ¬ (st.items r).length < 2 := by
    have := (List.getElem?_eq_some_iff.mp hy).1
    omega
  have h₁ : E.Comes (f.view .formIf (formTemps .branch) below a) st
      (f.view .ifTest [] below (flag false)) st :=
    comes_of_block h (by decide) rfl h.kept (by simp [hx, less_count hs, hl])
  have h₂ : E.Comes (f.view .ifTest [] below (flag false)) st
      (called Block.ifValue.start 4 f.scope y (f.cells below)) st :=
    comes_of_block h (by decide) rfl h.kept (by simp [hx, hy])
  exact h₁.trans h₂

/-- The test of a conditional has come out true. -/
theorem ifValue_true (h : Ready E empty (below.length + 20) st) (hx : f.x = .list r)
    (hs : (st.items r).length < 2 ^ 63) {s x v y : Value} (hv : v.isTruthy = true)
    (hy : (st.items r)[2]? = some y) :
    E.Comes (f.view .ifValue [s, x] below v) st ({ f with x := y }.view .evalTop [] below y) st := by
  have hl : ¬ (st.items r).length < 3 := by
    have := (List.getElem?_eq_some_iff.mp hy).1
    omega
  exact comes_of_block h (by decide) rfl h.kept (by simp [hx, hv, less_count hs, hl, hy])

theorem ifValue_rejected (h : Ready E empty (below.length + 20) st) (hx : f.x = .list r)
    {s x v : Value} (hv : v.isTruthy = true) (hl : (st.items r).length < 3) :
    E.Comes (f.view .ifValue [s, x] below v) st
      (f.view .malformedConseq [] below (flag true)) st := by
  have hs : (st.items r).length < 2 ^ 63 := by omega
  exact comes_of_block h (by decide) rfl h.kept (by simp [hx, hv, less_count hs, hl])

/-- The test of a conditional has come out false. -/
theorem ifValue_false (h : Ready E empty (below.length + 20) st) {s x v : Value}
    (hv : v.isTruthy = false) :
    E.Comes (f.view .ifValue [s, x] below v) st (f.view .ifAlt [] below (flag true)) st :=
  comes_of_block h (by decide) rfl h.kept (by simp [hv])

theorem ifAlt (h : Ready E empty (below.length + 10) st) (hx : f.x = .list r)
    (hs : (st.items r).length < 2 ^ 63) {y : Value} (hy : (st.items r)[3]? = some y) :
    E.Comes (f.view .ifAlt [] below a) st ({ f with x := y }.view .evalTop [] below y) st := by
  have hl : ¬ (st.items r).length < 4 := by
    have := (List.getElem?_eq_some_iff.mp hy).1
    omega
  exact comes_of_block h (by decide) rfl h.kept (by simp [hx, less_count hs, hl, hy])

/-- Without an alternative. -/
theorem ifAlt_none (h : Ready E empty (below.length + 10) st)
    (hr : f.Returns E.size below pc base) (hx : f.x = .list r) (hl : (st.items r).length < 4) :
    E.Comes (f.view .ifAlt [] below a) st (returned pc base f.scope f.x below (.list empty)) st := by
  rw [Activation.Returns] at hr
  have hs : (st.items r).length < 2 ^ 63 := by omega
  have h₁ : E.Comes (f.view .ifAlt [] below a) st (f.view .ifNil [] below (flag true)) st :=
    comes_of_block h (by decide) rfl h.kept (by simp [hx, less_count hs, hl])
  have h₂ : E.Comes (f.view .ifNil [] below (flag true)) st
      (returned pc base f.scope f.x below (.list empty)) st :=
    comes_of_block h (by decide) rfl h.kept (by simp [hr])
  exact h₁.trans h₂

/-- Where a definition or an assignment goes on with the value. -/
@[simp] def bindingValue : SpecialForm → Block
  | .assign => .setValue
  | _ => .defineValue

theorem formBinding (h : Ready E empty (below.length + 20) st) (hx : f.x = .list r)
    {form : SpecialForm} (hf : form = .define ∨ form = .assign)
    (hs : (st.items r).length < 2 ^ 63) (name : Value) {y : Value}
    (hn : (st.items r)[1]? = some name) (hy : (st.items r)[2]? = some y) :
    E.Comes (f.view (formBlock form) (formTemps form) below a) st
      (called (bindingValue form).start 6 f.scope y (name :: f.scope :: f.cells below)) st := by
  have hl : ¬ (st.items r).length < 3 := by
    have := (List.getElem?_eq_some_iff.mp hy).1
    omega
  rcases hf with rfl | rfl
  · have h₁ : E.Comes (f.view .formDefine (formTemps .define) below a) st
        (f.view .defineOperands [] below (flag false)) st :=
      comes_of_block h (by decide) rfl h.kept (by simp [hx, less_count hs, hl])
    exact h₁.trans (comes_of_block h (by decide) rfl h.kept (by simp [hx, hn, hy]))
  · have h₁ : E.Comes (f.view .formSet (formTemps .assign) below a) st
        (f.view .setOperands [] below (flag false)) st :=
      comes_of_block h (by decide) rfl h.kept (by simp [hx, less_count hs, hl])
    exact h₁.trans (comes_of_block h (by decide) rfl h.kept (by simp [hx, hn, hy]))

theorem defineValue (h : Ready E empty (below.length + 20) st)
    (hr : f.Returns E.size below pc base) {t x v name : Value} (s : ScopeRef) :
    E.Performs (f.view .defineValue [t, x, name, .scope s] below v) st .define
      (do Action.define s (← Action.keyText name) v) fun _ =>
        returned pc base f.scope f.x below v := by
  rw [Activation.Returns] at hr
  exact ⟨fun ha hk => comes_of_block h (by decide) rfl hk (by simp [ha, hr]),
    fun ha hk => fails_of_block h (by decide) rfl hk (by simp [ha])⟩

theorem setValue (h : Ready E empty (below.length + 20) st)
    (hr : f.Returns E.size below pc base) {t x v name : Value} (s : ScopeRef) :
    E.Performs (f.view .setValue [t, x, name, .scope s] below v) st .assign
      (do Action.assign s (← Action.keyText name) v) fun _ =>
        returned pc base f.scope f.x below v := by
  rw [Activation.Returns] at hr
  exact ⟨fun ha hk => comes_of_block h (by decide) rfl hk (by simp [ha, hr]),
    fun ha hk => fails_of_block h (by decide) rfl hk (by simp [ha])⟩

/-- A closure over a form. -/
@[simp] def closure : SpecialForm → Closure → Value
  | .expander, c => .expander c
  | _, c => .lambda c

theorem formClosing (h : Ready E empty (below.length + 10) st)
    (hr : f.Returns E.size below pc base) (hx : f.x = .list r) {s : ScopeRef}
    (hsc : f.scope = .scope s) {form : SpecialForm} (hf : form = .lambda ∨ form = .expander)
    (hs : (st.items r).length < 2 ^ 63) (hl : ¬ (st.items r).length < 3)
    (hk : E.Kept (st.newScope none).2) :
    E.Comes (f.view (formBlock form) (formTemps form) below a) st
      (returned pc base f.scope f.x below (closure form ⟨r, s⟩)) (st.newScope none).2 := by
  rw [Activation.Returns] at hr
  have hc : converted (.list r) .lambda st =
      (.ok (.lambda ⟨r, ⟨st.scopes.size⟩⟩), (st.newScope none).2) := rfl
  have hc' : converted (.list r) .expander st =
      (.ok (.expander ⟨r, ⟨st.scopes.size⟩⟩), (st.newScope none).2) := rfl
  rcases hf with rfl | rfl
  · exact comes_of_block h (by decide) rfl hk
      (by simp [hx, hsc, less_count hs, hl, hr, Kind.ofCode?_code, hc])
  · exact comes_of_block h (by decide) rfl hk
      (by simp [hx, hsc, less_count hs, hl, hr, Kind.ofCode?_code, hc'])

/-! ## Sequences -/

@[simp] theorem tail_list (r : ListRef) (st : Store) :
    (Value.list r).tail st =
      (.ok (.list ⟨st.lists.size⟩), (st.newList ((st.items r).drop 1)).2) := rfl

theorem head_list {y : Value} (hy : (st.items r)[0]? = some y) :
    (Value.list r).head st = (.ok y, st) := by
  have hg : (Value.list r).get? st 0 = some y := hy
  rw [Value.head, Action.bind_ok (Action.get_apply st), hg]
  rfl

theorem formBegin (h : Ready E empty (below.length + 10) st) (hx : f.x = .list r)
    (hk : E.Kept (st.newList ((st.items r).drop 1)).2) :
    E.Comes (f.view .formBegin (formTemps .sequence) below a) st
      ({ f with forms := .list ⟨st.lists.size⟩ }.view .beginLoop [] below (.list ⟨st.lists.size⟩))
      (st.newList ((st.items r).drop 1)).2 :=
  comes_of_block h (by decide) rfl hk (by simp [hx])

/-- There is more than one form still to come. -/
theorem beginLoop_next (h : Ready E empty (below.length + 20) st) (hf : f.forms = .list r)
    (hs : (st.items r).length < 2 ^ 63) (hl : ¬ (st.items r).length ≤ 1) {y : Value}
    (hy : (st.items r)[0]? = some y) :
    E.Comes (f.view .beginLoop [] below a) st
      (called Block.beginValue.start 4 f.scope y (f.cells below)) st := by
  have h₁ : E.Comes (f.view .beginLoop [] below a) st
      (f.view .beginNext [] below (flag false)) st :=
    comes_of_block h (by decide) rfl h.kept (by simp [hf, lessEqual_count hs, hl])
  exact h₁.trans (comes_of_block h (by decide) rfl h.kept (by simp [hf, head_list hy]))

/-- One form is still to come. -/
theorem beginLoop_last (h : Ready E empty (below.length + 10) st) (hf : f.forms = .list r)
    {y : Value} (hy : st.items r = [y]) :
    E.Comes (f.view .beginLoop [] below a) st ({ f with x := y }.view .evalTop [] below y) st := by
  have hl : (st.items r).length = 1 := by rw [hy]; rfl
  have h₁ : E.Comes (f.view .beginLoop [] below a) st
      (f.view .beginLast [] below (flag true)) st :=
    comes_of_block h (by decide) rfl h.kept (by simp [hf, hl, Comparison.holds])
  have hh : (Value.list r).head st = (.ok y, st) := head_list (by rw [hy]; rfl)
  have h₂ : E.Comes (f.view .beginLast [] below (flag true)) st
      ({ f with x := y }.view .evalTop [] below y) st :=
    comes_of_block h (by decide) rfl h.kept (by simp [hf, hl, hh])
  exact h₁.trans h₂

/-- No form is still to come. -/
theorem beginLoop_nil (h : Ready E empty (below.length + 10) st)
    (hr : f.Returns E.size below pc base) (hf : f.forms = .list r) (hi : st.items r = []) :
    E.Comes (f.view .beginLoop [] below a) st
      (returned pc base f.scope f.x below (.list empty)) st := by
  rw [Activation.Returns] at hr
  have h₁ : E.Comes (f.view .beginLoop [] below a) st
      (f.view .beginLast [] below (flag true)) st :=
    comes_of_block h (by decide) rfl h.kept (by simp [hf, hi, Comparison.holds])
  have h₂ : E.Comes (f.view .beginLast [] below (flag true)) st
      (f.view .beginEmpty [] below (.number 0)) st :=
    comes_of_block h (by decide) rfl h.kept (by simp [hf, hi])
  exact (h₁.trans h₂).trans (comes_of_block h (by decide) rfl h.kept (by simp [hr]))

theorem beginValue (h : Ready E empty (below.length + 20) st) (hf : f.forms = .list r)
    {s x v : Value} (hk : E.Kept (st.newList ((st.items r).drop 1)).2) :
    E.Comes (f.view .beginValue [s, x] below v) st
      ({ f with forms := .list ⟨st.lists.size⟩ }.view .beginLoop [] below (.list ⟨st.lists.size⟩))
      (st.newList ((st.items r).drop 1)).2 :=
  comes_of_block h (by decide) rfl hk (by simp [hf])

/-! ## Calls -/

theorem evalApply (h : Ready E empty (below.length + 20) st) :
    E.Comes (f.view .evalApply [] below a) st
      (called Block.operatorValue.start 4 f.scope f.scratch (f.cells below)) st :=
  comes_of_block h (by decide) rfl h.kept (by simp)

theorem operatorValue_expander (h : Ready E empty (below.length + 20) st) {s x : Value}
    (c : Closure) :
    E.Comes (f.view .operatorValue [s, x] below (.expander c)) st
      ({ f with callee := .expander c }.view .applyMacro [] below (flag true)) st :=
  comes_of_block h (by decide) rfl h.kept (by simp [Value.kind])

/-- The operator is no expander, so the operands are evaluated; the list of the arguments is
made first, and then that of the operands. -/
theorem operatorValue (h : Ready E empty (below.length + 20) st) (hx : f.x = .list r)
    {s x v : Value} (hv : ∀ c, v ≠ .expander c) (hk : E.Kept (st.newList []).2)
    (hk' : E.Kept ((st.newList []).2.newList (((st.newList []).2.items r).drop 1)).2) :
    E.Comes (f.view .operatorValue [s, x] below v) st
      ({ f with
        callee := v, args := .list ⟨st.lists.size⟩
        forms := .list ⟨st.lists.size + 1⟩ }.view .argsLoop [] below (.list ⟨st.lists.size + 1⟩))
      ((st.newList []).2.newList (((st.newList []).2.items r).drop 1)).2 := by
  have hn : v.kind ≠ .expander := by
    cases v with
    | expander c => exact absurd rfl (hv c)
    | _ => simp [Value.kind]
  have he : emptyValue (Kind.code .list) st = (.ok (.list ⟨st.lists.size⟩), (st.newList []).2) := rfl
  have h₁ : E.Comes (f.view .operatorValue [s, x] below v) st
      ({ f with callee := v }.view .argsInit [] below (flag false)) st :=
    comes_of_block h (by decide) rfl h.kept (by simp [hn])
  have h₂ : E.Comes ({ f with callee := v }.view .argsInit [] below (flag false)) st
      ({ f with callee := v, args := .list ⟨st.lists.size⟩ }.view .argsForms [] below
        (.list ⟨st.lists.size⟩)) (st.newList []).2 :=
    comes_of_block h (by decide) rfl hk (by simp [he])
  have h₃ := h.mono (Nat.le_refl _) hk
  refine (h₁.trans h₂).trans (comes_of_block h₃ (by decide) rfl hk' ?_)
  simp [hx]

theorem argsLoop_next (h : Ready E empty (below.length + 20) st) (hf : f.forms = .list r)
    (hs : (st.items r).length < 2 ^ 63) {y : Value} (hy : (st.items r)[0]? = some y) :
    E.Comes (f.view .argsLoop [] below a) st
      (called Block.operandValue.start 4 f.scope y (f.cells below)) st := by
  have hl : (st.items r).length ≠ 0 := by
    have := (List.getElem?_eq_some_iff.mp hy).1
    omega
  have h₁ : E.Comes (f.view .argsLoop [] below a) st
      (f.view .argsNext [] below (.number (Int64.ofNat (st.items r).length))) st :=
    comes_of_block h (by decide) rfl h.kept (by simp [hf, count_beq_zero hs, hl])
  exact h₁.trans (comes_of_block h (by decide) rfl h.kept (by simp [hf, head_list hy]))

theorem argsLoop_nil (h : Ready E empty (below.length + 10) st) (hf : f.forms = .list r)
    (hi : st.items r = []) :
    E.Comes (f.view .argsLoop [] below a) st (f.view .argsDone [] below (.number 0)) st :=
  comes_of_block h (by decide) rfl h.kept (by simp [hf, hi])

/-- The value of an operand is put at the end of the arguments. -/
theorem operandValue (h : Ready E empty (below.length + 20) st) {q : ListRef}
    (ha : f.args = .list q) (hf : f.forms = .list r) {s x v : Value} (hk : E.Kept (st.extend q v))
    (hk' : E.Kept ((st.extend q v).newList (((st.extend q v).items r).drop 1)).2) :
    E.Comes (f.view .operandValue [s, x] below v) st
      ({ f with scratch := v, forms := .list ⟨st.lists.size⟩ }.view .argsLoop [] below
        (.list ⟨st.lists.size⟩))
      ((st.extend q v).newList (((st.extend q v).items r).drop 1)).2 := by
  have h₁ : E.Comes (f.view .operandValue [s, x] below v) st
      ({ f with scratch := v }.view .nextOperand [] below v) (st.extend q v) :=
    comes_of_block h (by decide) rfl hk (by simp [ha])
  have h₂ := h.mono (Nat.le_refl _) hk
  refine h₁.trans (comes_of_block h₂ (by decide) rfl hk' ?_)
  simp [hf]

theorem argsDone_lambda (h : Ready E empty (below.length + 10) st) {c : Closure}
    (hc : f.callee = .lambda c) :
    E.Comes (f.view .argsDone [] below a) st (f.view .applyLambda [] below (flag true)) st :=
  comes_of_block h (by decide) rfl h.kept (by simp [hc, Value.kind])

/-- Calling what is no closure. -/
theorem argsDone (h : Ready E empty (below.length + 10) st)
    (hr : f.Returns E.size below pc base) {q : ListRef} (ha : f.args = .list q)
    (hn : ∀ c, f.callee ≠ .lambda c) {x : Action Value}
    (hc : View.invoked f.callee (st.items q) f.scope = some x) :
    E.Performs (f.view .argsDone [] below a) st .invoke x (returned pc base f.scope f.x below) := by
  rw [Activation.Returns] at hr
  have hk : f.callee.kind ≠ .lambda := by
    cases hf : f.callee with
    | lambda c => exact absurd hf (hn c)
    | _ => simp [Value.kind]
  have hi : (Value.list q).items st = st.items q := rfl
  exact ⟨fun ha' hk' => comes_of_block h (by decide) rfl hk' (by simp [ha, hk, hi, hc, ha', hr]),
    fun ha' hk' => fails_of_block h (by decide) rfl hk' (by simp [ha, hk, hi, hc, ha'])⟩

/-- Calling a closure: its body is evaluated in the scope of the call, in place of the call. -/
theorem applyLambda (h : Ready E empty (below.length + 10) st) {c : Closure} {q : ListRef}
    (hc : f.callee = .lambda c) (ha : f.args = .list q) {params body : Value}
    (hp : c.part? st 1 = some params) (hb : c.part? st 2 = some body) :
    E.Performs (f.view .applyLambda [] below a) st .newScope
      (Action.bindParameters params (st.items q) c.scope) fun t =>
        { f with scope := .scope t, x := body }.view .evalTop [] below body := by
  have hi : (Value.list q).items st = st.items q := rfl
  have hp' : (Value.lambda c).get? st 1 = some params := hp
  refine ⟨fun {t st'} ht hk => ?_, fun ht hk => ?_⟩
  · have hb' : (Value.lambda c).get? st' 2 = some body := by
      have hl := (Plain.bindParameters params (st.items q) c.scope).keepsLists st
      rw [ht] at hl
      exact hl.part? hb
    exact comes_of_block h (by decide) rfl hk (by simp [hc, ha, hi, hp', ht, hb'])
  · exact fails_of_block h (by decide) rfl hk (by simp [hc, ha, hi, hp', ht])

/-- Calling an expander: it gets its operands as they stand. -/
theorem applyMacro (h : Ready E empty (below.length + 10) st) {c : Closure}
    (hc : f.callee = .expander c) (hx : f.x = .list r) {params : Value}
    (hp : c.part? st 1 = some params) (hk : E.Kept (st.newList ((st.items r).drop 1)).2) :
    E.Comes (f.view .applyMacro [] below a) st
      (f.view .expand [.list ⟨st.lists.size⟩, params] below (.list ⟨st.lists.size⟩))
      (st.newList ((st.items r).drop 1)).2 := by
  have hp' : (Value.expander c).get? st 1 = some params := hp
  exact comes_of_block h (by decide) rfl hk (by simp [hc, hx, hp'])

/-- The body of an expander is evaluated in the scope of the call. -/
theorem expand (h : Ready E empty (below.length + 20) st) {c : Closure} {q : ListRef}
    (hc : f.callee = .expander c) (params : Value) {body : Value}
    (hb : c.part? st 2 = some body) :
    E.Performs (f.view .expand [.list q, params] below a) st .newScope
      (Action.bindParameters params (st.items q) c.scope) fun t =>
        called Block.expansionValue.start 4 (.scope t) body
          ({ f with scratch := .scope t }.cells below) := by
  have hi : (Value.list q).items st = st.items q := rfl
  refine ⟨fun {t st'} ht hk => ?_, fun ht hk => ?_⟩
  · have hb' : (Value.expander c).get? st' 2 = some body := by
      have hl := (Plain.bindParameters params (st.items q) c.scope).keepsLists st
      rw [ht] at hl
      exact hl.part? hb
    have h₁ : E.Comes (f.view .expand [.list q, params] below a) st
        (f.view .expandBody [] below (.scope t)) st' :=
      comes_of_block h (by decide) rfl hk (by simp [hc, hi, ht])
    have h₂ := h.mono (Nat.le_refl _) hk
    exact h₁.trans (comes_of_block h₂ (by decide) rfl hk (by simp [hc, hb']))
  · exact fails_of_block h (by decide) rfl hk (by simp [hc, hi, ht])

/-- The expansion is evaluated in place of the call. -/
theorem expansionValue (h : Ready E empty (below.length + 10) st) {s x v : Value} :
    E.Comes (f.view .expansionValue [s, x] below v) st ({ f with x := v }.view .evalTop [] below v)
      st :=
  comes_of_block h (by decide) rfl h.kept (by simp)

end

end Machine.Evaluator

end LispEngines
