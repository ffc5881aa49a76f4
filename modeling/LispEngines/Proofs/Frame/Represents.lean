import LispEngines.Proofs.Course.Recursion
import LispEngines.Proofs.Frame.Stack

/-!
# Stacks of frames represent courses

The stack of frames of the resumable engine and the course of an evaluation go together:
each waiting frame is a level, and the top frame is about to do what the course does
next.  A turn of the stack either brings its top frame nearer to the next step of the
course, or takes that step (`FrameStack.turn_represents`).

The two part only at a list that is `begin` and nothing else.
-/

namespace LispEngines

open Classic (Pending Next)
open LispEngines.Frame (Flow Handler Waits Performs)

namespace Frame

variable {st st' : Store} {f : Frame} {rank : Nat} {out : Except Failure Next × Store}

theorem items_keep {x : Value} (h : st.KeepsLists st') (hx : x.items st ≠ []) :
    x.items st' = x.items st := by
  rw [Value.items] at hx ⊢
  rw [Value.items]
  cases hl : x.list? with
  | none => rfl
  | some r =>
    rw [hl] at hx
    exact h.items_of_ne_nil hx

/-- A waiting frame does not care how the store grows. -/
theorem Waits.mono {p : Pending} (h : st.KeepsLists st') (hp : Waits st f p) : Waits st' f p := by
  cases hp with
  | sequence hs hb => exact .sequence hs hb
  | branch hs hi =>
    have hi' := items_keep h hi
    rw [← hi'] at hi ⊢
    exact .branch hs hi
  | bind hs hf hn =>
    have hi : f.expr.items st ≠ [] := by
      intro hi
      rw [hi] at hn
      cases hn
    rw [← items_keep h hi] at hf hn
    exact .bind hs hf hn
  | operator hs hi =>
    rw [← items_keep h (by rw [hi]; exact List.cons_ne_nil _ _)] at hi
    exact .operator hs hi
  | operand hs hc he => exact .operand hs hc he
  | expansion hs => exact .expansion hs

/-- Nor does it matter what the frame has been marked with. -/
theorem Waits.marked {p : Pending} (hp : Waits st f p) (wait : Wait) (incoming : Option Value)
    (steps : Nat) : Waits st { f with wait, incoming, steps } p := by
  cases hp with
  | sequence hs hb => exact .sequence (f := { f with wait, incoming, steps }) hs hb
  | branch hs hi => exact .branch (f := { f with wait, incoming, steps }) hs hi
  | bind hs hf hn => exact .bind (f := { f with wait, incoming, steps }) hs hf hn
  | operator hs hi => exact .operator (f := { f with wait, incoming, steps }) hs hi
  | operand hs hc he => exact .operand (f := { f with wait, incoming, steps }) hs hc he
  | expansion hs => exact .expansion (f := { f with wait, incoming, steps }) hs

theorem Performs.counted (h : Performs st f rank out) (steps : Nat) :
    Performs st { f with steps } rank out := by
  cases h with
  | enter hs hw hb => exact .enter (f := { f with steps }) hs hw hb
  | builtin hs hw hx hi hb => exact .builtin (f := { f with steps }) hs hw hx hi hb
  | sequence hs hw hb => exact .sequence (f := { f with steps }) hs hw hb
  | operator hs hw hi => exact .operator (f := { f with steps }) hs hw hi
  | operands hs hw hc he => exact .operands (f := { f with steps }) hs hw hc he
  | apply hs hw hc he => exact .apply (f := { f with steps }) hs hw hc he
  | expand hs hw hc => exact .expand (f := { f with steps }) hs hw hc
  | resume hw hv hp =>
    exact .resume (f := { f with steps }) hw hv (hp.marked f.wait f.incoming steps)

theorem Performs.stage_ne_done (h : Performs st f rank out) : f.stage ≠ .done := by
  cases h with
  | resume hw hv hp => cases hp <;> simp [*]
  | _ => simp [*]

theorem Performs.rank_le (h : Performs st f rank out) : rank ≤ 2 := by
  cases h <;> decide

end Frame

namespace FrameStack

open Course (follow)

/-- The waiting frames do what the levels do. -/
def Below (st : Store) (frames : List Frame) (levels : List Level) : Prop :=
  List.Forall₂ (fun f l => f.scope = l.scope ∧ Waits st f l.pending) frames levels

theorem Below.mono {st st' : Store} {frames : List Frame} {levels : List Level}
    (h : st.KeepsLists st') (hb : Below st frames levels) : Below st' frames levels :=
  List.Forall₂.imp (fun _ _ hf => ⟨hf.1, hf.2.mono h⟩) hb

/-- The stack is at the course.  The number bounds the handlers that run before the one that
takes the next step. -/
inductive Represents (m : FrameStack) (st : Store) : Nat → Course → Prop
  | working {rank : Nat} {c : Course} {levels : List Level} {out : Except Failure Next × Store}
      (hv : c.value? = none)
      (hs : c.step .beforeValue st = (out.1.map (follow m.top.scope levels), out.2))
      (hp : Performs st m.top rank out) (hb : Below st m.below levels) : Represents m st rank c
  | ended {v : Value} (hb : m.below = []) (hs : m.top.stage = .done) (hw : m.top.wait = .ready)
      (hr : m.top.result = some v) : Represents m st 0 ⟨.value v, []⟩

variable {m m' : FrameStack} {st st' : Store} {rank : Nat} {c c' : Course}

theorem Represents.rank_le (h : Represents m st rank c) : rank ≤ 2 := by
  cases h with
  | working _ _ hp _ => exact hp.rank_le
  | ended => exact Nat.zero_le 2

/-- A stack that is done has the value of the course for its result. -/
theorem Represents.of_isDone (h : Represents m st rank c) (hd : m.isDone = true) :
    ∃ v, c = ⟨.value v, []⟩ ∧ m.top.result = some v := by
  cases h with
  | @ended v hb hs hw hr => exact ⟨v, rfl, hr⟩
  | working hv hs hp hb =>
    exact absurd (by simpa [Frame.isDone] using (Bool.and_eq_true_iff.mp hd).2) hp.stage_ne_done

/-- The new stack represents an evaluation in the scope that it was started for. -/
theorem start_represents (x : Value) (s : ScopeRef) (st : Store)
    (h : ¬ (Course.start x s).AtBareSequence st) : (start x s).Represents st 2 (.start x s) := by
  refine .working rfl (Course.step_eval x s [] st) (.enter rfl rfl fun r hx hr => ?_) .nil
  exact h ⟨r, s, congrArg (Control.eval · s) hx, hr⟩

/-- What a turn of the stack does for the course. -/
inductive Advances (m : FrameStack) (c : Course) (st : Store) (rank : Nat) :
    (Except Failure Unit × FrameStack) × Store → Prop
  | fails {e : Failure} {m' : FrameStack} {st' : Store}
      (h : c.step .beforeValue st = (.error e, st')) : Advances m c st rank ((.error e, m'), st')
  | nears {rank' : Nat} {m' : FrameStack} (hr : rank' < rank) (hd : m'.depth = m.depth)
      (h : m'.Represents st rank' c) : Advances m c st rank ((.ok (), m'), st)
  | steps {c' : Course} {m' : FrameStack} {st' : Store}
      (h : c.step .beforeValue st = (.ok c', st')) (hd : c'.depth = max m.depth m'.depth)
      (hr : ¬ c'.AtBareSequence st' → ∃ rank', m'.Represents st' rank' c') :
      Advances m c st rank ((.ok (), m'), st')

/-- A turn of a stack follows the course. -/
theorem turn_advances (h : Represents m st rank c) (hm : ¬ m.Halted) :
    c.value? = none ∧ Advances m c st rank (turn m st) := by
  cases h with
  | ended hb hs hw hr =>
    exact absurd ⟨by simp [isDone, hb, Frame.isDone, hs], hw⟩ hm
  | @working _ _ levels out hv hs hp hb =>
  refine ⟨hv, ?_⟩
  obtain ⟨top, below, depth, count, most, hd⟩ := m
  have hlen : depth = levels.length + 1 := hd.trans (congrArg (· + 1) hb.length_eq)
  have hdo := Frame.dispatch_does (hp.counted (top.steps + 1))
  rcases hx : Handler.dispatch { top with steps := top.steps + 1 } st with ⟨⟨r, f⟩, st₁⟩
  have ht : dispatchTop ⟨top, below, depth, count, most, hd⟩ st =
      ((r, ⟨f, below, depth, count + 1, most, hd⟩), st₁) := by
    simp only [dispatchTop, hx]
  rw [hx] at hdo
  cases hdo with
  | fails hout =>
    subst hout
    rw [turn_error ht]
    exact .fails hs
  | nears hf hsc hr hp' =>
    have hs' : c.step .beforeValue st = (out.1.map (follow f.scope levels), out.2) := by
      rw [hs, hsc]
    rw [turn_ok ht]
    rcases hf with rfl | rfl
    · exact .nears hr rfl (.working hv hs' hp' hb)
    · exact .nears hr rfl (.working hv hs' hp' hb)
  | carries hout hc =>
    subst hout
    have hk : st.KeepsLists st₁ := by
      have hk := (Course.plain_step .beforeValue c).keepsLists st
      rwa [hs] at hk
    rw [turn_ok ht]
    cases hc with
    | @value _ v hst hw hr =>
      have hdv (m' : FrameStack) (hd' : m'.depth ≤ depth) :
          (follow top.scope levels (.value v)).depth = max depth m'.depth := by
        rw [Nat.max_eq_left hd', hlen]
        rfl
      cases hb with
      | nil => exact .steps hs (hdv _ (Nat.le_refl _)) fun _ => ⟨_, .ended rfl hst hw hr⟩
      | @cons parent level below levels hl hb =>
        obtain ⟨p, s⟩ := level
        obtain ⟨rfl, hp⟩ := hl
        exact .steps hs (hdv _ (Nat.sub_le _ _)) fun _ => ⟨_, .working rfl
          (Course.step_value p _ _ levels st₁)
          (.resume rfl hr ((hp.mono hk).marked .ended f.result parent.steps)) (Below.mono hk hb)⟩
    | @tail _ x t hst hw hx hsc =>
      subst hx hsc
      refine .steps hs ((Nat.max_self depth).symm ▸ hlen.symm) fun hn => ⟨_, .working rfl
        (Course.step_eval _ _ levels st₁) (.enter hst hw fun r hr hi => ?_) (Below.mono hk hb)⟩
      exact hn ⟨r, f.scope, congrArg (Control.eval · _) hr, hi⟩
    | @nested _ x t p hsc hw =>
      have hdn : (follow top.scope levels (.nested x t p)).depth = max depth (depth + 1) := by
        rw [Nat.max_eq_right (Nat.le_succ depth), hlen]
        rfl
      refine .steps hs hdn fun hn => ⟨_, .working rfl (Course.step_eval x t _ st₁)
        (.enter rfl rfl fun r hr hi => ?_)
        (.cons ⟨hsc, hw.marked .running f.incoming f.steps⟩ (Below.mono hk hb))⟩
      exact hn ⟨r, t, congrArg (Control.eval · t) hr, hi⟩

/-! ## How many frames there are -/

/-- The greatest number of frames changes with the number of frames. -/
theorem turn_maxDepth (h : turn m st = ((.ok (), m'), st')) :
    m.maxDepth ≤ m'.maxDepth ∧ m'.depth ≤ max m.depth m'.maxDepth ∧
      m'.maxDepth ≤ max m.maxDepth m'.depth := by
  rcases hd : dispatchTop m st with ⟨⟨e | flow, m₁⟩, st₁⟩
  · rw [turn_error hd] at h
    cases h
  rw [turn_ok hd] at h
  cases h
  have hmax := maxDepth_of_dispatchTop hd
  have hdepth : m₁.depth = m.depth := by
    rw [m₁.depth_eq, m.depth_eq, below_of_dispatchTop hd]
  have hpop : m₁.pop.depth ≤ m₁.depth := by
    obtain ⟨top, _ | ⟨parent, below⟩, depth, steps, most, hd⟩ := m₁
    · exact Nat.le_refl _
    · exact Nat.sub_le _ _
  cases flow with
  | again | stay => simp only [after]; omega
  | done =>
    rw [after, maxDepth_pop]
    omega
  | spawn x s =>
    have h₁ : (m₁.push x s).maxDepth = max m₁.maxDepth (m₁.depth + 1) := rfl
    have h₂ : (m₁.push x s).depth = m₁.depth + 1 := rfl
    rw [after, h₁, h₂]
    omega

theorem maxDepth_of_turn_error {e : Failure} (h : turn m st = ((.error e, m'), st')) :
    m'.maxDepth = m.maxDepth := by
  rcases hd : dispatchTop m st with ⟨⟨e' | flow, m₁⟩, st₁⟩
  · rw [turn_error hd] at h
    cases h
    exact maxDepth_of_dispatchTop hd
  · rw [turn_ok hd] at h
    cases h

theorem Turns.maxDepth_le {k : Nat} (h : Turns k m st m' st') : m.maxDepth ≤ m'.maxDepth := by
  induction h with
  | refl => exact Nat.le_refl _
  | head _ h _ ih => exact Nat.le_trans (turn_maxDepth h).1 ih

/-- Several turns of a stack follow the course, which is never deeper than the stack gets. -/
theorem turns_represent {k bound : Nat} (ht : Turns k m st m' st') :
    ∀ {c : Course} {rank : Nat}, Represents m st rank c → m.depth ≤ bound →
      m'.maxDepth ≤ bound → c.depth ≤ bound → c.SparesBareSequence .beforeValue bound st →
      ∃ i c' rank', Course.Leads .beforeValue bound i c st c' st' ∧
        Represents m' st' rank' c' ∧ m'.depth ≤ bound ∧ rank' + k ≤ rank + 3 * i := by
  induction ht with
  | @refl m st =>
    intro c rank h hd _ hc _
    exact ⟨0, c, rank, .refl hc, h, hd, Nat.le_refl _⟩
  | @head k m m₁ m₂ st st₁ st₂ hm h hr ih =>
    intro c rank hrep hd hmax hc hn
    have hd₁ : m₁.depth ≤ bound := by
      have := (turn_maxDepth h).2.1
      have := hr.maxDepth_le
      omega
    obtain ⟨hv, ha⟩ := turn_advances hrep hm
    rw [h] at ha
    cases ha with
    | nears hlt _ hrep' =>
      obtain ⟨i, c₂, rank₂, hl, hr₂, hd₂, hle⟩ := ih hrep' hd₁ hmax hc hn
      exact ⟨i, c₂, rank₂, hl, hr₂, hd₂, by omega⟩
    | @steps c₁ _ _ hs hdc hrep' =>
      have hc₁ : c₁.depth ≤ bound := by omega
      have h₁ : Course.Leads .beforeValue bound 1 c st c₁ st₁ := .head hc hv hs (.refl hc₁)
      obtain ⟨rank₁, hrep₁⟩ := hrep' (hn _ _ _ h₁)
      obtain ⟨i, c₂, rank₂, hl, hr₂, hd₂, hle⟩ := ih hrep₁ hd₁ hmax hc₁ (hn.leads h₁)
      have hrank := hrep₁.rank_le
      exact ⟨1 + i, c₂, rank₂, h₁.trans hl, hr₂, hd₂, by omega⟩

/-! ## Steps -/

/-- What a step of the stack does for the course, as long as this is not deeper than `bound`. -/
inductive Keeps (bound : Nat) (c : Course) (st : Store) (rank : Nat) :
    (Except Failure Unit × FrameStack) × Store → Prop
  | fails {i : Nat} {c₁ : Course} {e : Failure} {m' : FrameStack} {st₁ st' : Store}
      (hl : Course.Leads .beforeValue bound i c st c₁ st₁) (hv : c₁.value? = none)
      (h : c₁.step .beforeValue st₁ = (.error e, st')) (hm : m'.maxDepth ≤ bound) :
      Keeps bound c st rank ((.error e, m'), st')
  | goes {i rank' : Nat} {c' : Course} {m' : FrameStack} {st' : Store}
      (hl : Course.Leads .beforeValue bound i c st c' st') (hr : m'.Represents st' rank' c')
      (hd : m'.depth ≤ bound) (hm : m'.maxDepth ≤ bound) (hi : rank' < rank + 3 * i) :
      Keeps bound c st rank ((.ok (), m'), st')
  | outgrows {i : Nat} {m' : FrameStack} {st' : Store}
      (h : Course.Outgrows .beforeValue bound i c st st') (hd : m'.depth = bound + 1)
      (hm : bound < m'.maxDepth) : Keeps bound c st rank ((.ok (), m'), st')

/-- A step of a stack follows the course, and both get too deep at once. -/
theorem step_keeps {bound : Nat} (hdone : m.isDone = false) (hrep : Represents m st rank c)
    (hd : m.depth ≤ bound) (hmax : m.maxDepth ≤ bound) (hc : c.depth ≤ bound)
    (hn : c.SparesBareSequence .beforeValue bound st) : Keeps bound c st rank (step m st) := by
  have ht := step_turns st hdone
  rcases hs : step m st with ⟨⟨e | _, m'⟩, st'⟩ <;> rw [hs] at ht
  · cases ht with
    | error ht hm₁ hm hf =>
      obtain ⟨i, c₁, rank₁, hl, hr₁, hd₁, hle⟩ :=
        turns_represent ht hrep hd (hm₁ ▸ hmax) hc hn
      obtain ⟨hv, ha⟩ := turn_advances hr₁ hm
      rw [hf] at ha
      cases ha with
      | fails h => exact .fails hl hv h (by rw [maxDepth_of_turn_error hf, hm₁]; exact hmax)
  · cases ht with
    | ok ht hm₁ hm hf =>
      obtain ⟨i, c₁, rank₁, hl, hr₁, hd₁, hle⟩ :=
        turns_represent ht hrep hd (hm₁ ▸ hmax) hc hn
      obtain ⟨hv, ha⟩ := turn_advances hr₁ hm
      have hmd := turn_maxDepth hf
      rw [hf] at ha
      cases ha with
      | nears hlt hdm h => exact .goes hl h (by omega) (by omega) (by omega)
      | @steps c' _ _ h hdc h' =>
        have h₁ : c'.depth ≤ bound → Course.Leads .beforeValue bound (i + 1) c st c' st' :=
          fun hc' => hl.trans (.head hl.depth_le_last hv h (.refl hc'))
        by_cases hc' : c'.depth ≤ bound
        · obtain ⟨rank', hr'⟩ := h' (hn _ _ _ (h₁ hc'))
          have hrank := hr'.rank_le
          exact .goes (h₁ hc') hr' (by omega) (by omega) (by omega)
        · have hb := Course.step_depth_le h
          have hdl := hl.depth_le_last
          exact .outgrows (Course.Outgrows.prepend hl
            (.head hdl hv h (.here (by omega)))) (by omega) (by omega)

end FrameStack

end LispEngines
