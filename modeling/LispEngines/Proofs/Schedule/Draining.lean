import LispEngines.Proofs.Schedule.Turns
import Mathlib.Algebra.Order.BigOperators.Group.Finset
import Mathlib.Data.Int.Interval

/-!
# Running until no task is ready

`Scheduler.runUntilIdle` ticks until no task is ready.  While it does, tasks join the row: those
that are in the mailbox join with the first tick, and those that a hook posts with the tick after.

The run of turns that it takes ends because no task has more than finitely many turns and finitely
many tasks join.

* `Scene.Drainable.comes_to_rest`: why a run ends.
* `Scene.runUntilIdle_drains`: the loop ends, with what the run has done to the row.
* `Scene.Ending.drainable`: no task has more than finitely many turns if each ends by itself, after
  so many quanta of its own.
-/

namespace LispEngines

variable {σ : Type} {hooks : Hooks σ} {x y z : Scene σ} {u : Quantum} {log log' : List Quantum}

namespace Scene

/-! ## Why the loop ends -/

/-- What it takes for the loop to end. -/
structure Drainable (hooks : Hooks σ) (x : Scene σ) : Prop where
  /-- Whatever turns were taken, quanta and hooks come back. -/
  returns : ∀ {log : List Quantum} {y : Scene σ}, Turns hooks x log y →
    ∃ fuel, (Scheduler.tick fuel hooks y.roster.sch y.user y.store).isSome
  /-- A task ends or fails once it has had so many quanta. -/
  ends : ∀ n : TaskName, ∃ q, ∀ {log : List Quantum} {y z : Scene σ} {u : Quantum},
    Turns hooks x log y → Turn hooks y u z → u.name = n →
    q ≤ (log.map Quantum.name).count n → u.report?.isSome
  /-- Only so many tasks ever join the row. -/
  joins : ∃ k, ∀ {log : List Quantum} {y : Scene σ}, Turns hooks x log y → y.roster.next ≤ k

/-- A task has only so many quanta. -/
theorem Drainable.count_le (hm : x.roster.Sound) (hd : Drainable hooks x) (n : TaskName) :
    ∃ q, ∀ log y, Turns hooks x log y → (log.map Quantum.name).count n ≤ q := by
  obtain ⟨q, hq⟩ := hd.ends n
  have hout : ∀ log y, Turns hooks x log y → (log.map Quantum.name).count n ≤ q + 1 ∧
      ((log.map Quantum.name).count n = q + 1 → Roster.Out y.roster n) := by
    intro log
    induction log using List.reverseRecOn with
    | nil => exact fun y _ => ⟨Nat.zero_le _, fun h => absurd h (Nat.succ_ne_zero q).symm⟩
    | append_singleton log u ih =>
      intro z h
      obtain ⟨y, hlog, hu⟩ := h.of_append
      obtain ⟨hle, hout⟩ := ih y hlog
      obtain ⟨ht⟩ : Nonempty (Turn hooks y u z) := by
        cases hu with
        | cons ht hnil =>
          cases hnil
          exact ⟨ht⟩
      rw [List.map_append, List.count_append, List.map_singleton, List.count_singleton]
      by_cases hn : u.name = n
      · have hlt : (log.map Quantum.name).count n ≠ q + 1 := by
          intro heq
          subst hn
          exact ((hout heq).step ht.step.2).2 rfl
        rw [if_pos (by simpa using hn)]
        refine ⟨by omega, fun heq => ?_⟩
        obtain ⟨report, hreport⟩ := Option.isSome_iff_exists.mp (hq hlog ht hn (by omega))
        have htold : u.told? = some (u.name, report.label) := by
          rw [Quantum.told?, hreport, Option.map_some]
        exact hn ▸ ht.out (hlog.sound hm) htold
      · rw [if_neg (by simpa using hn)]
        exact ⟨hle, fun heq => ((hout heq).step ht.step.2).1⟩
  exact ⟨q + 1, fun log y h => (hout log y h).1⟩

theorem Turn.serial_lt (hm : x.roster.Sound) (h : Turn hooks x u y) :
    u.name.serial < y.roster.next := by
  have hall := (Roster.joins_enrolAll hm).1
  cases h with
  | ran _ _ hn => exact hall.serial_lt (List.mem_of_getElem? hn)
  | finished _ _ hn => exact hall.serial_lt (List.mem_of_getElem? hn)

theorem Turns.serial_lt (hm : x.roster.Sound) (h : Turns hooks x log y) :
    ∀ n ∈ log.map Quantum.name, n.serial < y.roster.next := by
  induction h with
  | nil => exact nofun
  | cons ht h ih =>
    intro n hn
    rcases List.mem_cons.mp hn with rfl | hn
    · exact Nat.lt_of_lt_of_le (ht.serial_lt hm) (h.next_le (ht.sound hm))
    · exact ih (ht.sound hm) n hn

/-- There are only so many names of tasks that have joined. -/
theorem finite_names (k : Nat) : {n : TaskName | n.serial < k}.Finite := by
  have hinj : Function.Injective fun n : TaskName => (n.serial, n.priority.toInt) := by
    rintro ⟨a, p⟩ ⟨b, q⟩ h
    obtain ⟨hserial, hpriority⟩ := Prod.mk.inj h
    exact TaskName.mk.injEq .. ▸ ⟨hserial, Int32.toInt_inj.mp hpriority⟩
  have hfin := (Finset.range k ×ˢ Finset.Ico (-2 ^ 31 : Int) (2 ^ 31)).finite_toSet
  refine (hfin.preimage hinj.injOn).subset fun n hn => ?_
  rw [Set.mem_preimage, Finset.mem_coe, Finset.mem_product, Finset.mem_range, Finset.mem_Ico]
  exact ⟨hn, n.priority.le_toInt, n.priority.toInt_lt⟩

/-- Only so many turns can be taken. -/
theorem Drainable.length_le (hm : x.roster.Sound) (hd : Drainable hooks x) :
    ∃ b, ∀ log y, Turns hooks x log y → log.length ≤ b := by
  obtain ⟨k, hk⟩ := hd.joins
  choose q hq using hd.count_le hm
  refine ⟨∑ n ∈ (finite_names k).toFinset, q n, fun log y h => ?_⟩
  have hin : ∀ n ∈ (log.map Quantum.name : Multiset TaskName), n ∈ (finite_names k).toFinset :=
    fun n hn => (finite_names k).mem_toFinset.mpr
      (Nat.lt_of_lt_of_le (h.serial_lt hm n hn) (hk h))
  have hsum := Multiset.sum_count_eq_card hin
  simp only [Multiset.coe_count, Multiset.coe_card, List.length_map] at hsum
  rw [← hsum]
  exact Finset.sum_le_sum fun n _ => hq n log y h

/-- Taking turns comes to an end. -/
theorem Drainable.comes_to_rest (hm : x.roster.Sound) (hd : Drainable hooks x) :
    ∃ log y, Turns hooks x log y ∧ y.AtRest := by
  obtain ⟨b, hb⟩ := hd.length_le hm
  by_contra hno
  have hlong : ∀ n, ∃ log y, Turns hooks x log y ∧ log.length = n := by
    intro n
    induction n with
    | zero => exact ⟨[], x, .nil x, rfl⟩
    | succ n ih =>
      obtain ⟨log, y, h, hlen⟩ := ih
      obtain ⟨fuel, htick⟩ := hd.returns h
      obtain hr | ⟨u, z, ht⟩ := turn_of_tick (h.sound hm) htick
      · exact absurd ⟨log, y, h, hr⟩ hno
      · exact ⟨log ++ [u], z, h.append (.cons ht (.nil z)), by simp [hlen]⟩
  obtain ⟨log, y, h, hlen⟩ := hlong (b + 1)
  have hle := hb log y h
  omega

/-! ## Tasks that end by themselves -/

end Scene

variable {Fit : Store → Prop} {budget q : Nat}

/-- A task ends or fails within so many quanta of its own, whatever fit store each of them finds.
It leaves the store fit. -/
def Task.EndsWithin (Fit : Store → Prop) (budget : Nat) : Nat → Task → Prop
  | 0, _ => False
  | q + 1, t => ∀ st, Fit st → ∃ fuel res t' st',
      Task.work fuel budget t st = some ((res, t'), st') ∧ Fit st' ∧
        (Scheduler.outcome? t' res = none → EndsWithin Fit budget q t')

/-- All tasks in the mailbox end by themselves. -/
def Mailbox.End (Fit : Store → Prop) (budget : Nat) (b : Mailbox) : Prop :=
  ∀ a ∈ b.arrivals, ∃ q, a.task.EndsWithin Fit budget q

/-- A hook comes back and leaves the store fit.  It posts only tasks that end by themselves. -/
def HookWork.Returns {α : Type} (Fit : Store → Prop) (budget : Nat) (h : HookWork σ α) : Prop :=
  ∀ b s st, b.End Fit budget → Fit st →
    ∃ a b' s' st', h b s st = some (((a, b'), s'), st') ∧ b'.End Fit budget ∧ Fit st'

/-- The hooks that a tick calls come back. -/
structure Hooks.Return (Fit : Store → Prop) (budget : Nat) (hooks : Hooks σ) : Prop where
  onComplete : ∀ report, (hooks.onComplete report).Returns Fit budget
  onRemove : ∀ report, (hooks.onRemove report).Returns Fit budget

theorem Mailbox.end_enrolAll (sch : Scheduler) : sch.enrolAll.mailbox.End Fit budget := by
  rw [Scheduler.enrolAll_eq]
  exact fun a ha => absurd ha List.not_mem_nil

theorem Task.EndsWithin.exists_eq_succ {t : Task} (h : t.EndsWithin Fit budget q) :
    ∃ k, q = k + 1 := by
  refine Nat.exists_eq_succ_of_ne_zero ?_
  rintro rfl
  exact h

/-- A quantum that comes back is the one that was promised, whatever fuel it had. -/
theorem Task.EndsWithin.work {t t' : Task} {st st' : Store} {fuel : Nat} {res : Except Failure Unit}
    (h : t.EndsWithin Fit budget (q + 1)) (hst : Fit st)
    (hwork : Task.work fuel budget t st = some ((res, t'), st')) :
    Fit st' ∧ (Scheduler.outcome? t' res = none → t'.EndsWithin Fit budget q) := by
  obtain ⟨fuel', res₁, t₁, st₁, hwork₁, hend⟩ := h st hst
  have h₁ := Task.work_below (Nat.le_max_left fuel fuel') budget _ _ _ hwork
  have h₂ := Task.work_below (Nat.le_max_right fuel fuel') budget _ _ _ hwork₁
  cases h₁.symm.trans h₂
  exact hend

/-- A quantum on such a task comes back, with the hooks that are called if it was the last. -/
theorem Scheduler.workAt_isSome (hh : hooks.Return Fit budget) (sch : Scheduler)
    (hb : max 1 sch.settings.quantum = budget) (hmail : sch.mailbox.End Fit budget) {seat : Seat}
    (hseat : seat.task.EndsWithin Fit budget (q + 1)) (i : Nat) (s : σ) {st : Store}
    (hst : Fit st) : ∃ fuel, (workAt fuel hooks i seat sch s st).isSome := by
  obtain ⟨fuel, res, task, mid, hwork, hmid, -⟩ := hseat st hst
  refine ⟨fuel, ?_⟩
  rw [workAt_eq, hb, hwork]
  simp only [bind, Option.bind_some]
  cases outcome? task res with
  | none => rfl
  | some outcome =>
    simp only [callHook, remove_eq, bind, pure]
    generalize Seat.report _ outcome = report
    obtain ⟨_, b, s₁, st₁, hcomplete, hb₁, hst₁⟩ := hh.onComplete report _ s _ hmail hmid
    obtain ⟨_, _, _, _, hremove, -⟩ := hh.onRemove report _ s₁ _ hb₁ hst₁
    simp only [hcomplete, Option.bind_some, hremove]
    rfl

namespace Scene

/-- A task is ready under a name, in the row or in the mailbox. -/
def Stands (x : Scene σ) (n : TaskName) (t : Task) : Prop :=
  ∃ s, (n, s) ∈ x.roster.enrolAll.named ∧ s.isReady = true ∧ s.task = t

/-- All tasks that are ready, or wait in the mailbox, end by themselves. -/
structure Ending (Fit : Store → Prop) (x : Scene σ) : Prop where
  fit : Fit x.store
  tasks : ∀ {n t}, x.Stands n t → ∃ q, t.EndsWithin Fit x.budget q

/-- Whom a tick chooses is ready. -/
theorem stands_of_choose (hm : x.roster.Sound) {i : Nat} {r : Rota} {n : TaskName} {seat : Seat}
    (hc : x.roster.enrolAll.sch.rota.choose = some (i, r))
    (hn : x.roster.enrolAll.names[i]? = some n) (hs : r.seats[i]? = some seat) :
    x.Stands n seat.task := by
  have hall := (Roster.joins_enrolAll hm).1
  have hr := (Roster.faces_of_choose hall hc hn hs).1
  obtain ⟨s₀, hmem, hready, htask⟩ :=
    Roster.mem_named_of_choose hc (List.mem_of_getElem? (List.getElem?_zip_eq_some.mpr ⟨hn, hs⟩))
  exact ⟨s₀, hmem, hready.trans hr, htask⟩

/-- **What a turn does to the tasks.**  Who is ready afterwards was ready before and was not worked
on, or was worked on and has not ended, or was posted by a hook and has a new name. -/
theorem Turn.stands (hm : x.roster.Sound) (h : Turn hooks x u y) :
    ∃ fuel t res t' mid, x.Stands u.name t ∧
      Task.work fuel x.budget t x.store = some ((res, t'), mid) ∧ y.budget = x.budget ∧
      y.roster.next = x.roster.enrolAll.next ∧
      (∀ {n t₁}, y.Stands n t₁ → (n ≠ u.name ∧ x.Stands n t₁) ∨
        (n = u.name ∧ Scheduler.outcome? t' res = none ∧ t₁ = t') ∨
        (y.roster.next ≤ n.serial ∧ ∃ a ∈ y.roster.sch.mailbox.arrivals, a.task = t₁)) ∧
      ((y.store = mid ∧ y.roster.sch.mailbox = x.roster.sch.enrolAll.mailbox) ∨
        ∃ report b s st,
          hooks.onComplete report x.roster.sch.enrolAll.mailbox x.user mid =
            some ((((), b), s), st) ∧
          hooks.onRemove report b s st =
            some ((((), y.roster.sch.mailbox), y.user), y.store)) := by
  have hall := (Roster.joins_enrolAll hm).1
  obtain ⟨fuel, i, r, seat, res, task, mid, row, hc, hs, hn, hwork, rfl, hbudget, hnext, hend⟩ :=
    h.chosen hm
  refine ⟨fuel, seat.task, res, task, mid, stands_of_choose hm hc hn hs, hwork, hbudget, hnext,
    ?_, ?_⟩
  · rintro n t₁ ⟨s, hmem, hready, rfl⟩
    rw [Roster.enrolAll_named (h.sound hm), List.mem_append] at hmem
    obtain hmem | hmem := hmem
    · -- The seat has kept its position, or has moved up if the one that was chosen is gone.
      obtain ⟨j, hj, he⟩ : ∃ j, (j = i → Scheduler.outcome? task res = none) ∧
          (x.roster.enrolAll.names.zip (r.seats.set i (seat.worked task)))[j]? = some (n, s) := by
        obtain ⟨-, ho, hy, -⟩ | ⟨-, -, -, -, -, -, -, hy, -⟩ := hend
        · obtain ⟨j, hj⟩ := List.mem_iff_getElem?.mp (hy ▸ hmem)
          exact ⟨j, fun _ => ho, hj⟩
        · obtain ⟨j, hne, hj⟩ := List.mem_eraseIdx_iff_getElem?.mp (hy ▸ hmem)
          exact ⟨j, fun h => absurd h hne, hj⟩
      obtain ⟨hji, hn, rfl⟩ | ⟨hne, s₀, hs₀, hready₀, htask₀⟩ :=
        Roster.seat_of_worked hall hc hs hn he
      · exact .inr (.inl ⟨hn, hj hji, rfl⟩)
      · exact .inl ⟨hne, s₀, hs₀, hready₀.trans hready, htask₀⟩
    · obtain ⟨⟨a, k⟩, ha, he⟩ := List.mem_map.mp hmem
      cases he
      exact .inr (.inr ⟨(List.mem_zipIdx ha).1, a, List.fst_mem_of_mem_zipIdx ha, rfl⟩)
  · obtain ⟨-, -, -, hstore, hmail⟩ | ⟨-, report, b, s, st, -, -, -, hhooks⟩ := hend
    · exact .inl ⟨hstore, hmail⟩
    · exact .inr ⟨report, b, s, st, hhooks⟩

/-- **What a turn preserves** if the hooks come back. -/
theorem Turn.ending (hh : hooks.Return Fit x.budget) (hm : x.roster.Sound) (hx : Ending Fit x)
    (h : Turn hooks x u y) : Ending Fit y := by
  obtain ⟨fuel, t, res, t', mid, ht, hwork, hbudget, -, hstands, hend⟩ := h.stands hm
  obtain ⟨q, hq⟩ := hx.tasks ht
  obtain ⟨q, rfl⟩ := hq.exists_eq_succ
  obtain ⟨hmid, hrest⟩ := hq.work hx.fit hwork
  obtain ⟨hfit, hmail⟩ : Fit y.store ∧ y.roster.sch.mailbox.End Fit x.budget := by
    obtain ⟨rfl, hmail⟩ | ⟨report, b, s, st, hcomplete, hremove⟩ := hend
    · exact ⟨hmid, hmail ▸ Mailbox.end_enrolAll _⟩
    · obtain ⟨_, b', s', st', hc, hb, hst⟩ :=
        hh.onComplete report _ x.user _ (Mailbox.end_enrolAll _) hmid
      cases hcomplete.symm.trans hc
      obtain ⟨_, b', s', st', hr, hb, hst⟩ := hh.onRemove report _ s _ hb hst
      cases hremove.symm.trans hr
      exact ⟨hst, hb⟩
  refine ⟨hfit, fun {n t₁} hy => hbudget ▸ ?_⟩
  obtain ⟨-, hold⟩ | ⟨-, ho, rfl⟩ | ⟨-, a, ha, rfl⟩ := hstands hy
  · exact hx.tasks hold
  · exact ⟨q, hrest ho⟩
  · exact hmail a ha

theorem Turns.ending (hh : hooks.Return Fit x.budget) (hm : x.roster.Sound) (hx : Ending Fit x)
    (h : Turns hooks x log y) : Ending Fit y ∧ y.budget = x.budget := by
  induction h with
  | nil => exact ⟨hx, rfl⟩
  | cons ht _ ih =>
    obtain ⟨-, -, -, -, -, -, -, hbudget, -⟩ := ht.stands hm
    obtain ⟨hz, hsame⟩ := ih (hbudget ▸ hh) (ht.sound hm) (ht.ending hh hm hx)
    exact ⟨hz, hsame.trans hbudget⟩

/-- A task that has joined has at most so many quanta left, while it is ready. -/
def Left (Fit : Store → Prop) (x : Scene σ) (n : TaskName) (q : Nat) : Prop :=
  n.serial < x.roster.enrolAll.next ∧ ∀ {t}, x.Stands n t → t.EndsWithin Fit x.budget q

theorem Stands.left {n : TaskName} {t : Task} (hm : x.roster.Sound) (h : x.Stands n t)
    (ht : t.EndsWithin Fit x.budget q) : x.Left Fit n q := by
  have hall := (Roster.joins_enrolAll hm).1
  have hnames : (x.roster.enrolAll.named.map Prod.fst).Nodup := by
    rw [Roster.named, List.map_fst_zip (Nat.le_of_eq hall.named.length_eq)]
    exact hall.names_nodup
  obtain ⟨s, hs, -, rfl⟩ := h
  refine ⟨hall.serial_lt (List.of_mem_zip hs).1, ?_⟩
  rintro t' ⟨s', hs', -, rfl⟩
  cases List.inj_on_of_nodup_map hnames hs hs' rfl
  exact ht

/-- A turn takes one quantum from what the task has left. -/
theorem Turn.left {n : TaskName} (hm : x.roster.Sound) (hfit : Fit x.store) (hl : x.Left Fit n q)
    (h : Turn hooks x u y) : y.Left Fit n (q - [u.name].count n) := by
  obtain ⟨fuel, t, res, t', mid, ht, hwork, hbudget, hnext, hstands, -⟩ := h.stands hm
  have hle : y.roster.next ≤ y.roster.enrolAll.next :=
    (Roster.joins_enrolAll (h.sound hm)).2.next_le
  refine ⟨Nat.lt_of_lt_of_le (hnext ▸ hl.1) hle, fun {t₁} hy => hbudget ▸ ?_⟩
  obtain ⟨hne, hold⟩ | ⟨rfl, ho, rfl⟩ | ⟨hle, -⟩ := hstands hy
  · rw [List.count_singleton, if_neg (by simpa using hne.symm)]
    exact hl.2 hold
  · have hq := hl.2 ht
    obtain ⟨q, rfl⟩ := hq.exists_eq_succ
    rw [List.count_singleton, if_pos (by simp), Nat.add_sub_cancel]
    exact (hq.work hfit hwork).2 ho
  · exact absurd hl.1 (Nat.not_lt_of_le (hnext ▸ hle))

theorem Turns.left {n : TaskName} (hh : hooks.Return Fit x.budget) (hm : x.roster.Sound)
    (hx : Ending Fit x) (hl : x.Left Fit n q) (h : Turns hooks x log y) :
    y.Left Fit n (q - (log.map Quantum.name).count n) := by
  induction h generalizing q with
  | nil => exact hl
  | @cons x y z u log ht _ ih =>
    obtain ⟨hy, hbudget⟩ := Turns.ending hh hm hx (.cons ht (.nil y))
    have hrest := ih (hbudget ▸ hh) (ht.sound hm) hy (ht.left hm hx.fit hl)
    rwa [Nat.sub_sub, ← List.count_append] at hrest

/-- Ticks come back as long as all tasks end by themselves. -/
theorem Ending.returns (hh : hooks.Return Fit x.budget) (hm : x.roster.Sound) (hx : Ending Fit x) :
    ∃ fuel, (Scheduler.tick fuel hooks x.roster.sch x.user x.store).isSome := by
  have hall := (Roster.joins_enrolAll hm).1
  rcases hc : x.roster.enrolAll.sch.rota.choose with _ | ⟨i, r⟩
  · refine ⟨0, ?_⟩
    rw [Roster.enrolAll_sch] at hc
    rw [Scheduler.tick_eq, hc]
    rfl
  · obtain ⟨c, -, -, n, s, rest, -, -, -, hn, -⟩ := Rota.passes_of_choose hall.named hc
    obtain ⟨-, seat, hs, -⟩ := Rota.keeps_choose (Nat.zero_lt_of_lt hall.named.cursor_lt) hc
    obtain ⟨q, hq⟩ := hx.tasks (stands_of_choose hm hc hn hs)
    obtain ⟨q, rfl⟩ := hq.exists_eq_succ
    rw [Roster.enrolAll_sch] at hc
    have hsettings : x.roster.sch.enrolAll.settings = x.roster.sch.settings := by
      rw [Scheduler.enrolAll_eq]
    obtain ⟨fuel, hwork⟩ := Scheduler.workAt_isSome hh { x.roster.sch.enrolAll with rota := r }
      (by rw [hsettings]; rfl) (Mailbox.end_enrolAll _) hq i x.user hx.fit
    refine ⟨fuel, ?_⟩
    rw [Scheduler.tick_eq, hc]
    dsimp only
    rw [hs]
    exact hwork

/-- **Quanta of one's own.**  Let every task that is ready, or waits in the mailbox, end or fail
after finitely many quanta of its own, whatever store it finds in each of them, and let hooks come
back and post only such tasks.  If moreover finitely many tasks join the row, the loop ends. -/
theorem Ending.drainable (hh : hooks.Return Fit x.budget) (hm : x.roster.Sound) (hx : Ending Fit x)
    (hjoins : ∃ k, ∀ {log : List Quantum} {y : Scene σ}, Turns hooks x log y → y.roster.next ≤ k) :
    Drainable hooks x where
  returns h := by
    obtain ⟨hy, hbudget⟩ := h.ending hh hm hx
    exact hy.returns (hbudget ▸ hh) (h.sound hm)
  ends n := by
    by_cases hstood : ∃ log y t, Turns hooks x log y ∧ y.Stands n t
    · obtain ⟨log, y, t, h, ht⟩ := hstood
      obtain ⟨hy, hbudget⟩ := h.ending hh hm hx
      obtain ⟨q, hq⟩ := hy.tasks ht
      have hleft := ht.left (h.sound hm) hq
      obtain ⟨q, rfl⟩ := hq.exists_eq_succ
      refine ⟨log.length + (q + 1), fun {log' y' z u} h' hu hn hle => ?_⟩
      obtain ⟨rest, rfl, hrest⟩ | ⟨rest, rfl, -⟩ := h.compare h'
      · -- The task has used up what it had left, and cannot have been chosen.
        have hnow := hrest.left (hbudget ▸ hh) (h.sound hm) hy hleft
        have hcount := List.count_le_length (a := n) (l := log.map Quantum.name)
        rw [List.map_append, List.count_append] at hle
        rw [List.length_map] at hcount
        rw [Nat.sub_eq_zero_of_le (by omega)] at hnow
        obtain ⟨-, t', -, -, -, ht', -⟩ := hu.stands (h'.sound hm)
        exact (hnow.2 (hn ▸ ht')).elim
      · have hcount := List.count_le_length (a := n) (l := log'.map Quantum.name)
        rw [List.length_append] at hle
        rw [List.length_map] at hcount
        omega
    · refine ⟨0, fun {log' y' z u} h' hu hn _ => absurd ?_ hstood⟩
      obtain ⟨-, t, -, -, -, ht, -⟩ := hu.stands (h'.sound hm)
      exact ⟨log', y', t, h', hn ▸ ht⟩
  joins := hjoins

/-- **Running until idle ends, and drains everything that is ready.**  Whatever state the scheduler
was brought to, let quanta and hooks come back, let each task end or fail after finitely many
quanta, and let finitely many tasks be posted meanwhile (`Drainable`).  Then the loop ends.  Of the tasks that
stood in the row or were found in the mailbox by one of the ticks, those that were ready are told
of, each of them once and in the order of their last quanta; the others stand in the row as they
did, in the same order, and if they are not idle they are suspended.  The mailbox is empty. -/
theorem runUntilIdle_drains (hm : x.roster.Reachable) (hd : Drainable hooks x) :
    ∃ log y everyone, Turns hooks x log y ∧ y.AtRest ∧
      everyone = x.everyone log ++ y.roster.newcomers ∧
      (∃ enough, ∀ work fuel, enough ≤ work → enough ≤ fuel →
        Scheduler.runUntilIdle work hooks fuel x.roster.sch x.user x.store =
          some (((log.filterMap Quantum.report?, y.roster.enrolAll.sch), y.user), y.store)) ∧
      (log.filterMap Quantum.told?).map Prod.fst = (log.map Quantum.name).dedup ∧
      (log.filterMap Quantum.told?).Perm ((everyone.filter (·.2.isReady)).map NamedSeat.label) ∧
      y.roster.enrolAll.sch.mailbox.arrivals = [] ∧
      y.roster.enrolAll.named = everyone.filter (!·.2.isReady) ∧
      ∀ seat ∈ y.roster.enrolAll.sch.rota.seats, seat.task.isIdle = false →
        seat.suspended = true ∧ seat ∈ x.roster.sch.rota.seats := by
  have hsound := hm.sound
  obtain ⟨log, y, h, hr⟩ := hd.comes_to_rest hsound
  obtain ⟨enough, hloop⟩ := runUntilIdle_of_turns h hr
  have hnamed := named_at_rest hsound h hr
  refine ⟨log, y, _, h, hr, rfl, ⟨max enough (log.length + 1), fun work fuel hw hf => ?_⟩,
    told_names hsound h hr, told_perm hsound h hr, ?_, hnamed, fun seat hseat hbusy => ?_⟩
  · rw [Roster.enrolAll_sch]
    exact hloop work fuel (by omega) (by omega)
  · rw [Roster.enrolAll_sch, Scheduler.enrolAll_eq]
  · have hall := (Roster.joins_enrolAll (h.sound hsound)).1
    obtain ⟨n, hn⟩ := hall.named.mem_seats.mp hseat
    have hmem : (n, seat) ∈ y.roster.enrolAll.named := List.mem_rotate.mp hn
    rw [hnamed, List.mem_filter] at hmem
    obtain ⟨hmem, hready⟩ := hmem
    have hsuspended : seat.suspended = true := by
      simpa [Seat.isReady, hbusy] using hready
    have hnew {m : Roster} (hm : (n, seat) ∈ m.newcomers) : False := by
      obtain ⟨⟨a, k⟩, -, he⟩ := List.mem_map.mp hm
      cases he
      cases hsuspended
    refine ⟨hsuspended, ?_⟩
    rw [everyone, List.mem_append, List.mem_append, List.mem_flatMap] at hmem
    obtain (hmem | ⟨u, -, hmem⟩) | hmem := hmem
    · exact (List.of_mem_zip hmem).2
    · exact (hnew hmem).elim
    · exact (hnew hmem).elim

/-- A machine that does nothing with its first step and fails with its second. -/
def stumbler : Machine := .load { code := #[0], data := #[], entry := 0 } 1

/-- A hook that posts a task when the first one is done. -/
def followFirst : Hooks Unit where
  onComplete r := do if r.id == 1 then modify fun b => (b.post Roster.brief 20).2

/-- A scheduler that takes one step per tick, with the idle task and others. -/
def stage (seats : List Seat) (cursor : Nat) (mailbox : Mailbox) (serials : List Nat) (next : Nat) :
    Scene Unit where
  roster :=
    { sch :=
        { settings := { quantum := 1 }
          rota := { seats := Scheduler.idleSeat :: seats, cursor }
          mailbox }
      names := ⟨0, Rota.idlePriority⟩ :: serials.map (⟨·, 20⟩)
      next }
  user := ()
  store := {}

/-- A task that is suspended. -/
def sleeper : Seat :=
  { id := 2, priority := 20, level := 20, suspended := true, task := Roster.brief }

/-- A task that will fail, one that is suspended, and another in the mailbox. -/
def busy : Scene Unit :=
  stage [{ id := 1, priority := 20, level := 20, task := .machine stumbler }, sleeper] 0
    { nextId := 4, arrivals := [⟨3, 20, Roster.brief⟩] } [1, 2] 3

/-- The one that is suspended is left. -/
def drained : Scene Unit := stage [sleeper] 0 { nextId := 5 } [2] 5

/-- The task from the mailbox is done after the first quantum of the one that fails.  When that one
has failed, the hook posts another. -/
theorem turns_of_busy : ∃ log, Turns followFirst busy log drained ∧
    log.map Quantum.name = [⟨1, 20⟩, ⟨3, 20⟩, ⟨1, 20⟩, ⟨4, 20⟩] := by
  let worked : Seat :=
    { id := 1, priority := 20, level := 20, quanta := 1
      task := .machine { stumbler with pc := 1, steps := 1 } }
  let x₁ := stage [worked, sleeper, { id := 3, priority := 20, level := -19, task := Roster.brief }]
    2 { nextId := 4 } [1, 2, 3] 4
  let x₂ := stage [worked, sleeper] 0 { nextId := 4 } [1, 2] 4
  let x₃ := stage [sleeper] 1 { nextId := 5, arrivals := [⟨4, 20, Roster.brief⟩] } [2] 4
  let done := Roster.briefReport 1 1 (.completed (.number 1))
  have htick₁ : Scheduler.tick 1 followFirst busy.roster.sch () {} =
      some (((.ran 1, x₁.roster.sch), ()), {}) := by cbv
  have htick₂ : Scheduler.tick 1 followFirst x₁.roster.sch () {} =
      some (((.finished { done with id := 3 }, x₂.roster.sch), ()), {}) := by cbv
  have htick₃ : Scheduler.tick 1 followFirst x₂.roster.sch () {} =
      some (((.finished { done with
        kind := "MachineTask", quanta := 2, outcome := .failed (.fault (.outsideCode 1)) },
        x₃.roster.sch), ()), {}) := by cbv
  have htick₄ : Scheduler.tick 1 followFirst x₃.roster.sch () {} =
      some (((.finished { done with id := 4 }, drained.roster.sch), ()), {}) := by cbv
  have hchoose {x : Scene Unit} {i : Nat}
      (h : x.roster.enrolAll.sch.rota.choose.map Prod.fst = some i) :
      ∃ r, x.roster.enrolAll.sch.rota.choose = some (i, r) := by
    obtain ⟨⟨j, r⟩, hc, rfl⟩ := Option.map_eq_some_iff.mp h
    exact ⟨r, hc⟩
  obtain ⟨r₁, hc₁⟩ := @hchoose busy 1 (by cbv)
  obtain ⟨r₂, hc₂⟩ := @hchoose x₁ 3 (by cbv)
  obtain ⟨r₃, hc₃⟩ := @hchoose x₂ 1 (by cbv)
  obtain ⟨r₄, hc₄⟩ := @hchoose x₃ 2 (by cbv)
  exact ⟨_, .cons (y := x₁) (.ran htick₁ hc₁ rfl) (.cons (y := x₂) (.finished htick₂ hc₂ rfl)
    (.cons (y := x₃) (.finished htick₃ hc₃ rfl) (.cons (.finished htick₄ hc₄ rfl) (.nil _)))), rfl⟩

/-- The store has no part in when these tasks end. -/
theorem stumbler_endsWithin : (Task.machine stumbler).EndsWithin (fun _ => True) 1 2 := by
  intro st _
  refine ⟨0, .ok (), .machine { stumbler with pc := 1, steps := 1 }, st, by cbv, trivial, ?_⟩
  intro _ st _
  exact ⟨0, _, _, st, by cbv, trivial, fun h => by cases h⟩

theorem brief_endsWithin : Roster.brief.EndsWithin (fun _ => True) 1 1 := by
  intro st _
  exact ⟨0, _, _, st, by cbv, trivial, fun h => by cases h⟩

theorem followFirst_return : followFirst.Return (fun _ => True) 1 where
  onComplete report b s st hb _ := by
    by_cases hid : report.id == 1
    · refine ⟨(), (b.post Roster.brief 20).2, s, st, ?_, ?_, trivial⟩
      · simp only [followFirst, hid]
        rfl
      · intro a ha
        rcases List.mem_append.mp ha with ha | ha
        · exact hb a ha
        · cases List.mem_singleton.mp ha
          exact ⟨1, brief_endsWithin⟩
    · refine ⟨(), b, s, st, ?_, hb, trivial⟩
      simp only [followFirst, hid]
      rfl
  onRemove report b s st hb _ := ⟨(), b, s, st, rfl, hb, trivial⟩

theorem ending_busy : Ending (fun _ => True) busy where
  fit := trivial
  tasks := by
    rintro n t ⟨s, hmem, hready, rfl⟩
    have hrow : busy.roster.enrolAll.named =
        [(⟨0, Rota.idlePriority⟩, Scheduler.idleSeat),
          (⟨1, 20⟩, { id := 1, priority := 20, level := 20, task := .machine stumbler }),
          (⟨2, 20⟩, sleeper),
          (⟨3, 20⟩, { id := 3, priority := 20, level := 20, task := Roster.brief })] := rfl
    rw [hrow] at hmem
    simp only [List.mem_cons, List.not_mem_nil, or_false, Prod.mk.injEq] at hmem
    obtain ⟨-, rfl⟩ | ⟨-, rfl⟩ | ⟨-, rfl⟩ | ⟨-, rfl⟩ := hmem
    · cases hready
    · exact ⟨2, stumbler_endsWithin⟩
    · cases hready
    · exact ⟨1, brief_endsWithin⟩

theorem runUntilIdle_drains_of_busy :
    busy.roster.Reachable ∧ Drainable followFirst busy ∧
      ∃ (log : List Quantum) (enough : Nat),
      log.map Quantum.name = [⟨1, 20⟩, ⟨3, 20⟩, ⟨1, 20⟩, ⟨4, 20⟩] ∧
      (∀ work fuel, enough ≤ work → enough ≤ fuel →
        Scheduler.runUntilIdle work followFirst fuel busy.roster.sch () {} =
          some (((log.filterMap Quantum.report?, drained.roster.sch), ()), {})) ∧
      (log.filterMap Quantum.told?).map Prod.fst = [⟨3, 20⟩, ⟨1, 20⟩, ⟨4, 20⟩] ∧
      sleeper ∈ busy.roster.sch.rota.seats := by
  have hreach : busy.roster.Reachable :=
    ⟨{ quantum := 1 }, [(_, .change), (_, .change), (_, .change), (_, .change)],
      .cons (.spawn _ (.machine stumbler) 20) (.cons (.spawn _ Roster.brief 20)
        (.cons (.setSuspended _ 2 true) (.cons (.post _ Roster.brief 20) (.nil _))))⟩
  obtain ⟨log, h, hnames⟩ := turns_of_busy
  have hr : drained.AtRest := by
    unfold AtRest
    decide
  have hdrain : Drainable followFirst busy :=
    ending_busy.drainable followFirst_return hreach.sound ⟨drained.roster.next, fun h' => by
      obtain ⟨rest, -, hrest⟩ := h.prefix hr h'
      exact hrest.next_le (h'.sound hreach.sound)⟩
  obtain ⟨log', y, everyone, h', hr', -, ⟨enough, hloop⟩, hlast, -, -, -, hsleep⟩ :=
    runUntilIdle_drains hreach hdrain
  obtain ⟨rfl, rfl⟩ := h.unique hr h' hr'
  refine ⟨hreach, hdrain, log', enough, hnames, hloop, ?_, ?_⟩
  · rw [hlast, hnames]
    rfl
  · exact (hsleep sleeper (.tail _ (.head _)) rfl).2

end Scene

end LispEngines
