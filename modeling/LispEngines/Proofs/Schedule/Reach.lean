import LispEngines.Proofs.Schedule.Ledger
import LispEngines.Proofs.Schedule.Roster

/-!
# Who can be cancelled and suspended

Tasks are cancelled, suspended and resumed by their numbers, and a number is looked up in the row.
So these operations reach every task that stands in the row, and what they say of it stays true
whatever happens next.  A task that waits in the mailbox has a number too and counts as one of the
scheduler's tasks, but no operation finds it.

* `Roster.Out`: a task has left the row; it never comes back (`Out.run`).
* `Roster.Asleep`: a suspended task, the first with its number.  Operations leave it so, except that
  it is cancelled or resumed (`Asleep.step`).
* `Roster.reach_of_row`: cancelling and suspending, in the row and in the mailbox.
* `Roster.posted_out_of_reach`: a task that should have been cancelled and is worked on.
-/

namespace LispEngines

namespace Scheduler

variable {σ : Type} {hooks : Hooks σ} {id : UInt32} {sch : Scheduler} {s : σ} {st : Store}

/-- The number of a task that is not found is no reason to do anything. -/
theorem cancel_of_absent (habsent : ∀ seat ∈ sch.rota.seats, seat.id ≠ id) :
    cancel hooks id sch s st = some (((none, sch), s), st) := by
  have hfind : sch.rota.seats.findIdx? (·.id == id) = none := by
    simpa using habsent
  rw [cancel_eq, Rota.position?, hfind]

theorem setSuspended_of_absent (habsent : ∀ seat ∈ sch.rota.seats, seat.id ≠ id) (b : Bool) :
    sch.setSuspended id b = (false, sch) := by
  obtain heq | ⟨i, seat, hseat, hid, -, -⟩ := sch.setSuspended_cases id b
  · exact heq
  · exact absurd hid (habsent seat (List.mem_of_getElem? hseat))

end Scheduler

namespace Roster

variable {m m' : Roster} {e : ScheduleEvent} {log : Log} {n : TaskName}

/-! ## Joining the row -/

theorem foldl_enrol_row (arrivals : List Arrival) (m : Roster) :
    ∃ ns ss, (arrivals.foldl enrol m).names = m.names ++ ns ∧
      (arrivals.foldl enrol m).sch.rota.seats = m.sch.rota.seats ++ ss ∧
      m.next ≤ (arrivals.foldl enrol m).next ∧ (∀ n ∈ ns, m.next ≤ n.serial) ∧
      ∀ a ∈ arrivals,
        { id := a.id, priority := a.priority, level := a.priority, task := a.task } ∈ ss := by
  induction arrivals generalizing m with
  | nil => exact ⟨[], [], by simp, by simp, Nat.le_refl _, by simp, by simp⟩
  | cons a arrivals ih =>
    obtain ⟨ns, ss, hns, hss, hnext, hserial, hseats⟩ := ih (m.enrol a)
    refine ⟨⟨m.next, a.priority⟩ :: ns,
      { id := a.id, priority := a.priority, level := a.priority, task := a.task } :: ss, ?_, ?_,
      Nat.le_of_succ_le hnext, ?_, ?_⟩
    · rw [List.foldl_cons, hns, enrol, List.append_assoc]
      rfl
    · rw [List.foldl_cons, hss]
      show (m.sch.rota.seats ++ [_]) ++ ss = _
      rw [List.append_assoc]
      rfl
    · intro n hn
      rcases List.mem_cons.mp hn with rfl | hn
      · exact Nat.le_refl _
      · exact Nat.le_of_succ_le (hserial n hn)
    · intro b hb
      rcases List.mem_cons.mp hb with rfl | hb
      · exact List.mem_cons_self ..
      · exact List.mem_cons_of_mem _ (hseats b hb)

/-- The tasks from the mailbox stand behind the row, with names that are new. -/
theorem enrolAll_row (m : Roster) :
    ∃ ns ss, m.enrolAll.names = m.names ++ ns ∧
      m.enrolAll.sch.rota.seats = m.sch.rota.seats ++ ss ∧
      m.next ≤ m.enrolAll.next ∧ (∀ n ∈ ns, m.next ≤ n.serial) ∧
      ∀ a ∈ m.sch.mailbox.arrivals,
        { id := a.id, priority := a.priority, level := a.priority, task := a.task } ∈ ss :=
  foldl_enrol_row m.sch.mailbox.arrivals
    { m with sch := { m.sch with mailbox := { m.sch.mailbox with arrivals := [] } } }

/-! ## Tasks that have left -/

/-- A task that was in the row is there no more. -/
structure Out (m : Roster) (n : TaskName) : Prop where
  notMem : n ∉ m.names
  used : n.serial < m.next

theorem Out.append {ns : List TaskName} {next : Nat} {sch : Scheduler} (h : Out m n)
    (hns : ∀ k ∈ ns, m.next ≤ k.serial) (hnext : m.next ≤ next) :
    Out { sch, names := m.names ++ ns, next } n := by
  refine ⟨fun hn => ?_, Nat.lt_of_lt_of_le h.used hnext⟩
  rcases List.mem_append.mp hn with hn | hn
  · exact h.notMem hn
  · exact Nat.lt_irrefl _ (Nat.lt_of_lt_of_le h.used (hns n hn))

theorem Out.enrolAll (h : Out m n) : Out m.enrolAll n := by
  obtain ⟨ns, ss, hnames, -, hnext, hserial, -⟩ := enrolAll_row m
  obtain ⟨hnot, hused⟩ := @Out.append m n ns m.enrolAll.next m.sch h hserial hnext
  exact ⟨by rwa [hnames], hused⟩

theorem Out.eraseIdx (h : Out m n) (i : Nat) (sch : Scheduler) :
    Out { m with sch, names := m.names.eraseIdx i } n :=
  ⟨fun hn => h.notMem (List.mem_of_mem_eraseIdx hn), h.used⟩

/-- No operation brings a task back. -/
theorem Out.step (h : Out m n) (hs : Step m e m') : Out m' n ∧ e ≠ .worked n := by
  cases hs with
  | spawn task priority =>
    refine ⟨h.append (fun k hk => ?_) (Nat.le_succ _), nofun⟩
    rw [List.mem_singleton.mp hk]
  | post => exact ⟨⟨h.notMem, h.used⟩, nofun⟩
  | setSuspended => exact ⟨⟨h.notMem, h.used⟩, nofun⟩
  | cancel => exact ⟨h.eraseIdx _ _, nofun⟩
  | cancelNothing => exact ⟨⟨h.notMem, h.used⟩, nofun⟩
  | sleep => exact ⟨⟨h.notMem, h.used⟩, nofun⟩
  | idle => exact ⟨⟨h.enrolAll.notMem, h.enrolAll.used⟩, nofun⟩
  | ran _ _ hn =>
    refine ⟨⟨h.enrolAll.notMem, h.enrolAll.used⟩, ?_⟩
    rintro ⟨⟩
    exact h.enrolAll.notMem (List.mem_of_getElem? hn)
  | finished _ _ hn =>
    refine ⟨h.enrolAll.eraseIdx _ _, ?_⟩
    rintro ⟨⟩
    exact h.enrolAll.notMem (List.mem_of_getElem? hn)

theorem mem_works_cons {x : Roster × ScheduleEvent} :
    n ∈ works (x :: log) ↔ x.2 = .worked n ∨ n ∈ works log := by
  obtain ⟨m, e⟩ := x
  cases e <;> simp [works, ScheduleEvent.task?, eq_comm]

/-- A task that has left is never worked on again. -/
theorem Out.run (h : Out m n) (hr : Run m log m') : n ∉ works log := by
  induction hr with
  | nil => exact List.not_mem_nil
  | cons hs _ ih =>
    obtain ⟨h', hne⟩ := h.step hs
    rw [mem_works_cons, not_or]
    exact ⟨hne, ih h'⟩

/-! ## Tasks that are suspended -/

/-- Who is suspended and found under a number: of the seats with that number, the idle task apart,
the one at a position is the first. -/
structure Asleep (names : List TaskName) (seats : List Seat) (n : TaskName) (id : UInt32)
    (i : Nat) : Prop where
  name : names[i]? = some n
  seat : ∃ s, seats[i]? = some s ∧ s.id = id ∧ s.suspended = true ∧ s.task.isIdle = false
  first : ∀ (j : Nat) (s : Seat), j < i → seats[j]? = some s → s.id = id → s.task.isIdle = true

variable {names ns : List TaskName} {seats seats' ss : List Seat} {id : UInt32} {i k : Nat}

theorem Asleep.append (h : Asleep names seats n id i) (ns : List TaskName) (ss : List Seat) :
    Asleep (names ++ ns) (seats ++ ss) n id i := by
  obtain ⟨hname, ⟨s, hs, hrest⟩, hfirst⟩ := h
  obtain ⟨hi, -⟩ := List.getElem?_eq_some_iff.mp hs
  obtain ⟨hi', -⟩ := List.getElem?_eq_some_iff.mp hname
  refine ⟨?_, ⟨s, ?_, hrest⟩, fun j t hj ht => ?_⟩
  · rwa [List.getElem?_append_left hi']
  · rwa [List.getElem?_append_left hi]
  · rw [List.getElem?_append_left (hj.trans hi)] at ht
    exact hfirst j t hj ht

/-- What happens to other seats does not matter, as long as they keep their numbers. -/
theorem Asleep.change (h : Asleep names seats n id i) (hi : seats'[i]? = seats[i]?)
    (hsame : ∀ (j : Nat) (t' : Seat), seats'[j]? = some t' → ∃ t : Seat, seats[j]? = some t ∧
      t'.id = t.id ∧ (t'.id = id → t.task.isIdle = true → t'.task.isIdle = true)) :
    Asleep names seats' n id i := by
  refine ⟨h.name, by rw [hi]; exact h.seat, fun j t' hj ht' hid => ?_⟩
  obtain ⟨t, ht, hid', hidle⟩ := hsame j t' ht'
  exact hidle hid (h.first j t hj ht (hid'.symm.trans hid))

theorem Asleep.keeps {r r' : Rota} (h : Asleep names r.seats n id i) (hk : Rota.Keeps r r') :
    Asleep names r'.seats n id i := by
  obtain ⟨s, hs, -, hsuspended, -⟩ := h.seat
  have hunready : s.isReady = false := by
    rw [Seat.isReady, hsuspended]
    simp
  refine h.change ((hk.unready i s hs hunready).trans hs.symm) fun j t' ht' => ?_
  have hid := congrArg (·[j]?) hk.ids
  rw [List.getElem?_map, List.getElem?_map, ht'] at hid
  obtain ⟨t, ht, hid⟩ := Option.map_eq_some_iff.mp hid.symm
  refine ⟨t, ht, hid.symm, fun _ hidle => ?_⟩
  have hunready' : t.isReady = false := by
    rw [Seat.isReady, hidle]
    rfl
  have hsame := ht'.symm.trans (hk.unready j t ht hunready')
  rw [Option.some.inj hsame]
  exact hidle

/-- Another seat is worked on. -/
theorem Asleep.set (h : Asleep names seats n id i) {s s' : Seat} (hs : seats[k]? = some s)
    (hki : k ≠ i) (hbusy : s.task.isIdle = false) (hid : s'.id = s.id) :
    Asleep names (seats.set k s') n id i := by
  refine h.change (List.getElem?_set_ne hki) fun j t' ht' => ?_
  by_cases hj : k = j
  · subst hj
    rw [List.getElem?_set_self (List.getElem?_eq_some_iff.mp hs).1] at ht'
    cases ht'
    exact ⟨s, hs, hid, fun _ hidle => nomatch hbusy.symm.trans hidle⟩
  · rw [List.getElem?_set_ne hj] at ht'
    exact ⟨t', ht', rfl, fun _ h => h⟩

/-- Another seat is suspended or made ready again, or this one is suspended once more. -/
theorem Asleep.modify (h : Asleep names seats n id i) {b : Bool} (hb : k = i → b = true) :
    Asleep names (seats.modify k fun s => { s with suspended := b }) n id i := by
  refine h.change ?_ fun j t' ht' => ?_
  · by_cases hki : k = i
    · obtain ⟨s, hs, -, hsuspended, -⟩ := h.seat
      rw [hb hki, hki, List.getElem?_modify_eq, hs, ← hsuspended]
      rfl
    · exact List.getElem?_modify_ne _ _ hki
  · rw [List.getElem?_modify] at ht'
    obtain ⟨t, ht, rfl⟩ := Option.map_eq_some_iff.mp ht'
    refine ⟨t, ht, ?_, fun _ => ?_⟩ <;> split <;> simp

/-- Another seat is taken away. -/
theorem Asleep.eraseIdx (h : Asleep names seats n id i) (hki : k ≠ i) :
    ∃ i', Asleep (names.eraseIdx k) (seats.eraseIdx k) n id i' := by
  obtain ⟨hname, ⟨s, hs, hrest⟩, hfirst⟩ := h
  rcases Nat.lt_or_gt_of_ne hki with hk | hk
  · refine ⟨i - 1, ?_, ⟨s, ?_, hrest⟩, fun j t hj ht => ?_⟩
    · rwa [List.getElem?_eraseIdx_of_ge (by omega), Nat.sub_add_cancel (by omega)]
    · rwa [List.getElem?_eraseIdx_of_ge (by omega), Nat.sub_add_cancel (by omega)]
    · rw [List.getElem?_eraseIdx] at ht
      split at ht
      · exact hfirst j t (by omega) ht
      · exact hfirst (j + 1) t (by omega) ht
  · refine ⟨i, ?_, ⟨s, ?_, hrest⟩, fun j t hj ht => ?_⟩
    · rwa [List.getElem?_eraseIdx_of_lt hk]
    · rwa [List.getElem?_eraseIdx_of_lt hk]
    · rw [List.getElem?_eraseIdx_of_lt (hj.trans hk)] at ht
      exact hfirst j t hj ht

/-- Who is suspended keeps being so through a tick, which is spent on others. -/
theorem Asleep.chosen (hm : Sound m) (h : Asleep m.names m.sch.rota.seats n id i) {r : Rota}
    {n' : TaskName} (hc : m.sch.rota.choose = some (k, r)) (hn : m.names[k]? = some n') :
    n' ≠ n ∧ k ≠ i ∧ ∃ s, r.seats[k]? = some s ∧ ∀ task, Asleep m.names
      (r.set k { s with task, quanta := s.quanta + 1 }).seats n id i := by
  obtain ⟨hk, s, hs, hready⟩ := Rota.keeps_choose (Nat.zero_lt_of_lt hm.named.cursor_lt) hc
  have h' := h.keeps hk
  rw [Seat.isReady, Bool.and_eq_true, Bool.not_eq_true', Bool.not_eq_true'] at hready
  have hki : k ≠ i := by
    rintro rfl
    obtain ⟨s', hs', -, hsuspended, -⟩ := h'.seat
    cases hs.symm.trans hs'
    cases hsuspended.symm.trans hready.2
  refine ⟨?_, hki, s, hs, fun task => h'.set hs hki hready.1 rfl⟩
  rintro rfl
  have hlt := (List.getElem?_eq_some_iff.mp hn).1
  exact hki ((List.getElem?_inj hlt hm.names_nodup).mp (hn.trans h.name.symm))

/-- The task goes on sleeping, or it has left. -/
def Sleeps (m : Roster) (n : TaskName) (id : UInt32) : Prop :=
  (∃ i, Asleep m.names m.sch.rota.seats n id i) ∨ Out m n

/-- Who is taken out of the row is out of it. -/
theorem out_of_erased (hm : Sound m) (hn : m.names[i]? = some n) (sch : Scheduler) :
    Out { m with sch, names := m.names.eraseIdx i } n := by
  refine ⟨fun hmem => ?_, hm.serial_lt (List.mem_of_getElem? hn)⟩
  obtain ⟨j, hj, hname⟩ := List.mem_eraseIdx_iff_getElem?.mp hmem
  have hlt := (List.getElem?_eq_some_iff.mp hname).1
  exact hj ((List.getElem?_inj hlt hm.names_nodup).mp (hname.trans hn.symm))

/-- **What one operation does to a suspended task.**  It does not work on the task, and leaves it
suspended or takes it out of the row, unless it resumes the task. -/
theorem Sleeps.step (hm : Sound m) (h : Sleeps m n id) (hs : Step m e m') :
    (e ≠ .worked n ∧ Sleeps m' n id) ∨
      (e = .change ∧ (m.sch.resume id).1 = true ∧
        m' = { m with sch := (m.sch.resume id).2 }) := by
  rcases h with ⟨i, h⟩ | h
  case inr =>
    obtain ⟨h', hne⟩ := h.step hs
    exact .inl ⟨hne, .inr h'⟩
  have hall : Asleep m.enrolAll.names m.enrolAll.sch.rota.seats n id i := by
    obtain ⟨ns, ss, hnames, hseats, -⟩ := enrolAll_row m
    rw [hnames, hseats]
    exact h.append ns ss
  obtain ⟨hm', -⟩ := joins_enrolAll hm
  cases hs with
  | spawn task priority => exact .inl ⟨nofun, .inl ⟨i, h.append _ _⟩⟩
  | post => exact .inl ⟨nofun, .inl ⟨i, h⟩⟩
  | setSuspended id' b =>
    obtain heq | ⟨k, s', hs', hid', -, heq⟩ := m.sch.setSuspended_cases id' b
    · rw [heq]
      exact .inl ⟨nofun, .inl ⟨i, h⟩⟩
    by_cases hkeep : k = i → b = true
    case pos =>
      rw [heq]
      exact .inl ⟨nofun, .inl ⟨i, h.modify hkeep⟩⟩
    -- The task itself is resumed, and by its own number.
    obtain ⟨rfl, hb⟩ := Classical.not_imp.mp hkeep
    obtain rfl : b = false := by simpa using hb
    obtain ⟨s, hs, hid, -⟩ := h.seat
    cases hs.symm.trans hs'
    obtain rfl : id = id' := hid.symm.trans hid'
    exact .inr ⟨rfl, by rw [Scheduler.resume, heq], rfl⟩
  | @cancel σ hooks id' k report sch s s' st st' hcancel hk =>
    refine .inl ⟨nofun, ?_⟩
    by_cases hki : k = i
    · subst hki
      exact .inr (out_of_erased hm h.name sch)
    · obtain ⟨i', h'⟩ := h.eraseIdx hki
      refine .inl ⟨i', ?_⟩
      show Asleep (m.names.eraseIdx k) sch.rota.seats n id i'
      rw [Scheduler.cancel_rota hcancel hk]
      exact h'
  | cancelNothing hcancel =>
    rw [Scheduler.cancel_nothing hcancel]
    exact .inl ⟨nofun, .inl ⟨i, h⟩⟩
  | @sleep σ hooks ms sch s s' st st' hsleep =>
    refine .inl ⟨nofun, .inl ⟨i, ?_⟩⟩
    show Asleep m.names sch.rota.seats n id i
    rw [Scheduler.sleep_rota hsleep]
    exact h
  | idle htick =>
    rw [(enrolled_of_idle hm htick).1]
    exact .inl ⟨nofun, .inl ⟨i, hall⟩⟩
  | @ran fuel σ hooks id' sch s s' st st' k r n' htick hc hn =>
    obtain ⟨hne, -, seat, hseat, hset⟩ := hall.chosen hm' hc hn
    rw [Scheduler.tick_eq, ← enrolAll_sch, hc] at htick
    simp only [hseat] at htick
    obtain ⟨task, ⟨-, hrota⟩ | ⟨report, ht, -⟩⟩ := Scheduler.workAt_rota htick
    · refine .inl ⟨by rintro ⟨⟩; exact hne rfl, .inl ⟨i, ?_⟩⟩
      show Asleep m.enrolAll.names sch.rota.seats n id i
      rw [hrota]
      exact hset task
    · cases ht
  | @finished fuel σ hooks report sch s s' st st' k r n' htick hc hn =>
    obtain ⟨hne, hki, seat, hseat, hset⟩ := hall.chosen hm' hc hn
    rw [Scheduler.tick_eq, ← enrolAll_sch, hc] at htick
    simp only [hseat] at htick
    obtain ⟨task, ⟨ht, -⟩ | ⟨report, -, hrota⟩⟩ := Scheduler.workAt_rota htick
    · cases ht
    · obtain ⟨i', h'⟩ := (hset task).eraseIdx hki
      refine .inl ⟨by rintro ⟨⟩; exact hne rfl, .inl ⟨i', ?_⟩⟩
      show Asleep (m.enrolAll.names.eraseIdx k) sch.rota.seats n id i'
      rw [hrota]
      exact h'

/-- **What a run does to a suspended task.**  If it works on the task at all, then there is a
beginning in which it does not, and then the task is resumed. -/
theorem Sleeps.run (hm : Sound m) (h : Sleeps m n id) (hr : Run m log m') (hn : n ∈ works log) :
    ∃ before m₁ after, log = before ++ (m₁, .change) :: after ∧ Run m before m₁ ∧
      n ∉ works before ∧ (m₁.sch.resume id).1 = true ∧
      Run { m₁ with sch := (m₁.sch.resume id).2 } after m' := by
  induction hr with
  | nil => cases hn
  | @cons m m₁ m' e log hs hrest ih =>
    rcases h.step hm hs with ⟨hne, h₁⟩ | ⟨rfl, hresume, rfl⟩
    · have hn' := (mem_works_cons.mp hn).resolve_left hne
      obtain ⟨before, m₂, after, rfl, hbefore, hnot, hresume, hafter⟩ :=
        ih (moves_of_step hm hs).1 h₁ hn'
      refine ⟨(m, e) :: before, m₂, after, rfl, .cons hs hbefore, ?_, hresume, hafter⟩
      rw [mem_works_cons, not_or]
      exact ⟨hne, hnot⟩
    · exact ⟨[], m, log, rfl, .nil m, List.not_mem_nil, hresume, hrest⟩

/-! ## Who is reached -/

/-- A task in the row that is not idle, its name, its position, and no seat before it with its
number. -/
structure Known (m : Roster) (n : TaskName) (i : Nat) (s : Seat) : Prop where
  name : m.names[i]? = some n
  seat : m.sch.rota.seats[i]? = some s
  busy : s.task.isIdle = false
  first : ∀ (j : Nat) (t : Seat), j < i → m.sch.rota.seats[j]? = some t → t.id ≠ s.id

variable {s : Seat}

theorem Known.position? (h : Known m n i s) : m.sch.rota.position? s.id = some i := by
  obtain ⟨hi, hget⟩ := List.getElem?_eq_some_iff.mp h.seat
  have hfind : m.sch.rota.seats.findIdx? (·.id == s.id) = some i := by
    refine List.findIdx?_eq_some_iff_getElem.mpr ⟨hi, by simp [hget], fun j hj => ?_⟩
    simpa using h.first j _ hj (List.getElem?_eq_getElem (hj.trans hi))
  rw [Rota.position?, hfind]
  simp [h.seat, h.busy]

theorem Known.findIdx? (h : Known m n i s) :
    m.sch.rota.seats.findIdx? (fun t => t.id == s.id && !t.task.isIdle) = some i := by
  obtain ⟨hi, hget⟩ := List.getElem?_eq_some_iff.mp h.seat
  refine List.findIdx?_eq_some_iff_getElem.mpr ⟨hi, by simp [hget, h.busy], fun j hj => ?_⟩
  have hne := h.first j _ hj (List.getElem?_eq_getElem (hj.trans hi))
  simp [hne]

theorem Known.suspend (h : Known m n i s) : (m.sch.suspend s.id).1 = true ∧
    Sleeps { m with sch := (m.sch.suspend s.id).2 } n s.id := by
  have hset : m.sch.suspend s.id = (true, { m.sch with rota := { m.sch.rota with
      seats := m.sch.rota.seats.modify i fun s => { s with suspended := true } } }) := by
    rw [Scheduler.suspend, Scheduler.setSuspended, h.findIdx?]
  rw [hset]
  refine ⟨rfl, .inl ⟨i, h.name, ⟨{ s with suspended := true }, ?_, rfl, rfl, h.busy⟩, ?_⟩⟩
  · show (m.sch.rota.seats.modify i _)[i]? = _
    rw [List.getElem?_modify_eq, h.seat]
    rfl
  · intro j t hj ht hid
    have ht' : (m.sch.rota.seats.modify i fun s => { s with suspended := true })[j]? = some t := ht
    rw [List.getElem?_modify_ne _ _ (Nat.ne_of_gt hj)] at ht'
    exact absurd hid (h.first j t hj ht')

theorem Known.cancel (h : Known m n i s) {σ : Type} {hooks : Hooks σ} {mailbox : Mailbox}
    {a a' : σ} {st st' : Store}
    (hhook : hooks.onRemove (s.report .cancelled) m.sch.mailbox a st =
      some ((((), mailbox), a'), st')) :
    Scheduler.cancel hooks s.id m.sch a st = some (((some (s.report .cancelled),
      { m.sch with rota := m.sch.rota.remove i, mailbox }), a'), st') := by
  rw [Scheduler.cancel_eq, h.position?]
  simp only [h.seat]
  rw [Scheduler.remove_eq, hhook]
  rfl

/-- **Cancelling and suspending reach the row, and only the row.**  Of a task in the row `cancel`
hands back the report, and the task is never worked on again, whatever operations follow; after
`suspend` it is not worked on before it is resumed.  Of a task in the mailbox they know nothing: it
goes on as if they had not been asked, and stands in the row, ready, when the next tick begins. -/
theorem reach_of_row (hm : Reachable m) :
    (∀ n i s, Known m n i s →
      (∀ {σ : Type} (hooks : Hooks σ) (mailbox : Mailbox) (a a' : σ) (st st' : Store),
        hooks.onRemove (s.report .cancelled) m.sch.mailbox a st =
          some ((((), mailbox), a'), st') →
        ∃ sch, Scheduler.cancel hooks s.id m.sch a st =
            some (((some (s.report .cancelled), sch), a'), st') ∧
          ∀ log m', Run { m with sch, names := m.names.eraseIdx i } log m' → n ∉ works log) ∧
      (m.sch.suspend s.id).1 = true ∧
      ∀ log m', Run { m with sch := (m.sch.suspend s.id).2 } log m' → n ∈ works log →
        ∃ before m₁ after, log = before ++ (m₁, .change) :: after ∧
          Run { m with sch := (m.sch.suspend s.id).2 } before m₁ ∧ n ∉ works before ∧
          (m₁.sch.resume s.id).1 = true ∧
          Run { m₁ with sch := (m₁.sch.resume s.id).2 } after m') ∧
    ∀ arrival ∈ m.sch.mailbox.arrivals, (∀ s ∈ m.sch.rota.seats, s.id ≠ arrival.id) →
      (∀ {σ : Type} (hooks : Hooks σ) (a : σ) (st : Store),
        Scheduler.cancel hooks arrival.id m.sch a st = some (((none, m.sch), a), st)) ∧
      (∀ b, m.sch.setSuspended arrival.id b = (false, m.sch)) ∧
      ∃ s ∈ m.sch.enrolAll.rota.seats, s.id = arrival.id ∧ s.task = arrival.task ∧
        s.suspended = false := by
  refine ⟨fun n i s h => ⟨fun hooks mailbox a a' st st' hhook => ?_, h.suspend.1, ?_⟩, ?_⟩
  · refine ⟨_, h.cancel hhook, fun log m' hr => ?_⟩
    exact (out_of_erased hm.sound h.name _).run hr
  · intro log m' hr hn
    have hsound := (moves_of_step hm.sound (.setSuspended m s.id true)).1
    exact h.suspend.2.run hsound hr hn
  · intro arrival harrival habsent
    refine ⟨fun hooks a st => Scheduler.cancel_of_absent habsent,
      Scheduler.setSuspended_of_absent habsent, ?_⟩
    obtain ⟨ns, ss, -, hseats, -, -, hnew⟩ := enrolAll_row m
    rw [← enrolAll_sch, hseats]
    exact ⟨_, List.mem_append_right _ (hnew arrival harrival), rfl, rfl, rfl⟩

/-- A task that is done as soon as it is worked on. -/
def brief : Task := .frame (.start (.number 1) ⟨0⟩)

/-- The report of such a task. -/
def briefReport (quanta steps : Nat) (outcome : Outcome) : Report :=
  { id := 1, kind := "FrameTask", priority := 20, quanta, steps, outcome }

/-- One task in the row and one in the mailbox. -/
def twoWays : Roster where
  sch := (((Scheduler.new {}).spawn brief 20).2.post brief 20).2
  names := [⟨0, Rota.idlePriority⟩, ⟨1, 20⟩]
  next := 2

/-- The same with the one in the row suspended. -/
def oneSuspended : Roster := { twoWays with sch := (twoWays.sch.suspend 1).2 }

/-- The one in the row was resumed and worked on, and has left. -/
def oneLeft : Roster where
  sch :=
    { settings := {}
      rota :=
        { seats := [Scheduler.idleSeat, { id := 2, priority := 20, level := -19, task := brief }]
          cursor := 1 }
      mailbox := { nextId := 3 } }
  names := [⟨0, Rota.idlePriority⟩, ⟨2, 20⟩]
  next := 3

theorem reach_of_row_of_twoWays :
    (∃ sch, Scheduler.cancel ({} : Hooks Unit) 1 twoWays.sch () {} =
        some (((some (briefReport 0 0 .cancelled), sch), ()), {}) ∧
      ∀ log m', Run { twoWays with sch, names := twoWays.names.eraseIdx 1 } log m' →
        ⟨1, 20⟩ ∉ works log) ∧
    (twoWays.sch.suspend 1).1 = true ∧
    (∃ log, Run oneSuspended log oneLeft ∧ ⟨1, 20⟩ ∈ works log ∧
      ∃ before m₁ after, log = before ++ (m₁, .change) :: after ∧ Run oneSuspended before m₁ ∧
        ⟨1, 20⟩ ∉ works before) ∧
    Scheduler.cancel ({} : Hooks Unit) 2 twoWays.sch () {} =
      some (((none, twoWays.sch), ()), {}) := by
  have hreach : Reachable twoWays :=
    ⟨{}, [(_, .change), (_, .change)],
      .cons (.spawn _ brief 20) (.cons (.post _ brief 20) (.nil _))⟩
  have hknown : Known twoWays ⟨1, 20⟩ 1
      { id := 1, priority := 20, level := 20, task := brief } := by
    refine ⟨rfl, rfl, rfl, fun j t hj ht => ?_⟩
    obtain rfl : j = 0 := by omega
    cases ht
    decide
  have htick : Scheduler.tick 3 ({} : Hooks Unit) (oneSuspended.sch.resume 1).2 () {} =
      some (((.finished (briefReport 1 1 (.completed (.number 1))), oneLeft.sch), ()), {}) := by cbv
  have hrun : Run oneSuspended [(oneSuspended, .change),
      ({ oneSuspended with sch := (oneSuspended.sch.resume 1).2 }, .worked ⟨1, 20⟩)] oneLeft :=
    .cons (.setSuspended _ 1 false) (.cons (.finished htick rfl rfl) (.nil _))
  obtain ⟨hrow, hmailbox⟩ := reach_of_row hreach
  obtain ⟨hcancel, hsuspend, hsleep⟩ := hrow _ _ _ hknown
  obtain ⟨before, m₁, after, hlog, hbefore, hnot, -⟩ := hsleep _ _ hrun (by decide)
  obtain ⟨hnothing, -⟩ := hmailbox ⟨2, 20, brief⟩ (List.mem_singleton_self _) (by decide)
  exact ⟨hcancel {} _ () () {} {} rfl, hsuspend,
    ⟨_, hrun, by decide, before, m₁, after, hlog, hbefore, hnot⟩, hnothing {} () {}⟩

/-- A task is posted and gets the number 1, and the scheduler has one task.  There is nothing to
cancel or to suspend under that number all the same, and the next tick works on the task. -/
theorem posted_out_of_reach :
    ∃ m : Roster, m.Reachable ∧ ((Scheduler.new {}).post brief 20) = (1, m.sch) ∧ m.sch.size = 1 ∧
      Scheduler.cancel ({} : Hooks Unit) 1 m.sch () {} = some (((none, m.sch), ()), {}) ∧
      m.sch.suspend 1 = (false, m.sch) ∧
      ∃ sch, Scheduler.tick 3 ({} : Hooks Unit) m.sch () {} =
        some (((.finished (briefReport 1 1 (.completed (.number 1))), sch), ()), {}) := by
  refine ⟨{ new {} with sch := ((Scheduler.new {}).post brief 20).2 },
    ⟨{}, [(_, .change)], .cons (.post _ brief 20) (.nil _)⟩, rfl, rfl, rfl, rfl,
    { settings := {}, rota := { seats := [Scheduler.idleSeat], cursor := 0 }
      mailbox := { nextId := 2 } }, ?_⟩
  cbv

end Roster

end LispEngines
