import LispEngines.Proofs.Schedule.Circle
import LispEngines.Proofs.Schedule.Ticking

/-!
# Histories of a scheduler

A roster is a scheduler together with a name for each of its seats.  The scheduler does
not know the names; a task gets one when it joins the row and takes it along when it
leaves.  With names one can say that the same task was worked on twice, whatever has
become of its position in the meantime, and although a task number may come up again.

* `Roster.Step`: one operation on a scheduler, with whatever hooks, fuel and store, and
  what it meant for the tasks: nothing, a tick without work, or a quantum for one task.
* `Roster.Run`: a sequence of operations with a log of them.  `Roster.Reachable`: what
  can come of a new scheduler.
* `Roster.Standing.Moves`: what an operation does to the circle of the seats.
* `Roster.moves_of_step`, `Roster.sound_of_run`: every operation is such a move, and the
  names, priorities and levels of a row fit one another at all times.
-/

namespace LispEngines

/-- A scheduler, the names of its seats in the order of the row, and the number of tasks
that have joined so far. -/
structure Roster where
  sch : Scheduler
  names : List TaskName
  next : Nat

/-- What an operation meant for the tasks. -/
inductive ScheduleEvent where
  /-- It was not a tick. -/
  | change
  /-- It was a tick, and no task was worked on. -/
  | idle
  /-- It was a tick that worked on a task. -/
  | worked (n : TaskName)
  deriving DecidableEq

/-- The task that was worked on. -/
def ScheduleEvent.task? : ScheduleEvent → Option TaskName
  | .worked n => some n
  | _ => none

namespace Roster

/-- The task with a given name is in the row and can be chosen. -/
def Ready (m : Roster) (n : TaskName) : Prop :=
  ∃ s, (n, s) ∈ m.names.zip m.sch.rota.seats ∧ s.isReady = true

/-- The names of the tasks that can be chosen. -/
def readyNames (m : Roster) : List TaskName :=
  ((m.names.zip m.sch.rota.seats).filter (·.2.isReady)).map Prod.fst

theorem mem_readyNames {m : Roster} {n : TaskName} : n ∈ m.readyNames ↔ m.Ready n := by
  constructor
  · intro h
    obtain ⟨⟨n, s⟩, he, rfl⟩ := List.mem_map.mp h
    exact ⟨s, List.mem_filter.mp he⟩
  · rintro ⟨s, hs, hr⟩
    exact List.mem_map.mpr ⟨(n, s), List.mem_filter.mpr ⟨hs, hr⟩, rfl⟩

/-! ## Operations -/

/-- A scheduler with the idle task alone. -/
def new (settings : ScheduleSettings) : Roster :=
  { sch := Scheduler.new settings, names := [⟨0, Rota.idlePriority⟩], next := 1 }

/-- A task joins the row. -/
def enrol (m : Roster) (a : Arrival) : Roster :=
  { sch := m.sch.enrol a, names := m.names ++ [⟨m.next, a.priority⟩], next := m.next + 1 }

/-- The posted tasks join the row. -/
def enrolAll (m : Roster) : Roster :=
  m.sch.mailbox.arrivals.foldl enrol
    { m with sch := { m.sch with mailbox := { m.sch.mailbox with arrivals := [] } } }

/-- One operation.  What hooks and tasks do is left open, and so is the store. -/
inductive Step : Roster → ScheduleEvent → Roster → Prop
  | spawn (m : Roster) (task : Task) (priority : Int32) :
      Step m .change
        { sch := (m.sch.spawn task priority).2, names := m.names ++ [⟨m.next, priority⟩],
          next := m.next + 1 }
  | post (m : Roster) (task : Task) (priority : Int32) :
      Step m .change { m with sch := (m.sch.post task priority).2 }
  | setSuspended (m : Roster) (id : UInt32) (suspended : Bool) :
      Step m .change { m with sch := (m.sch.setSuspended id suspended).2 }
  | cancel {m : Roster} {σ : Type} {hooks : Hooks σ} {id : UInt32} {i : Nat}
      {report : Report} {sch : Scheduler} {s s' : σ} {st st' : Store} :
      Scheduler.cancel hooks id m.sch s st = some (((some report, sch), s'), st') →
      m.sch.rota.position? id = some i →
      Step m .change { m with sch, names := m.names.eraseIdx i }
  | cancelNothing {m : Roster} {σ : Type} {hooks : Hooks σ} {id : UInt32}
      {sch : Scheduler} {s s' : σ} {st st' : Store} :
      Scheduler.cancel hooks id m.sch s st = some (((none, sch), s'), st') →
      Step m .change { m with sch }
  | sleep {m : Roster} {σ : Type} {hooks : Hooks σ} {ms : Nat} {sch : Scheduler}
      {s s' : σ} {st st' : Store} :
      Scheduler.sleep hooks m.sch s st = some (((ms, sch), s'), st') →
      Step m .change { m with sch }
  | idle {m : Roster} {fuel : Nat} {σ : Type} {hooks : Hooks σ} {sch : Scheduler}
      {s s' : σ} {st st' : Store} :
      Scheduler.tick fuel hooks m.sch s st = some (((.idle, sch), s'), st') →
      Step m .idle { m.enrolAll with sch }
  | ran {m : Roster} {fuel : Nat} {σ : Type} {hooks : Hooks σ} {id : UInt32}
      {sch : Scheduler} {s s' : σ} {st st' : Store} {i : Nat} {r : Rota} {n : TaskName} :
      Scheduler.tick fuel hooks m.sch s st = some (((.ran id, sch), s'), st') →
      m.enrolAll.sch.rota.choose = some (i, r) → m.enrolAll.names[i]? = some n →
      Step m (.worked n) { m.enrolAll with sch }
  | finished {m : Roster} {fuel : Nat} {σ : Type} {hooks : Hooks σ} {report : Report}
      {sch : Scheduler} {s s' : σ} {st st' : Store} {i : Nat} {r : Rota} {n : TaskName} :
      Scheduler.tick fuel hooks m.sch s st = some (((.finished report, sch), s'), st') →
      m.enrolAll.sch.rota.choose = some (i, r) → m.enrolAll.names[i]? = some n →
      Step m (.worked n) { m.enrolAll with sch, names := m.enrolAll.names.eraseIdx i }

/-- A log: the events, each with the roster before it. -/
abbrev Log := List (Roster × ScheduleEvent)

/-- The tasks that were worked on, in order. -/
def works (log : Log) : List TaskName := log.filterMap (·.2.task?)

/-- The number of quanta of a task. -/
def quanta (n : TaskName) (log : Log) : Nat := (works log).count n

/-- The number of ticks. -/
def ticks (log : Log) : Nat := log.countP (·.2 ≠ .change)

/-- A sequence of operations from one roster to another. -/
inductive Run : Roster → Log → Roster → Prop
  | nil (m : Roster) : Run m [] m
  | cons {m m₁ m' : Roster} {e : ScheduleEvent} {log : Log} :
      Step m e m₁ → Run m₁ log m' → Run m ((m, e) :: log) m'

/-- What can come of a new scheduler. -/
def Reachable (m : Roster) : Prop := ∃ settings log, Run (new settings) log m

theorem Run.append {m m₁ m' : Roster} {log log' : Log} (h : Run m log m₁) (h' : Run m₁ log' m') :
    Run m (log ++ log') m' := by
  induction h with
  | nil => exact h'
  | cons hs _ ih => exact .cons hs (ih h')

theorem Run.of_append {m m' : Roster} {log log' : Log} (h : Run m (log ++ log') m') :
    ∃ m₁, Run m log m₁ ∧ Run m₁ log' m' := by
  induction log generalizing m with
  | nil => exact ⟨m, .nil m, h⟩
  | cons x log ih =>
    cases h with
    | cons hs h =>
      obtain ⟨m₁, h₁, h₂⟩ := ih h
      exact ⟨m₁, .cons hs h₁, h₂⟩

theorem Reachable.after {m m' : Roster} {log : Log} (hm : Reachable m) (h : Run m log m') :
    Reachable m' := by
  obtain ⟨settings, log₀, h₀⟩ := hm
  exact ⟨settings, log₀ ++ log, h₀.append h⟩

/-! ## Standings -/

/-- The seats on the circle, and the number of tasks that have joined so far. -/
structure Standing where
  next : Nat
  circle : List NamedSeat

def standing (m : Roster) : Standing := { next := m.next, circle := m.sch.rota.circle m.names }

namespace Standing

/-- Names are distinct and not used up; the idle task has a seat; a seat has the priority
of its name and is due no later than a seat that starts from it. -/
structure Sound (x : Standing) : Prop where
  nodup : (x.circle.map Prod.fst).Nodup
  idle : ∃ e ∈ x.circle, e.2.task.isIdle = true
  fits : ∀ e ∈ x.circle, e.1.serial < x.next ∧ e.2.priority = e.1.priority ∧
    Rota.due e.2.level ≤ Rota.due e.1.priority

/-- Tasks that have joined, one after the other. -/
inductive Joins : Standing → Standing → Prop
  | refl (x) : Joins x x
  | join {next c₁ c₂ n s y} : n.serial = next → s.priority = n.priority → s.level = n.priority →
      Joins ⟨next + 1, c₁ ++ (n, s) :: c₂⟩ y → Joins ⟨next, c₁ ++ c₂⟩ y

/-- What an event does to the standing. -/
inductive Moves : ScheduleEvent → Standing → Standing → Prop
  | join {x y} : Joins x y → Moves .change x y
  | leave {next c n} : (∀ e ∈ c, e.1 = n → e.2.task.isIdle = false) →
      Moves .change ⟨next, c⟩ ⟨next, c.filter (·.1 ≠ n)⟩
  /-- Seats are suspended or made ready again. -/
  | alter {next c} (n f) : (∀ s, (f s).level = s.level ∧ (f s).priority = s.priority ∧
      (f s).task = s.task) → Moves .change ⟨next, c⟩ ⟨next, c.map (Rota.changed n f)⟩
  | idle {x y} : Joins x y → (∀ e ∈ y.circle, e.2.isReady = false) → Moves .idle x y
  /-- The task that was worked on stands at the end, and its level starts again. -/
  | worked {x next c n s s' rest} : Joins x ⟨next, c⟩ → Rota.Passes c ((n, s) :: rest) →
      s.isReady = true → Rota.due s.level = 1 → s'.level = s.priority → s'.priority = s.priority →
      Moves (.worked n) x ⟨next, rest ++ [(n, s')]⟩
  /-- The task that was worked on has left. -/
  | last {x next c n s rest} : Joins x ⟨next, c⟩ → Rota.Passes c ((n, s) :: rest) →
      s.isReady = true → Rota.due s.level = 1 → Moves (.worked n) x ⟨next, rest⟩

/-! ### What moves preserve -/

/-- The head of the circle goes to the end. -/
theorem Sound.turn {next : Nat} {n : TaskName} {s s' : Seat} {rest : List NamedSeat}
    (h : Sound ⟨next, (n, s) :: rest⟩) (hidle : s.task.isIdle = true → s'.task.isIdle = true)
    (hpriority : s'.priority = s.priority) (hdue : Rota.due s'.level ≤ Rota.due n.priority) :
    Sound ⟨next, rest ++ [(n, s')]⟩ := by
  obtain ⟨hnodup, ⟨e, he, hi⟩, hfits⟩ := h
  refine ⟨?_, ?_, fun e he => ?_⟩
  · simp only [List.map_append, List.map_cons, List.map_nil, List.nodup_append_comm]
    simpa using hnodup
  · rcases List.mem_cons.mp he with rfl | he
    · exact ⟨(n, s'), by simp, hidle hi⟩
    · exact ⟨e, by simp [he], hi⟩
  · rcases List.mem_append.mp he with he | he
    · exact hfits e (List.mem_cons_of_mem _ he)
    · obtain rfl := List.mem_singleton.mp he
      have hhead := hfits _ List.mem_cons_self
      exact ⟨hhead.1, hpriority.trans hhead.2.1, hdue⟩

/-- All seats change and keep their names. -/
theorem Sound.map {next : Nat} {c : List NamedSeat} {f : NamedSeat → NamedSeat}
    (h : Sound ⟨next, c⟩) (hname : ∀ e, (f e).1 = e.1)
    (htask : ∀ e, (f e).2.task = e.2.task) (hpriority : ∀ e, (f e).2.priority = e.2.priority)
    (hdue : ∀ e ∈ c, Rota.due (f e).2.level ≤ Rota.due e.2.level) : Sound ⟨next, c.map f⟩ := by
  obtain ⟨hnodup, ⟨e, he, hi⟩, hfits⟩ := h
  have hnames : (c.map f).map Prod.fst = c.map Prod.fst := by
    rw [List.map_map]
    exact List.map_congr_left fun e _ => hname e
  refine ⟨by rwa [hnames], ⟨f e, List.mem_map_of_mem he, by rw [htask]; exact hi⟩, ?_⟩
  rintro _ hmem
  obtain ⟨e, he, rfl⟩ := List.mem_map.mp hmem
  obtain ⟨hserial, hprio, hlevel⟩ := hfits e he
  rw [hname, hpriority]
  exact ⟨hserial, hprio, Nat.le_trans (hdue e he) hlevel⟩

theorem Sound.join {next : Nat} {c₁ c₂ : List NamedSeat} {n : TaskName} {s : Seat}
    (h : Sound ⟨next, c₁ ++ c₂⟩) (hserial : n.serial = next) (hpriority : s.priority = n.priority)
    (hlevel : s.level = n.priority) : Sound ⟨next + 1, c₁ ++ (n, s) :: c₂⟩ := by
  obtain ⟨hnodup, ⟨e, he, hi⟩, hfits⟩ := h
  have hfresh : n ∉ (c₁ ++ c₂).map Prod.fst := by
    intro hmem
    obtain ⟨e, he, rfl⟩ := List.mem_map.mp hmem
    exact Nat.lt_irrefl _ (hserial ▸ (hfits e he).1)
  refine ⟨?_, ⟨e, ?_, hi⟩, fun e he => ?_⟩
  · rw [List.map_append, List.map_cons, List.nodup_middle, List.nodup_cons, ← List.map_append]
    exact ⟨hfresh, hnodup⟩
  · rcases List.mem_append.mp he with he | he <;> simp [he]
  · by_cases hnew : e = (n, s)
    · subst hnew
      exact ⟨by simp [hserial], hpriority, by rw [hlevel]⟩
    · have hold : e ∈ c₁ ++ c₂ := by
        rcases List.mem_append.mp he with he | he
        · exact List.mem_append_left _ he
        · exact List.mem_append_right _ ((List.mem_cons.mp he).resolve_left hnew)
      exact ⟨Nat.lt_succ_of_lt (hfits e hold).1, (hfits e hold).2⟩

theorem Sound.joins {x y : Standing} (h : Sound x) (hj : Joins x y) : Sound y := by
  induction hj with
  | refl => exact h
  | join hs hp hl _ ih => exact ih (h.join hs hp hl)

theorem Sound.leave {next : Nat} {c : List NamedSeat} {n : TaskName} (h : Sound ⟨next, c⟩)
    (hidle : ∀ e ∈ c, e.1 = n → e.2.task.isIdle = false) :
    Sound ⟨next, c.filter (·.1 ≠ n)⟩ := by
  obtain ⟨hnodup, ⟨e, he, hi⟩, hfits⟩ := h
  have hsub : (c.filter (·.1 ≠ n)).Sublist c := List.filter_sublist
  refine ⟨hnodup.sublist (hsub.map _), ⟨e, ?_, hi⟩, fun e he => hfits e (hsub.subset he)⟩
  rw [List.mem_filter]
  refine ⟨he, ?_⟩
  have hne : e.1 ≠ n := fun heq => by simp [hidle e he heq] at hi
  simpa using hne

theorem Sound.passes {next : Nat} {c c' : List NamedSeat} (h : Sound ⟨next, c⟩)
    (hp : Rota.Passes c c') : Sound ⟨next, c'⟩ := by
  induction hp with
  | refl => exact h
  | idle _ _ ih => exact ih (h.turn id rfl (h.fits _ List.mem_cons_self).2.2)
  | wait _ hdue _ ih =>
    have hle := (h.fits _ List.mem_cons_self).2.2
    refine ih (h.turn id rfl (Nat.le_trans ?_ hle))
    rw [Rota.due_lower_one hdue]
    exact Nat.sub_le _ _
  | leap laps hpos hlt _ ih =>
    refine ih (h.map (Rota.worn_fst laps) (fun e => ?_) (fun e => ?_) (fun e he => ?_))
    · unfold Rota.worn
      split <;> rfl
    · unfold Rota.worn
      split <;> rfl
    · unfold Rota.worn
      split
      · next hr =>
        have hd := Rota.due_lower hpos (hlt e he hr)
        simp only
        omega
      · exact Nat.le_refl _

/-- **What one operation preserves**, in terms of the circle. -/
theorem Sound.moves {e : ScheduleEvent} {x y : Standing} (h : Sound x) (hm : Moves e x y) :
    Sound y := by
  cases hm with
  | join hj => exact h.joins hj
  | leave hidle => exact h.leave hidle
  | alter n f hf =>
    refine h.map (fun e => ?_) (fun e => ?_) (fun e => ?_) (fun e _ => ?_) <;>
      unfold Rota.changed <;> split <;> simp [hf]
  | idle hj => exact h.joins hj
  | worked hj hp hr _ hlevel hpriority =>
    have hhead := (h.joins hj).passes hp
    have hsame := (hhead.fits _ List.mem_cons_self).2.1
    refine hhead.turn (fun hi => ?_) hpriority ?_
    · simp [Seat.isReady, hi] at hr
    · rw [hlevel, hsame]
  | last hj hp hr =>
    obtain ⟨hnodup, ⟨e, he, hi⟩, hfits⟩ := (h.joins hj).passes hp
    refine ⟨hnodup.of_cons, ⟨e, ?_, hi⟩, fun e he => hfits e (List.mem_cons_of_mem _ he)⟩
    rcases List.mem_cons.mp he with rfl | he
    · simp [Seat.isReady, hi] at hr
    · exact he

end Standing

/-! ## Operations as moves -/

/-- A row with fitting names, and a sound standing. -/
structure Sound (m : Roster) : Prop where
  named : Rota.Named m.names m.sch.rota
  stands : m.standing.Sound

theorem Sound.names_nodup {m : Roster} (h : Sound m) : m.names.Nodup := by
  have hfst : (m.names.zip m.sch.rota.seats).map Prod.fst = m.names :=
    List.map_fst_zip (Nat.le_of_eq h.named.length_eq)
  have hnodup := h.stands.nodup
  rw [Roster.standing, Rota.circle, List.map_rotate, hfst, List.nodup_rotate] at hnodup
  exact hnodup

/-- The names in a row are used up. -/
theorem Sound.serial_lt {m : Roster} (h : Sound m) {n : TaskName} (hn : n ∈ m.names) :
    n.serial < m.next := by
  have hmem : n ∈ m.standing.circle.map Prod.fst := by
    rwa [standing, Rota.circle, List.map_rotate, List.mem_rotate,
      List.map_fst_zip (Nat.le_of_eq h.named.length_eq)]
  obtain ⟨e, he, rfl⟩ := List.mem_map.mp hmem
  exact (h.stands.fits e he).1

theorem sound_new (settings : ScheduleSettings) : Sound (new settings) := by
  have hcircle : (new settings).standing.circle =
      [(⟨0, Rota.idlePriority⟩,
        { id := 0, priority := Rota.idlePriority, level := Rota.idlePriority, task := .idle })] :=
    rfl
  refine ⟨⟨rfl, Nat.zero_lt_one⟩, ⟨?_, ?_, ?_⟩⟩
  · rw [hcircle]
    exact List.nodup_singleton _
  · rw [hcircle]
    exact ⟨_, List.mem_singleton_self _, rfl⟩
  · intro e he
    rw [hcircle] at he
    obtain rfl := List.mem_singleton.mp he
    exact ⟨Nat.zero_lt_one, rfl, Nat.le_refl _⟩

/-- Posting leaves the row alone. -/
theorem Sound.of_rota_eq {m : Roster} (h : Sound m) {sch : Scheduler}
    (hrota : sch.rota = m.sch.rota) :
    Sound { m with sch } ∧ ({ m with sch } : Roster).standing = m.standing := by
  obtain ⟨hnamed, hst⟩ := h
  have hsame : ({ m with sch } : Roster).standing = m.standing := by
    rw [Roster.standing, Roster.standing, hrota]
  exact ⟨⟨by rw [hrota]; exact hnamed, by rw [hsame]; exact hst⟩, hsame⟩

theorem standing_enrol {m : Roster} (h : Sound m) (a : Arrival) :
    Sound (m.enrol a) ∧ Standing.Joins m.standing (m.enrol a).standing := by
  obtain ⟨c₁, c₂, hc, hc'⟩ := Rota.circle_insert h.named ⟨m.next, a.priority⟩
    { id := a.id, priority := a.priority, level := a.priority, task := a.task }
  have hjoins : Standing.Joins m.standing (m.enrol a).standing := by
    have hnew : (m.enrol a).standing = ⟨m.next + 1, c₁ ++ (⟨m.next, a.priority⟩,
        { id := a.id, priority := a.priority, level := a.priority, task := a.task }) :: c₂⟩ := by
      rw [standing, enrol, Scheduler.enrol, ← hc']
    rw [hnew, standing, hc]
    exact .join rfl rfl rfl (.refl _)
  exact ⟨⟨h.named.insert _ _, h.stands.joins hjoins⟩, hjoins⟩

theorem Standing.Joins.trans {x y z : Standing} (h : Joins x y) (h' : Joins y z) : Joins x z := by
  induction h with
  | refl => exact h'
  | join hs hp hl _ ih => exact .join hs hp hl (ih h')

theorem joins_foldl_enrol (arrivals : List Arrival) {m : Roster} (h : Sound m) :
    Sound (arrivals.foldl enrol m) ∧
      Standing.Joins m.standing (arrivals.foldl enrol m).standing := by
  induction arrivals generalizing m with
  | nil => exact ⟨h, .refl _⟩
  | cons a arrivals ih =>
    obtain ⟨h₁, hj⟩ := standing_enrol h a
    obtain ⟨h₂, hj'⟩ := ih h₁
    exact ⟨h₂, hj.trans hj'⟩

theorem foldl_enrol_sch (arrivals : List Arrival) (m : Roster) :
    (arrivals.foldl enrol m).sch = arrivals.foldl Scheduler.enrol m.sch := by
  induction arrivals generalizing m with
  | nil => rfl
  | cons a arrivals ih => exact ih (m.enrol a)

theorem enrolAll_sch (m : Roster) : m.enrolAll.sch = m.sch.enrolAll :=
  foldl_enrol_sch _ _

theorem joins_enrolAll {m : Roster} (h : Sound m) :
    Sound m.enrolAll ∧ Standing.Joins m.standing m.enrolAll.standing := by
  obtain ⟨h', hsame⟩ := @Sound.of_rota_eq _ h { m.sch with
    mailbox := { m.sch.mailbox with arrivals := [] } } rfl
  rw [← hsame]
  exact joins_foldl_enrol _ h'

/-- The seat that was chosen, after its task was worked on, stands at the end of the circle;
if it leaves, the others stand as they did. -/
theorem circle_of_work {m : Roster} (h : Sound m) {i : Nat} {r : Rota} {n : TaskName}
    (hc : m.sch.rota.choose = some (i, r)) (hn : m.names[i]? = some n) :
    ∃ s rest, Rota.Passes (m.sch.rota.circle m.names) ((n, s) :: rest) ∧ s.isReady = true ∧
      Rota.due s.level = 1 ∧ r.seats[i]? = some { s with level := s.priority } ∧
      ∀ s', (Rota.Named m.names (r.set i s') ∧ (r.set i s').circle m.names = rest ++ [(n, s')]) ∧
        (Rota.Named (m.names.eraseIdx i) ((r.set i s').remove i) ∧
          ((r.set i s').remove i).circle (m.names.eraseIdx i) = rest) := by
  obtain ⟨c, hp, hchosen⟩ := Rota.passes_of_choose h.named hc
  obtain ⟨hnamed, n', s, rest, rfl, hready, hdue, hn', hseat, hcircle⟩ := hchosen
  obtain rfl : n' = n := Option.some.inj (hn'.symm.trans hn)
  obtain ⟨hnodup, ⟨e, he, hi⟩, -⟩ := h.stands.passes hp
  have hfresh := Rota.name_ne_of_nodup hnodup
  have hrest : rest ≠ [] := by
    rintro rfl
    obtain rfl := List.mem_singleton.mp he
    simp [Seat.isReady, hi] at hready
  refine ⟨s, rest, hp, hready, hdue, hseat, fun s' => ?_⟩
  have hset : r.set i s' = { r with seats := r.seats.modify i fun _ => s' } := by
    rw [Rota.set, List.set_eq_modify]
  have hnamed' : Rota.Named m.names (r.set i s') := by
    rw [hset]
    exact hnamed.modify i _
  have hcircle' : (r.set i s').circle m.names = rest ++ [(n', s')] := by
    have hkeep : rest.map (Rota.changed n' fun _ => s') = rest :=
      List.map_congr_left (fun e he => if_neg (hfresh e he)) |>.trans (List.map_id rest)
    rw [hset, Rota.circle_modify h.names_nodup hn, hcircle, List.map_append, hkeep]
    simp [Rota.changed]
  have hlt : i < (r.set i s').seats.length := by
    rw [← hnamed'.length_eq]
    exact (List.getElem?_eq_some_iff.mp hn).1
  have hmany : 1 < (r.set i s').seats.length := by
    have hpos := List.length_pos_of_ne_nil hrest
    rw [← hnamed'.length_circle, hcircle', List.length_append, List.length_singleton]
    omega
  refine ⟨⟨hnamed', hcircle'⟩, hnamed'.remove hlt hmany, ?_⟩
  have hkeep : rest.filter (·.1 ≠ n') = rest :=
    List.filter_eq_self.mpr fun e he => by simpa using hfresh e he
  rw [Rota.circle_remove hnamed' h.names_nodup hn, hcircle', List.filter_append, hkeep]
  simp

theorem name_of_seat {m : Roster} (h : Sound m) {i : Nat} {s : Seat}
    (hs : m.sch.rota.seats[i]? = some s) :
    ∃ n, m.names[i]? = some n ∧ (n, s) ∈ m.sch.rota.circle m.names := by
  obtain ⟨hlt, hget⟩ := List.getElem?_eq_some_iff.mp hs
  have hlt' : i < m.names.length := h.named.length_eq ▸ hlt
  refine ⟨m.names[i], List.getElem?_eq_getElem hlt', List.mem_rotate.mpr ?_⟩
  have hzip : i < (m.names.zip m.sch.rota.seats).length := by
    rw [List.length_zip]
    omega
  have hmem := List.getElem_mem hzip
  rwa [List.getElem_zip, hget] at hmem

/-- One name has one seat. -/
theorem Standing.Sound.seat_eq {x : Standing} (h : x.Sound) {n : TaskName} {s s' : Seat}
    (hs : (n, s) ∈ x.circle) (hs' : (n, s') ∈ x.circle) : s = s' := by
  have hpair := List.inj_on_of_nodup_map h.nodup hs hs' rfl
  exact congrArg Prod.snd hpair

/-- Who is cancelled leaves, and it is not the idle task. -/
theorem circle_of_cancel {m : Roster} (h : Sound m) {id : UInt32} {i : Nat}
    (hi : m.sch.rota.position? id = some i) :
    ∃ n, (∀ e ∈ m.sch.rota.circle m.names, e.1 = n → e.2.task.isIdle = false) ∧
      Rota.Named (m.names.eraseIdx i) (m.sch.rota.remove i) ∧
      (m.sch.rota.remove i).circle (m.names.eraseIdx i) =
        (m.sch.rota.circle m.names).filter (·.1 ≠ n) := by
  obtain ⟨s, hs, hidle⟩ := Rota.seat_of_position? hi
  obtain ⟨n, hn, hmem⟩ := name_of_seat h hs
  have hnot : ∀ e ∈ m.sch.rota.circle m.names, e.1 = n → e.2.task.isIdle = false := by
    rintro ⟨n', s'⟩ he rfl
    rw [h.stands.seat_eq he hmem]
    exact hidle
  -- The idle task has another seat, so the row does not become empty.
  have hmany : 1 < m.sch.rota.seats.length := by
    obtain ⟨e, he, hi'⟩ := h.stands.idle
    have hne : e ≠ (n, s) := by
      rintro rfl
      simp [hidle] at hi'
    rw [← h.named.length_circle]
    change e ∈ m.sch.rota.circle m.names at he
    rcases hc : m.sch.rota.circle m.names with _ | ⟨a, _ | ⟨b, l⟩⟩
    · rw [hc] at he
      cases he
    · rw [hc, List.mem_singleton] at he hmem
      exact absurd (he.trans hmem.symm) hne
    · simp only [List.length_cons]
      omega
  refine ⟨n, hnot, h.named.remove (List.getElem?_eq_some_iff.mp hs).1 hmany, ?_⟩
  exact Rota.circle_remove h.named h.names_nodup hn

/-- A tick without work found nobody ready. -/
theorem enrolled_of_idle {m : Roster} (h : Sound m) {fuel : Nat} {σ : Type} {hooks : Hooks σ}
    {sch : Scheduler} {s s' : σ} {st st' : Store}
    (htick : Scheduler.tick fuel hooks m.sch s st = some (((.idle, sch), s'), st')) :
    sch = m.enrolAll.sch ∧ ∀ seat ∈ m.enrolAll.sch.rota.seats, seat.isReady = false := by
  obtain ⟨hall, -⟩ := joins_enrolAll h
  rw [Scheduler.tick_eq, ← enrolAll_sch] at htick
  cases hc : m.enrolAll.sch.rota.choose with
  | none =>
    simp only [hc, Option.some.injEq, Prod.mk.injEq] at htick
    refine ⟨htick.1.1.2.symm, fun seat hseat => ?_⟩
    by_contra hready
    have hsome := (Rota.choose_isSome hall.named).mpr ⟨seat, hseat, by simpa using hready⟩
    simp [hc] at hsome
  | some p =>
    obtain ⟨i, r⟩ := p
    obtain ⟨c, -, hchosen⟩ := Rota.passes_of_choose hall.named hc
    obtain ⟨-, n, s, rest, -, -, -, hn, hseat, -⟩ := hchosen
    simp only [hc, hseat] at htick
    obtain ⟨task, ⟨ht, -⟩ | ⟨report, ht, -⟩⟩ := Scheduler.workAt_rota htick <;> cases ht

/-- **Every operation is a move of the circle.** -/
theorem moves_of_step {m m' : Roster} {e : ScheduleEvent} (h : Sound m) (hs : Step m e m') :
    Sound m' ∧ Standing.Moves e m.standing m'.standing := by
  have hmoved : ∀ {m' c}, Rota.Named m'.names m'.sch.rota → m'.sch.rota.circle m'.names = c →
      Standing.Moves e m.standing ⟨m'.next, c⟩ →
      Sound m' ∧ Standing.Moves e m.standing m'.standing := by
    rintro m' _ hn rfl hm
    exact ⟨⟨hn, h.stands.moves hm⟩, hm⟩
  obtain ⟨hall, hjoins⟩ := joins_enrolAll h
  cases hs with
  | spawn task priority =>
    obtain ⟨h', hj⟩ := standing_enrol (@Sound.of_rota_eq _ h { m.sch with
      mailbox := m.sch.mailbox.drawId.2 } rfl).1 ⟨m.sch.mailbox.drawId.1, priority, task⟩
    exact ⟨h', .join hj⟩
  | post task priority =>
    obtain ⟨h', hsame⟩ := @Sound.of_rota_eq _ h (m.sch.post task priority).2 rfl
    exact ⟨h', hsame ▸ .join (.refl _)⟩
  | setSuspended id suspended =>
    obtain heq | ⟨i, seat, hseat, -, -, heq⟩ := m.sch.setSuspended_cases id suspended <;> rw [heq]
    · exact ⟨h, .join (.refl _)⟩
    · obtain ⟨n, hn, -⟩ := name_of_seat h hseat
      exact hmoved (h.named.modify i _) (Rota.circle_modify h.names_nodup hn _)
        (.alter n _ fun s => ⟨rfl, rfl, rfl⟩)
  | @cancel σ hooks id i report sch s s' st st' hcancel hi =>
    obtain ⟨n, hidle, hnamed, hcircle⟩ := circle_of_cancel h hi
    have hrota : sch.rota = m.sch.rota.remove i := Scheduler.cancel_rota hcancel hi
    rw [← hrota] at hnamed hcircle
    exact hmoved hnamed hcircle (.leave hidle)
  | @cancelNothing σ hooks id sch s s' st st' hcancel =>
    obtain rfl : sch = m.sch := Scheduler.cancel_nothing hcancel
    exact ⟨h, .join (.refl _)⟩
  | sleep hsleep =>
    obtain ⟨h', hsame⟩ := h.of_rota_eq (Scheduler.sleep_rota hsleep)
    exact ⟨h', hsame ▸ .join (.refl _)⟩
  | @idle fuel σ hooks sch s s' st st' htick =>
    obtain ⟨rfl, hnot⟩ := enrolled_of_idle h htick
    exact ⟨hall, .idle hjoins fun e he => hnot _ (hall.named.mem_seats.mpr ⟨e.1, he⟩)⟩
  | @ran fuel σ hooks id sch s s' st st' i r n htick hc hn =>
    obtain ⟨seat, rest, hp, hready, hdue, hseat, hcircle⟩ := circle_of_work hall hc hn
    rw [Scheduler.tick_eq, ← enrolAll_sch, hc] at htick
    simp only [hseat] at htick
    obtain ⟨task, ⟨-, hrota⟩ | ⟨report, ht, -⟩⟩ := Scheduler.workAt_rota htick
    · obtain ⟨⟨hnamed, hc'⟩, -⟩ := hcircle { seat with
        level := seat.priority, task, quanta := seat.quanta + 1 }
      rw [← hrota] at hnamed hc'
      exact hmoved hnamed hc' (.worked hjoins hp hready hdue rfl rfl)
    · cases ht
  | @finished fuel σ hooks report sch s s' st st' i r n htick hc hn =>
    obtain ⟨seat, rest, hp, hready, hdue, hseat, hcircle⟩ := circle_of_work hall hc hn
    rw [Scheduler.tick_eq, ← enrolAll_sch, hc] at htick
    simp only [hseat] at htick
    obtain ⟨task, ⟨ht, -⟩ | ⟨report, ht, hrota⟩⟩ := Scheduler.workAt_rota htick
    · cases ht
    · obtain ⟨-, hnamed, hc'⟩ := hcircle { seat with
        level := seat.priority, task, quanta := seat.quanta + 1 }
      rw [← hrota] at hnamed hc'
      exact hmoved hnamed hc' (.last hjoins hp hready hdue)

/-- Tasks join, and the number of those that have joined never falls. -/
theorem Standing.Joins.next_le {x y : Standing} (h : Joins x y) : x.next ≤ y.next := by
  induction h with
  | refl => exact Nat.le_refl _
  | join _ _ _ _ ih => exact Nat.le_of_succ_le ih

theorem Standing.Moves.next_le {e : ScheduleEvent} {x y : Standing} (h : Moves e x y) :
    x.next ≤ y.next := by
  cases h with
  | join hj => exact hj.next_le
  | leave => exact Nat.le_refl _
  | alter => exact Nat.le_refl _
  | idle hj => exact hj.next_le
  | worked hj => exact hj.next_le
  | last hj => exact hj.next_le

theorem sound_of_run {m m' : Roster} {log : Log} (h : Sound m) (hr : Run m log m') : Sound m' := by
  induction hr with
  | nil => exact h
  | cons hs _ ih => exact ih (moves_of_step h hs).1

/-- The rosters of a log are sound, and know at least the tasks that the first one knows. -/
theorem sound_of_mem_log {m m' : Roster} {log : Log} (h : Sound m) (hr : Run m log m')
    {x : Roster × ScheduleEvent} (hx : x ∈ log) : Sound x.1 ∧ m.next ≤ x.1.next := by
  induction hr with
  | nil => cases hx
  | cons hs _ ih =>
    rcases List.mem_cons.mp hx with rfl | hx
    · exact ⟨h, Nat.le_refl _⟩
    · obtain ⟨h₁, hm⟩ := moves_of_step h hs
      obtain ⟨hsound, hle⟩ := ih h₁ hx
      exact ⟨hsound, Nat.le_trans hm.next_le hle⟩

theorem Reachable.sound {m : Roster} (h : Reachable m) : Sound m := by
  obtain ⟨settings, log, hr⟩ := h
  exact sound_of_run (sound_new settings) hr

end Roster

end LispEngines
