import LispEngines.Schedule.Scheduler
import Mathlib

/-!
# What the scheduler's operations do

One equation for each operation of the scheduler that calls hooks or works on a task.  It
names the few things that may stop it, which are the task and the hooks, and the rota and
mailbox it leaves.  Later proofs use these equations and do not unfold the operations.

What becomes of the tasks in the row is simpler.  Choosing a seat changes the cursor and levels of
seats that are ready, and nothing else (`Rota.still_choose`); a tick works on the task of one seat
(`Scheduler.tick_chosen`), which stays (`Scheduler.workAt_ran`) or leaves
(`Scheduler.workAt_finished`).
-/

namespace LispEngines

/-- The report of a tick that has one. -/
def Tick.report? : Tick → Option Report
  | .finished report => some report
  | _ => none

/-- The number of the idle task finds nothing. -/
theorem Rota.seat_of_position? {r : Rota} {id : UInt32} {i : Nat} (h : r.position? id = some i) :
    ∃ s, r.seats[i]? = some s ∧ s.task.isIdle = false := by
  unfold Rota.position? at h
  cases hfind : r.seats.findIdx? (·.id == id) with
  | none => simp [hfind] at h
  | some j =>
    obtain ⟨hlt, -⟩ := List.findIdx?_eq_some_iff_getElem.mp hfind
    simp only [hfind, List.getElem?_eq_getElem hlt, Option.any_some] at h
    split at h
    · cases h
    · next hidle =>
      obtain rfl : j = i := Option.some.inj h
      exact ⟨_, List.getElem?_eq_getElem hlt, by simpa using hidle⟩

/-- Suspending and resuming change one seat, if there is one with this number. -/
theorem Scheduler.setSuspended_cases (sch : Scheduler) (id : UInt32) (b : Bool) :
    sch.setSuspended id b = (false, sch) ∨
      ∃ i seat, sch.rota.seats[i]? = some seat ∧ seat.id = id ∧ seat.task.isIdle = false ∧
        sch.setSuspended id b = (true, { sch with rota := { sch.rota with
          seats := sch.rota.seats.modify i fun s => { s with suspended := b } } }) := by
  unfold setSuspended
  cases hfind : sch.rota.seats.findIdx? (fun s => s.id == id && !s.task.isIdle) with
  | none => exact .inl rfl
  | some i =>
    obtain ⟨hlt, hfound, -⟩ := List.findIdx?_eq_some_iff_getElem.mp hfind
    rw [Bool.and_eq_true, beq_iff_eq, Bool.not_eq_true'] at hfound
    exact .inr ⟨i, _, List.getElem?_eq_getElem hlt, hfound.1, hfound.2, rfl⟩

namespace Scheduler

variable {σ : Type}

theorem remove_eq (hooks : Hooks σ) (i : Nat) (seat : Seat) (outcome : Outcome)
    (sch : Scheduler) (s : σ) (st : Store) :
    remove hooks i seat outcome sch s st = (do
      let (((_, mailbox), s), st) ← hooks.onRemove (seat.report outcome) sch.mailbox s st
      some (((seat.report outcome, { sch with rota := sch.rota.remove i, mailbox }), s), st)) := by
  unfold remove callHook
  simp only [bind, StateT.bind, modify, modifyGet, MonadStateOf.modifyGet, StateT.modifyGet, pure,
    StateT.pure, Option.bind_some]
  cases hooks.onRemove (seat.report outcome) sch.mailbox s st <;> rfl

theorem workAt_eq (fuel : Nat) (hooks : Hooks σ) (i : Nat) (seat : Seat) (sch : Scheduler)
    (s : σ) (st : Store) :
    workAt fuel hooks i seat sch s st = (do
      let ((r, task), st) ← Task.work fuel (max 1 sch.settings.quantum) seat.task st
      let worked := { seat with task, quanta := seat.quanta + 1 }
      let sch := { sch with rota := sch.rota.set i worked }
      match outcome? task r with
      | none => some (((.ran seat.id, sch), s), st)
      | some outcome => do
        let (((_, sch), s), st) ← callHook (hooks.onComplete (worked.report outcome)) sch s st
        let (((report, sch), s), st) ← remove hooks i worked outcome sch s st
        some (((.finished report, sch), s), st)) := by
  unfold workAt
  simp only [bind, StateT.bind, modify, modifyGet, MonadStateOf.modifyGet, StateT.modifyGet, pure,
    StateT.pure, get, getThe, MonadStateOf.get, StateT.get, Option.bind_some, liftM, monadLift,
    MonadLift.monadLift, StateT.lift]
  cases Task.work fuel (max 1 sch.settings.quantum) seat.task st with
  | none => rfl
  | some p =>
    obtain ⟨⟨r, task⟩, st⟩ := p
    simp only [Option.bind_some]
    cases outcome? task r <;> rfl

theorem tick_eq (fuel : Nat) (hooks : Hooks σ) (sch : Scheduler) (s : σ) (st : Store) :
    tick fuel hooks sch s st =
      match sch.enrolAll.rota.choose with
      | none => some (((.idle, sch.enrolAll), s), st)
      | some (i, rota) =>
        match rota.seats[i]? with
        | none => some (((.idle, { sch.enrolAll with rota }), s), st)
        | some seat => workAt fuel hooks i seat { sch.enrolAll with rota } s st := by
  unfold tick
  simp only [bind, StateT.bind, modify, modifyGet, MonadStateOf.modifyGet, StateT.modifyGet, pure,
    StateT.pure, get, getThe, MonadStateOf.get, StateT.get, Option.bind_some]
  cases sch.enrolAll.rota.choose with
  | none => rfl
  | some p =>
    obtain ⟨i, rota⟩ := p
    simp only [StateT.bind]
    cases rota.seats[i]? <;> rfl

theorem cancel_eq (hooks : Hooks σ) (id : UInt32) (sch : Scheduler) (s : σ) (st : Store) :
    cancel hooks id sch s st =
      match sch.rota.position? id with
      | none => some (((none, sch), s), st)
      | some i =>
        match sch.rota.seats[i]? with
        | none => some (((none, sch), s), st)
        | some seat => (do
          let (((report, sch), s), st) ← remove hooks i seat .cancelled sch s st
          some (((some report, sch), s), st)) := by
  unfold cancel
  simp only [bind, StateT.bind, pure, get, getThe, MonadStateOf.get, StateT.get, StateT.pure,
    Option.bind_some]
  cases sch.rota.position? id with
  | none => rfl
  | some i =>
    dsimp only
    cases sch.rota.seats[i]? <;> rfl

/-- Hooks see the mailbox and not the rota. -/
theorem callHook_rota {α : Type} {h : HookWork σ α} {sch sch' : Scheduler} {a : α} {s s' : σ}
    {st st' : Store} (hh : callHook h sch s st = some (((a, sch'), s'), st')) :
    sch'.rota = sch.rota ∧ sch'.settings = sch.settings := by
  unfold callHook at hh
  cases hcall : h sch.mailbox s st with
  | none => simp [hcall] at hh
  | some p =>
    obtain ⟨⟨⟨a₁, mailbox⟩, s₁⟩, st₁⟩ := p
    simp only [hcall, bind, Option.bind_some, pure, Option.some.injEq, Prod.mk.injEq] at hh
    obtain ⟨⟨⟨-, rfl⟩, -⟩, -⟩ := hh
    exact ⟨rfl, rfl⟩

theorem remove_rota {hooks : Hooks σ} {i : Nat} {seat : Seat} {outcome : Outcome}
    {sch sch' : Scheduler} {report : Report} {s s' : σ} {st st' : Store}
    (hr : remove hooks i seat outcome sch s st = some (((report, sch'), s'), st')) :
    sch'.rota = sch.rota.remove i ∧ report = seat.report outcome := by
  rw [remove_eq] at hr
  cases hcall : hooks.onRemove (seat.report outcome) sch.mailbox s st with
  | none => simp [hcall] at hr
  | some p =>
    obtain ⟨⟨⟨a₁, mailbox⟩, s₁⟩, st₁⟩ := p
    simp only [hcall, bind, Option.bind_some, Option.some.injEq, Prod.mk.injEq] at hr
    obtain ⟨⟨⟨rfl, rfl⟩, -⟩, -⟩ := hr
    exact ⟨rfl, rfl⟩

/-- Who is cancelled leaves the row. -/
theorem cancel_rota {hooks : Hooks σ} {id : UInt32} {i : Nat} {sch sch' : Scheduler}
    {report : Report} {s s' : σ} {st st' : Store}
    (h : cancel hooks id sch s st = some (((some report, sch'), s'), st'))
    (hi : sch.rota.position? id = some i) : sch'.rota = sch.rota.remove i := by
  obtain ⟨seat, hseat, -⟩ := Rota.seat_of_position? hi
  rw [cancel_eq, hi] at h
  simp only [hseat] at h
  obtain ⟨p, hremove, hp⟩ := Option.bind_eq_some_iff.mp h
  obtain ⟨⟨⟨report', sch₁⟩, s₁⟩, st₁⟩ := p
  cases hp
  exact (remove_rota hremove).1

/-- Where there is nobody to cancel nothing is done. -/
theorem cancel_nothing {hooks : Hooks σ} {id : UInt32} {sch sch' : Scheduler} {s s' : σ}
    {st st' : Store} (h : cancel hooks id sch s st = some (((none, sch'), s'), st')) :
    sch' = sch := by
  rw [cancel_eq] at h
  split at h
  · cases h
    rfl
  · split at h
    · cases h
      rfl
    · obtain ⟨p, -, hp⟩ := Option.bind_eq_some_iff.mp h
      cases hp

theorem sleep_rota {hooks : Hooks σ} {sch sch' : Scheduler} {ms : Nat} {s s' : σ}
    {st st' : Store} (h : sleep hooks sch s st = some (((ms, sch'), s'), st')) :
    sch'.rota = sch.rota := by
  unfold sleep at h
  simp only [bind, StateT.bind, get, getThe, MonadStateOf.get, StateT.get, pure, StateT.pure,
    Option.bind_some] at h
  cases hcall : callHook (hooks.onSleep sch.settings.idleSleep) sch s st with
  | none => simp [hcall] at h
  | some p =>
    obtain ⟨⟨⟨a₁, sch₁⟩, s₁⟩, st₁⟩ := p
    simp only [hcall, Option.bind_some] at h
    cases hcall' : callHook hooks.onAwaken sch₁ s₁ st₁ with
    | none => simp [hcall'] at h
    | some q =>
      obtain ⟨⟨⟨a₂, sch₂⟩, s₂⟩, st₂⟩ := q
      simp only [hcall', Option.bind_some, Option.some.injEq, Prod.mk.injEq] at h
      obtain ⟨⟨⟨-, rfl⟩, -⟩, -⟩ := h
      rw [(callHook_rota hcall').1, (callHook_rota hcall).1]

/-- The rota after a task was worked on: it went on from where it was, or it left. -/
theorem workAt_rota {fuel : Nat} {hooks : Hooks σ} {i : Nat} {seat : Seat}
    {sch sch' : Scheduler} {t : Tick} {s s' : σ} {st st' : Store}
    (hw : workAt fuel hooks i seat sch s st = some (((t, sch'), s'), st')) :
    ∃ task, (t = .ran seat.id ∧
        sch'.rota = sch.rota.set i { seat with task, quanta := seat.quanta + 1 }) ∨
      (∃ report, t = .finished report ∧
        sch'.rota = (sch.rota.set i { seat with task, quanta := seat.quanta + 1 }).remove i) := by
  rw [workAt_eq] at hw
  cases hwork : Task.work fuel (max 1 sch.settings.quantum) seat.task st with
  | none => simp [hwork] at hw
  | some p =>
    obtain ⟨⟨r, task⟩, st₁⟩ := p
    refine ⟨task, ?_⟩
    simp only [hwork, bind, Option.bind_some] at hw
    cases ho : outcome? task r with
    | none =>
      simp only [ho, Option.some.injEq, Prod.mk.injEq] at hw
      obtain ⟨⟨⟨rfl, rfl⟩, -⟩, -⟩ := hw
      exact .inl ⟨rfl, rfl⟩
    | some outcome =>
      simp only [ho] at hw
      obtain ⟨⟨⟨⟨u, sch₁⟩, s₁⟩, st₂⟩, hcall, hw⟩ := Option.bind_eq_some_iff.mp hw
      obtain ⟨⟨⟨⟨report, sch₂⟩, s₂⟩, st₃⟩, hremove, hw⟩ := Option.bind_eq_some_iff.mp hw
      simp only [Option.some.injEq, Prod.mk.injEq] at hw
      obtain ⟨⟨⟨rfl, rfl⟩, -⟩, -⟩ := hw
      refine .inr ⟨report, rfl, ?_⟩
      rw [(remove_rota hremove).1, (callHook_rota hcall).1]

end Scheduler

/-! ## What a scheduler does with the tasks of its seats -/

/-- The task of a seat and the number of its quanta. -/
def Seat.load (s : Seat) : Task × Nat := (s.task, s.quanta)

/-- The part of a seat that does not change when a seat is chosen: all of it but the level, and all
of it if it is not ready. -/
def Seat.still (s : Seat) : Seat := if s.isReady then { s with level := 0 } else s

theorem Seat.load_still (s : Seat) : s.still.load = s.load := by
  rw [still]
  split <;> rfl

/-- The seat after its task was worked on. -/
def Seat.worked (s : Seat) (task : Task) : Seat := { s with task, quanta := s.quanta + 1 }

/-- The seat that a task gets. -/
def Arrival.seat (a : Arrival) : Seat :=
  { id := a.id, priority := a.priority, level := a.priority, task := a.task }

namespace Rota

/-- The tasks in the row. -/
def loads (r : Rota) : List (Task × Nat) := r.seats.map Seat.load

/-- The row without what changes when a seat is chosen. -/
def still (r : Rota) : List Seat := r.seats.map Seat.still

/-- A seat is changed, and looks the same. -/
theorem map_modify_of_eq {α : Type} {f : Seat → α} {g : Seat → Seat} (h : ∀ s, f (g s) = f s)
    (seats : List Seat) (i : Nat) : (seats.modify i g).map f = seats.map f := by
  refine List.ext_getElem? fun j => ?_
  rw [List.getElem?_map, List.getElem?_map, List.getElem?_modify, Option.map_eq_map,
    Option.map_map]
  congr 1
  funext s
  rw [Function.comp_apply]
  split
  · exact h s
  · rfl

/-- A seat is replaced by one that looks the same. -/
theorem map_set_of_eq {α : Type} {f : Seat → α} {seats : List Seat} {i : Nat} {s s' : Seat}
    (hs : seats[i]? = some s) (hf : f s' = f s) : (seats.set i s').map f = seats.map f := by
  obtain ⟨hlt, hget⟩ := List.getElem?_eq_some_iff.mp hs
  rw [List.map_set, hf, ← hget, ← List.getElem_map f (h := by simpa using hlt)]
  exact List.set_getElem_self _

theorem still_visit (r : Rota) : r.visit.2.still = r.still := by
  have hlevel {s : Seat} (hr : s.isReady = true) (level : Int32) :
      Seat.still { s with level } = s.still := by
    have hr' : Seat.isReady { s with level } = true := hr
    rw [Seat.still, Seat.still, if_pos hr, if_pos hr']
  rw [visit]
  dsimp only
  split
  · rfl
  · next s hs =>
    split
    · rfl
    · next hr =>
      rw [Bool.not_eq_true', Bool.not_eq_false] at hr
      split
      · exact map_set_of_eq hs (hlevel hr _)
      · exact map_set_of_eq hs (hlevel hr _)

theorem still_visits : ∀ (n : Nat) (r : Rota), (r.visits n).2.still = r.still
  | 0, _ => rfl
  | n + 1, r => by
    have hv := still_visit r
    rw [visits]
    rcases hr : r.visit with ⟨_ | i, r₁⟩ <;> rw [hr] at hv
    · exact (still_visits n r₁).trans hv
    · exact hv

theorem still_skip (r : Rota) (laps : Int32) : (r.skip laps).still = r.still := by
  rw [skip]
  split
  · rw [still, still, List.map_map]
    refine List.map_congr_left fun s _ => ?_
    rw [Function.comp_apply]
    split
    · next hr =>
      have hr' : Seat.isReady { s with level := lower s.level laps } = true := hr
      rw [Seat.still, Seat.still, if_pos hr, if_pos hr']
    · rfl
  · rfl

theorem still_chooseWithin : ∀ (laps : Nat) {r r' : Rota} {i : Nat},
    r.chooseWithin laps = some (i, r') → r'.still = r.still
  | 0, _, _, _, h => nomatch h
  | laps + 1, r, r', i, h => by
    have hv := still_visits r.seats.length r
    rw [chooseWithin] at h
    rcases hr : r.visits r.seats.length with ⟨_ | j, r₁⟩ <;> rw [hr] at hv h
    · exact (still_chooseWithin laps h).trans ((still_skip r₁ r₁.quietLaps).trans hv)
    · cases h
      exact hv

/-- Choosing changes nothing but levels of seats that are ready. -/
theorem still_choose {r r' : Rota} {i : Nat} (h : r.choose = some (i, r')) :
    r'.still = r.still := by
  rw [choose] at h
  split at h
  · exact still_chooseWithin 3 h
  · cases h

/-- Choosing a task changes none. -/
theorem loads_choose {r r' : Rota} {i : Nat} (h : r.choose = some (i, r')) :
    r'.loads = r.loads := by
  have hload := congrArg (List.map Seat.load) (still_choose h)
  rw [still, still, List.map_map, List.map_map] at hload
  simpa only [loads, Function.comp_def, Seat.load_still] using hload

end Rota

namespace Scheduler

variable {σ : Type} {hooks : Hooks σ} {sch sch' : Scheduler} {s s' : σ} {st st' : Store}

/-- Who was posted stands behind the row. -/
theorem enrolAll_eq (sch : Scheduler) : sch.enrolAll =
    { sch with
      rota := { sch.rota with seats := sch.rota.seats ++ sch.mailbox.arrivals.map Arrival.seat }
      mailbox := { sch.mailbox with arrivals := [] } } := by
  have hfold (arrivals : List Arrival) (sch : Scheduler) : arrivals.foldl enrol sch =
      { sch with rota := { sch.rota with
          seats := sch.rota.seats ++ arrivals.map Arrival.seat } } := by
    induction arrivals generalizing sch with
    | nil => rw [List.map_nil, List.append_nil]; rfl
    | cons a arrivals ih =>
      rw [List.foldl_cons, ih, List.map_cons, List.append_cons]
      rfl
  exact hfold _ _

/-- A task that has completed has a value. -/
theorem value?_of_completed {task : Task} {r : Except Failure Unit} {v : Value}
    (h : outcome? task r = some (.completed v)) : task.value? = some v := by
  cases r with
  | error e => cases h
  | ok u =>
    obtain ⟨w, hw, he⟩ := Option.map_eq_some_iff.mp h
    cases he
    exact hw

theorem remove_settings {i : Nat} {seat : Seat} {outcome : Outcome} {report : Report}
    (h : remove hooks i seat outcome sch s st = some (((report, sch'), s'), st')) :
    sch'.settings = sch.settings := by
  rw [remove_eq] at h
  obtain ⟨⟨⟨⟨u, mailbox⟩, s₁⟩, st₁⟩, -, h⟩ := Option.bind_eq_some_iff.mp h
  cases h
  rfl

/-- Who was cancelled leaves the row, and nothing else happens to the scheduler. -/
theorem cancel_settings {id : UInt32} {report : Option Report}
    (h : cancel hooks id sch s st = some (((report, sch'), s'), st')) :
    sch'.settings = sch.settings := by
  rw [cancel_eq] at h
  split at h
  · cases h
    rfl
  · split at h
    · cases h
      rfl
    · obtain ⟨⟨⟨⟨report', sch₁⟩, s₁⟩, st₁⟩, hremove, h⟩ := Option.bind_eq_some_iff.mp h
      cases h
      exact remove_settings hremove

/-- Where there is nobody to cancel no hook is called. -/
theorem cancel_nothing_store {id : UInt32}
    (h : cancel hooks id sch s st = some (((none, sch'), s'), st')) : sch' = sch ∧ st' = st := by
  rw [cancel_eq] at h
  split at h
  · cases h
    exact ⟨rfl, rfl⟩
  · split at h
    · cases h
      exact ⟨rfl, rfl⟩
    · obtain ⟨p, -, h⟩ := Option.bind_eq_some_iff.mp h
      cases h

theorem sleep_settings {ms : Nat} (h : sleep hooks sch s st = some (((ms, sch'), s'), st')) :
    sch'.settings = sch.settings := by
  unfold sleep at h
  obtain ⟨⟨⟨⟨ms', sch₁⟩, s₁⟩, st₁⟩, hsleep, h⟩ := Option.bind_eq_some_iff.mp h
  obtain ⟨⟨⟨⟨u, sch₂⟩, s₂⟩, st₂⟩, hawaken, h⟩ := Option.bind_eq_some_iff.mp h
  cases h
  exact (callHook_rota hawaken).2.trans (callHook_rota hsleep).2

variable {fuel : Nat} {report : Report}

theorem tick_idle (h : tick fuel hooks sch s st = some (((.idle, sch'), s'), st')) :
    st' = st ∧ sch'.settings = sch.settings ∧ sch'.mailbox = sch.enrolAll.mailbox ∧
      sch'.rota.loads = sch.enrolAll.rota.loads := by
  have hsettings : sch.enrolAll.settings = sch.settings := by rw [enrolAll_eq]
  rw [tick_eq] at h
  rcases hc : sch.enrolAll.rota.choose with _ | ⟨i, r⟩ <;> rw [hc] at h
  · cases h
    exact ⟨rfl, hsettings, rfl, rfl⟩
  · dsimp only at h
    rcases hseat : r.seats[i]? with _ | seat <;> rw [hseat] at h
    · cases h
      exact ⟨rfl, hsettings, rfl, Rota.loads_choose hc⟩
    · obtain ⟨task, ⟨ht, -⟩ | ⟨report, ht, -⟩⟩ := workAt_rota h <;> cases ht

/-- A tick works on a seat that it has chosen. -/
theorem tick_chosen {t : Tick} (h : tick fuel hooks sch s st = some (((t, sch'), s'), st'))
    (ht : t ≠ .idle) : ∃ i r seat, sch.enrolAll.rota.choose = some (i, r) ∧
      r.seats[i]? = some seat ∧ workAt fuel hooks i seat { sch.enrolAll with rota := r } s st =
        some (((t, sch'), s'), st') := by
  rw [tick_eq] at h
  rcases hc : sch.enrolAll.rota.choose with _ | ⟨i, r⟩ <;> rw [hc] at h
  · cases h
    exact absurd rfl ht
  · dsimp only at h
    rcases hseat : r.seats[i]? with _ | seat <;> rw [hseat] at h
    · cases h
      exact absurd rfl ht
    · exact ⟨i, r, seat, rfl, hseat, h⟩

variable {i : Nat} {seat : Seat} {res : Except Failure Unit} {task : Task} {mid : Store}

theorem workAt_ran {id : UInt32}
    (h : workAt fuel hooks i seat sch s st = some (((.ran id, sch'), s'), st')) :
    ∃ res task, Task.work fuel (max 1 sch.settings.quantum) seat.task st =
        some ((res, task), st') ∧ outcome? task res = none ∧
      sch' = { sch with rota := sch.rota.set i (seat.worked task) } := by
  rw [workAt_eq] at h
  obtain ⟨⟨⟨res, task⟩, mid⟩, hwork, h⟩ := Option.bind_eq_some_iff.mp h
  dsimp only at h
  cases ho : outcome? task res with
  | none =>
    rw [ho] at h
    cases h
    exact ⟨res, task, hwork, ho, rfl⟩
  | some outcome =>
    rw [ho] at h
    obtain ⟨p, -, h⟩ := Option.bind_eq_some_iff.mp h
    obtain ⟨p', -, h⟩ := Option.bind_eq_some_iff.mp h
    cases h

theorem workAt_finished
    (h : workAt fuel hooks i seat sch s st = some (((.finished report, sch'), s'), st')) :
    ∃ res task mid outcome, Task.work fuel (max 1 sch.settings.quantum) seat.task st =
        some ((res, task), mid) ∧ outcome? task res = some outcome ∧
      report = (seat.worked task).report outcome ∧ sch'.settings = sch.settings ∧
      sch'.rota = (sch.rota.set i (seat.worked task)).remove i := by
  rw [workAt_eq] at h
  obtain ⟨⟨⟨res, task⟩, mid⟩, hwork, h⟩ := Option.bind_eq_some_iff.mp h
  dsimp only at h
  cases ho : outcome? task res with
  | none =>
    rw [ho] at h
    cases h
  | some outcome =>
    rw [ho] at h
    obtain ⟨⟨⟨⟨u, sch₁⟩, s₁⟩, st₁⟩, hcall, h⟩ := Option.bind_eq_some_iff.mp h
    obtain ⟨⟨⟨⟨report', sch₂⟩, s₂⟩, st₂⟩, hremove, h⟩ := Option.bind_eq_some_iff.mp h
    cases h
    obtain ⟨hrota, rfl⟩ := remove_rota hremove
    obtain ⟨hrota₁, hsettings⟩ := callHook_rota hcall
    refine ⟨res, task, mid, outcome, hwork, ho, rfl, (remove_settings hremove).trans hsettings, ?_⟩
    rw [hrota, hrota₁]
    rfl

/-- Two hooks are called when a task has ended, one after the other. -/
theorem workAt_hooks
    (h : workAt fuel hooks i seat sch s st = some (((.finished report, sch'), s'), st')) :
    ∃ res task mid, Task.work fuel (max 1 sch.settings.quantum) seat.task st =
        some ((res, task), mid) ∧
      ∃ u b s₁ st₁, hooks.onComplete report sch.mailbox s mid = some (((u, b), s₁), st₁) ∧
        ∃ u', hooks.onRemove report b s₁ st₁ = some (((u', sch'.mailbox), s'), st') := by
  rw [workAt_eq] at h
  obtain ⟨⟨⟨res, task⟩, mid⟩, hwork, h⟩ := Option.bind_eq_some_iff.mp h
  refine ⟨res, task, mid, hwork, ?_⟩
  dsimp only at h
  cases ho : outcome? task res with
  | none =>
    rw [ho] at h
    cases h
  | some outcome =>
    rw [ho] at h
    obtain ⟨⟨⟨⟨u, sch₁⟩, s₁⟩, st₁⟩, hcall, h⟩ := Option.bind_eq_some_iff.mp h
    obtain ⟨⟨⟨⟨u, b⟩, s₁⟩, st₁⟩, hcomplete, hcall⟩ := Option.bind_eq_some_iff.mp hcall
    cases hcall
    obtain ⟨⟨⟨⟨report', sch₂⟩, s₂⟩, st₂⟩, hremove, h⟩ := Option.bind_eq_some_iff.mp h
    cases h
    rw [remove_eq] at hremove
    obtain ⟨⟨⟨⟨u', b'⟩, s₂⟩, st₂⟩, hremoved, hremove⟩ := Option.bind_eq_some_iff.mp hremove
    cases hremove
    exact ⟨u, b, s₁, st₁, hcomplete, u', hremoved⟩

end Scheduler

end LispEngines
