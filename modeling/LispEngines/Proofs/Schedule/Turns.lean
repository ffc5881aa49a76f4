import LispEngines.Proofs.Course.Recursion
import LispEngines.Proofs.Schedule.Reach
import Mathlib.Data.List.Dedup

/-!
# Turns

A tick that works on a task is a turn.  There is one turn to take as long as some task is ready, so
whoever ticks until no task is ready takes a run of turns that it has no influence on, and ends
where the run does.  What a turn does to the row is little: the seats keep their places and look the
same from outside, except that the seat of a task which is told of is gone.

* `Scene.Turn`, `Scene.Turns`: ticks that work on a task, with the store and the user's state.
* `Scene.runUntilIdle_of_turns`: the loop takes the turns that there are to take.
* `Scene.Turn.chosen`: what one turn does, and `Scene.Turn.row`: what this looks like in the row.
  `Scene.told_perm`, `Scene.told_names` and `Scene.named_at_rest` say what a run has done to the row
  in the end.
-/

namespace LispEngines

/-! ## More fuel -/

/-- More fuel changes nothing about a quantum that comes back. -/
theorem Task.work_below {fuel fuel' : Nat} (hf : fuel ≤ fuel') (budget : Nat) :
    (Task.work fuel budget).Below (Task.work fuel' budget) := by
  intro t st p h
  rcases t with ⟨x, s, limit, n, _ | v⟩ | m | m | _
  · obtain ⟨⟨⟨r, k⟩, st'⟩, hev, hp⟩ := Option.bind_eq_some_iff.mp h
    exact Option.bind_eq_some_iff.mpr ⟨_, Classic.evaluate_below limit hf x s _ _ _ hev, hp⟩
  all_goals exact h

theorem Scheduler.tick_fuel {σ : Type} {hooks : Hooks σ} {fuel fuel' : Nat} (hf : fuel ≤ fuel')
    {sch : Scheduler} {s : σ} {st : Store} {p : ((Tick × Scheduler) × σ) × Store}
    (h : tick fuel hooks sch s st = some p) : tick fuel' hooks sch s st = some p := by
  rw [tick_eq] at h ⊢
  split
  · next hc =>
    rw [hc] at h
    exact h
  · next i r hc =>
    rw [hc] at h
    dsimp only at h
    split
    · next hs =>
      rw [hs] at h
      exact h
    · next seat hs =>
      rw [hs] at h
      dsimp only at h
      rw [workAt_eq] at h ⊢
      obtain ⟨q, hwork, hq⟩ := Option.bind_eq_some_iff.mp h
      exact Option.bind_eq_some_iff.mpr ⟨q, Task.work_below hf _ _ _ _ hwork, hq⟩

/-! ## The loop -/

namespace Scheduler

variable {σ : Type} {hooks : Hooks σ} {work fuel : Nat} {sch sch' : Scheduler} {s s' : σ}
  {st st' : Store}

theorem runUntilIdle_idle
    (h : tick work hooks sch s st = some (((.idle, sch'), s'), st')) :
    runUntilIdle work hooks (fuel + 1) sch s st = some ((([], sch'), s'), st') := by
  rw [runUntilIdle]
  simp only [bind, StateT.bind, h, Option.bind_some]
  rfl

theorem runUntilIdle_turn {t : Tick} {reports : List Report} {last : Scheduler} {s₁ : σ}
    {st₁ : Store} (h : tick work hooks sch s st = some (((t, sch'), s'), st')) (ht : t ≠ .idle)
    (hrest : runUntilIdle work hooks fuel sch' s' st' = some (((reports, last), s₁), st₁)) :
    runUntilIdle work hooks (fuel + 1) sch s st =
      some (((t.report?.toList ++ reports, last), s₁), st₁) := by
  rw [runUntilIdle]
  simp only [bind, StateT.bind, h, Option.bind_some]
  cases t with
  | idle => exact absurd rfl ht
  | ran id => exact hrest
  | finished report =>
    simp only [StateT.bind, hrest, bind, Option.bind_some]
    rfl

end Scheduler

/-! ## What a seat looks like -/

/-- A quantum leaves a task the sort that it is. -/
theorem Task.kind_of_work {fuel budget : Nat} {t t' : Task} {r : Except Failure Unit}
    {st st' : Store} (h : Task.work fuel budget t st = some ((r, t'), st')) : t'.kind = t.kind := by
  rcases t with ⟨x, s, limit, n, _ | v⟩ | m | m | _
  · obtain ⟨⟨⟨r', k⟩, mid⟩, -, hp⟩ := Option.bind_eq_some_iff.mp h
    cases hp
    rfl
  all_goals
    cases h
    rfl

theorem Task.isIdle_eq (t : Task) : t.isIdle = (t.kind == "Idle") := by
  cases t <;> rfl

/-- What is told of a task in any case. -/
structure TaskLabel where
  id : UInt32
  kind : String
  priority : Int32
  deriving DecidableEq, Repr

def Report.label (r : Report) : TaskLabel := ⟨r.id, r.kind, r.priority⟩

def Seat.label (s : Seat) : TaskLabel := ⟨s.id, s.task.kind, s.priority⟩

/-- What stays of a seat as long as its task does not leave: the label, and all of it if the task
is not ready. -/
def Seat.face (s : Seat) : TaskLabel × Option Seat := (s.label, if s.isReady then none else some s)

theorem Seat.face_still (s : Seat) : s.still.face = s.face := by
  rcases hr : s.isReady with _ | _
  · rw [still, if_neg (by simp [hr])]
  · have hr' : Seat.isReady { s with level := 0 } = true := hr
    rw [still, if_pos hr, face, face, if_pos hr, if_pos hr']
    rfl

theorem Seat.face_of_ready {s : Seat} (hr : s.isReady = true) : s.face = (s.label, none) := by
  rw [face, if_pos hr]

/-- Seats that differ in nothing but the level are alike. -/
theorem Seat.same_of_still {s s' : Seat} (h : s.still = s'.still) :
    s.isReady = s'.isReady ∧ s.task = s'.task := by
  have hready (s : Seat) : s.still.isReady = s.isReady := by
    rw [still]
    split <;> rfl
  refine ⟨by rw [← hready s, h, hready], ?_⟩
  have hload := congrArg Seat.load h
  rw [load_still, load_still] at hload
  exact congrArg Prod.fst hload

/-- A quantum does not change the face of a seat. -/
theorem Seat.face_worked {fuel budget : Nat} {s : Seat} {task : Task} {r : Except Failure Unit}
    {st st' : Store} (hr : s.isReady = true)
    (h : Task.work fuel budget s.task st = some ((r, task), st')) :
    (s.worked task).label = s.label ∧ (s.worked task).face = s.face := by
  have hkind := Task.kind_of_work h
  have hlabel : (s.worked task).label = s.label := by
    rw [label, label, worked, hkind]
  have hr' : (s.worked task).isReady = true := by
    rw [isReady, Task.isIdle_eq, ← hkind] at hr
    rw [isReady, Task.isIdle_eq]
    exact hr
  exact ⟨hlabel, by rw [face_of_ready hr, face_of_ready hr', hlabel]⟩

namespace Roster

/-- The row with the names of the tasks. -/
def named (m : Roster) : List NamedSeat := m.names.zip m.sch.rota.seats

/-- The tasks from the mailbox, as they will stand in the row. -/
def newcomers (m : Roster) : List NamedSeat :=
  (m.sch.mailbox.arrivals.zipIdx m.next).map fun (a, k) => (⟨k, a.priority⟩, a.seat)

theorem foldl_enrol_named (arrivals : List Arrival) {m : Roster}
    (h : m.names.length = m.sch.rota.seats.length) :
    (arrivals.foldl enrol m).named = m.named ++
      (arrivals.zipIdx m.next).map fun (a, k) => (⟨k, a.priority⟩, a.seat) := by
  induction arrivals generalizing m with
  | nil => rw [List.zipIdx_nil, List.map_nil, List.append_nil, List.foldl_nil]
  | cons a arrivals ih =>
    have hstep : (m.enrol a).named = m.named ++ [(⟨m.next, a.priority⟩, a.seat)] :=
      List.zip_append h
    have hlen : (m.enrol a).names.length = (m.enrol a).sch.rota.seats.length := by
      simp [enrol, Scheduler.enrol, Rota.insert, h]
    rw [List.foldl_cons, ih hlen, hstep, List.zipIdx_cons, List.map_cons, List.append_assoc]
    rfl

theorem enrolAll_named {m : Roster} (h : Sound m) : m.enrolAll.named = m.named ++ m.newcomers :=
  foldl_enrol_named _ h.named.length_eq

end Roster

/-- The face of a seat, with the name of its task. -/
abbrev Face := TaskName × TaskLabel × Option Seat

/-- The name and the label of a task that is ready. -/
def Face.ready? (f : Face) : Option (TaskName × TaskLabel) :=
  if f.2.2.isNone then some (f.1, f.2.1) else none

/-- The seat of a task that is not ready. -/
def Face.unready? (f : Face) : Option NamedSeat := f.2.2.map (f.1, ·)

namespace NamedSeat

def face (e : NamedSeat) : Face := (e.1, e.2.face)

def label (e : NamedSeat) : TaskName × TaskLabel := (e.1, e.2.label)

/-- What can be read off a face can be read off a row of them. -/
theorem filterMap_face {α : Type} {keeps : NamedSeat → Bool} {told : NamedSeat → α}
    {reading : Face → Option α}
    (h : ∀ e, reading (face e) = if keeps e then some (told e) else none) (l : List NamedSeat) :
    (l.filter keeps).map told = (l.map face).filterMap reading := by
  induction l with
  | nil => rfl
  | cons e l ih =>
    rw [List.map_cons, List.filterMap_cons, h, List.filter_cons]
    cases keeps e with
    | false => exact ih
    | true => exact congrArg (told e :: ·) ih

theorem filter_ready (l : List NamedSeat) :
    (l.filter (·.2.isReady)).map label = (l.map face).filterMap Face.ready? :=
  filterMap_face (fun e => by
    cases hr : e.2.isReady <;> simp [Face.ready?, face, Seat.face, hr, label]) l

theorem filter_unready (l : List NamedSeat) :
    l.filter (!·.2.isReady) = (l.map face).filterMap Face.unready? := by
  rw [← List.map_id (l.filter _)]
  exact filterMap_face (fun e => by
    cases hr : e.2.isReady <;> simp [Face.unready?, face, Seat.face, hr]) l

theorem map_face (names : List TaskName) (seats : List Seat) :
    (names.zip seats).map face = names.zip (seats.map Seat.face) := by
  rw [List.zip_map_right]
  rfl

end NamedSeat

theorem Roster.length_of_choose {m : Roster} (hm : Sound m) {i : Nat} {r : Rota}
    (hc : m.sch.rota.choose = some (i, r)) : r.seats.length = m.names.length := by
  have hsame := congrArg List.length (Rota.still_choose hc)
  rw [Rota.still, Rota.still, List.length_map, List.length_map] at hsame
  rw [hsame, hm.named.length_eq]

/-- Choosing changes no face, and the task that is chosen was ready. -/
theorem Roster.faces_of_choose {m : Roster} (hm : Sound m) {i : Nat} {r : Rota} {n : TaskName}
    {seat : Seat} (hc : m.sch.rota.choose = some (i, r)) (hn : m.names[i]? = some n)
    (hs : r.seats[i]? = some seat) :
    seat.isReady = true ∧ m.named.map NamedSeat.face = m.names.zip (r.seats.map Seat.face) ∧
      (m.named.map NamedSeat.face)[i]? = some (n, seat.label, none) := by
  obtain ⟨-, seat', hs', hr⟩ := Rota.keeps_choose (Nat.zero_lt_of_lt hm.named.cursor_lt) hc
  cases hs.symm.trans hs'
  have hfaces : r.seats.map Seat.face = m.sch.rota.seats.map Seat.face := by
    have hstill := congrArg (List.map Seat.face) (Rota.still_choose hc)
    rw [Rota.still, Rota.still, List.map_map, List.map_map] at hstill
    simpa only [Function.comp_def, Seat.face_still] using hstill
  rw [Roster.named, NamedSeat.map_face, ← hfaces]
  refine ⟨hr, rfl, ?_⟩
  rw [List.getElem?_zip_eq_some, List.getElem?_map, hs, Option.map_some, Seat.face_of_ready hr]
  exact ⟨hn, rfl⟩

/-- Choosing changes neither what task a seat holds nor whether it is ready. -/
theorem Roster.mem_named_of_choose {m : Roster} {i : Nat} {r : Rota} {n : TaskName} {s : Seat}
    (hc : m.sch.rota.choose = some (i, r)) (h : (n, s) ∈ m.names.zip r.seats) :
    ∃ s₀, (n, s₀) ∈ m.named ∧ s₀.isReady = s.isReady ∧ s₀.task = s.task := by
  have hmem := List.mem_map_of_mem (f := Prod.map id Seat.still) h
  rw [← List.zip_map_right, ← Rota.still, Rota.still_choose hc, Rota.still, List.zip_map_right]
    at hmem
  obtain ⟨⟨n₀, s₀⟩, hs₀, he⟩ := List.mem_map.mp hmem
  obtain ⟨rfl, hstill⟩ := Prod.mk.inj he
  exact ⟨s₀, hs₀, Seat.same_of_still hstill⟩

/-- Of the seats after a quantum one is new, and the others hold the tasks that they held. -/
theorem Roster.seat_of_worked {m : Roster} (hm : m.Sound) {i j : Nat} {r : Rota} {n n₀ : TaskName}
    {s seat seat' : Seat} (hc : m.sch.rota.choose = some (i, r)) (hs : r.seats[i]? = some seat)
    (hn : m.names[i]? = some n₀) (he : (m.names.zip (r.seats.set i seat'))[j]? = some (n, s)) :
    (j = i ∧ n = n₀ ∧ s = seat') ∨
      (n ≠ n₀ ∧ ∃ s₀, (n, s₀) ∈ m.named ∧ s₀.isReady = s.isReady ∧ s₀.task = s.task) := by
  obtain ⟨hnj, hsj⟩ := List.getElem?_zip_eq_some.mp he
  by_cases hji : j = i
  · subst hji
    rw [hn] at hnj
    rw [List.getElem?_set_self (List.getElem?_eq_some_iff.mp hs).1] at hsj
    cases hnj
    cases hsj
    exact .inl ⟨rfl, rfl, rfl⟩
  · rw [List.getElem?_set_ne (Ne.symm hji)] at hsj
    have hne : n ≠ n₀ := by
      rintro rfl
      have hlt := (List.getElem?_eq_some_iff.mp hnj).1
      exact hji ((List.getElem?_inj hlt hm.names_nodup).mp (hnj.trans hn.symm))
    have hmem := List.mem_of_getElem? (List.getElem?_zip_eq_some.mpr ⟨hnj, hsj⟩)
    exact .inr ⟨hne, mem_named_of_choose hc hmem⟩

/-! ## Turns -/

/-- A roster with what else its ticks work on: the state of the user and the store. -/
structure Scene (σ : Type) where
  roster : Roster
  user : σ
  store : Store

/-- A quantum: the roster before the tick, the task, and the report if the task left. -/
structure Quantum where
  before : Roster
  name : TaskName
  report? : Option Report

/-- The name and the label of the task, if it was reported. -/
def Quantum.told? (u : Quantum) : Option (TaskName × TaskLabel) :=
  u.report?.map fun report => (u.name, report.label)

namespace Scene

/-- A tick that works on a task, with fuel enough for it. -/
inductive Turn {σ : Type} (hooks : Hooks σ) : Scene σ → Quantum → Scene σ → Prop
  | ran {x : Scene σ} {fuel : Nat} {id : UInt32} {sch : Scheduler} {s : σ} {st : Store} {i : Nat}
      {r : Rota} {n : TaskName}
      (htick : Scheduler.tick fuel hooks x.roster.sch x.user x.store =
        some (((.ran id, sch), s), st))
      (hc : x.roster.enrolAll.sch.rota.choose = some (i, r))
      (hn : x.roster.enrolAll.names[i]? = some n) :
      Turn hooks x ⟨x.roster, n, none⟩ ⟨{ x.roster.enrolAll with sch }, s, st⟩
  | finished {x : Scene σ} {fuel : Nat} {report : Report} {sch : Scheduler} {s : σ} {st : Store}
      {i : Nat} {r : Rota} {n : TaskName}
      (htick : Scheduler.tick fuel hooks x.roster.sch x.user x.store =
        some (((.finished report, sch), s), st))
      (hc : x.roster.enrolAll.sch.rota.choose = some (i, r))
      (hn : x.roster.enrolAll.names[i]? = some n) :
      Turn hooks x ⟨x.roster, n, some report⟩
        ⟨{ x.roster.enrolAll with sch, names := x.roster.enrolAll.names.eraseIdx i }, s, st⟩

/-- Ticks that work on a task, one after the other. -/
inductive Turns {σ : Type} (hooks : Hooks σ) : Scene σ → List Quantum → Scene σ → Prop
  | nil (x : Scene σ) : Turns hooks x [] x
  | cons {x y z : Scene σ} {u : Quantum} {log : List Quantum} (h : Turn hooks x u y)
      (h' : Turns hooks y log z) : Turns hooks x (u :: log) z

/-- The number of steps in a quantum. -/
def budget {σ : Type} (x : Scene σ) : Nat := max 1 x.roster.sch.settings.quantum

/-- No task is ready, and none that waits in the mailbox will be. -/
def AtRest {σ : Type} (x : Scene σ) : Prop :=
  ∀ seat ∈ x.roster.sch.enrolAll.rota.seats, seat.isReady = false

variable {σ : Type} {hooks : Hooks σ} {x y z : Scene σ} {u : Quantum} {log log' : List Quantum}

theorem Turn.step (h : Turn hooks x u y) :
    u.before = x.roster ∧ Roster.Step x.roster (.worked u.name) y.roster := by
  cases h with
  | ran htick hc hn => exact ⟨rfl, .ran htick hc hn⟩
  | finished htick hc hn => exact ⟨rfl, .finished htick hc hn⟩

theorem Turn.sound (hm : x.roster.Sound) (h : Turn hooks x u y) : y.roster.Sound :=
  (Roster.moves_of_step hm h.step.2).1

/-- A turn is a tick. -/
theorem Turn.tick (h : Turn hooks x u y) : ∃ fuel t, t ≠ .idle ∧ t.report? = u.report? ∧
    Scheduler.tick fuel hooks x.roster.sch x.user x.store =
      some (((t, y.roster.sch), y.user), y.store) := by
  cases h with
  | @ran fuel id _ _ _ _ _ _ htick => exact ⟨fuel, .ran id, nofun, rfl, htick⟩
  | @finished fuel report _ _ _ _ _ _ htick => exact ⟨fuel, .finished report, nofun, rfl, htick⟩

/-- There is one turn to take. -/
theorem Turn.unique {u' : Quantum} {y' : Scene σ} (h : Turn hooks x u y)
    (h' : Turn hooks x u' y') : u' = u ∧ y' = y := by
  have hsame {fuel fuel' : Nat} {p q : ((Tick × Scheduler) × σ) × Store}
      (hp : Scheduler.tick fuel hooks x.roster.sch x.user x.store = some p)
      (hq : Scheduler.tick fuel' hooks x.roster.sch x.user x.store = some q) : q = p := by
    have hp' := Scheduler.tick_fuel (Nat.le_max_left fuel fuel') hp
    have hq' := Scheduler.tick_fuel (Nat.le_max_right fuel fuel') hq
    exact Option.some.inj (hq'.symm.trans hp')
  cases h with
  | ran htick hc hn =>
    cases h' with
    | ran htick' hc' hn' =>
      cases hsame htick htick'
      cases hc.symm.trans hc'
      cases hn.symm.trans hn'
      exact ⟨rfl, rfl⟩
    | finished htick' => cases hsame htick htick'
  | finished htick hc hn =>
    cases h' with
    | ran htick' => cases hsame htick htick'
    | finished htick' hc' hn' =>
      cases hsame htick htick'
      cases hc.symm.trans hc'
      cases hn.symm.trans hn'
      exact ⟨rfl, rfl⟩

/-- At rest a tick does nothing but enrol, whatever fuel it has. -/
theorem AtRest.tick (h : x.AtRest) (fuel : Nat) :
    Scheduler.tick fuel hooks x.roster.sch x.user x.store =
      some (((.idle, x.roster.sch.enrolAll), x.user), x.store) := by
  have hnone : x.roster.sch.enrolAll.rota.choose = none := by
    rw [Rota.choose, if_neg]
    rw [List.any_eq_true]
    rintro ⟨seat, hseat, hready⟩
    cases (h seat hseat).symm.trans hready
  rw [Scheduler.tick_eq, hnone]

theorem AtRest.no_turn (h : x.AtRest) : ¬ Turn hooks x u y := by
  intro ht
  obtain ⟨fuel, t, hne, -, htick⟩ := ht.tick
  have hidle := congrArg (·.1.1.1) (Option.some.inj ((h.tick fuel).symm.trans htick))
  exact hne hidle.symm

/-- A tick that comes back is a turn, or everyone is at rest. -/
theorem turn_of_tick (hm : x.roster.Sound) {fuel : Nat}
    (h : (Scheduler.tick fuel hooks x.roster.sch x.user x.store).isSome) :
    x.AtRest ∨ ∃ u y, Turn hooks x u y := by
  obtain ⟨⟨⟨⟨t, sch⟩, s⟩, st⟩, htick⟩ := Option.isSome_iff_exists.mp h
  have hall := (Roster.joins_enrolAll hm).1
  have hname {i : Nat} {r : Rota} (hc : x.roster.sch.enrolAll.rota.choose = some (i, r)) :
      x.roster.enrolAll.sch.rota.choose = some (i, r) ∧
        ∃ n, x.roster.enrolAll.names[i]? = some n := by
    rw [← Roster.enrolAll_sch] at hc
    obtain ⟨c, -, -, n, s, rest, -, -, -, hn, -⟩ := Rota.passes_of_choose hall.named hc
    exact ⟨hc, n, hn⟩
  cases t with
  | idle =>
    obtain ⟨-, hrest⟩ := Roster.enrolled_of_idle hm htick
    rw [Roster.enrolAll_sch] at hrest
    exact .inl hrest
  | ran id =>
    obtain ⟨i, r, seat, hc, -⟩ := Scheduler.tick_chosen htick nofun
    obtain ⟨hc', n, hn⟩ := hname hc
    exact .inr ⟨_, _, .ran htick hc' hn⟩
  | finished report =>
    obtain ⟨i, r, seat, hc, -⟩ := Scheduler.tick_chosen htick nofun
    obtain ⟨hc', n, hn⟩ := hname hc
    exact .inr ⟨_, _, .finished htick hc' hn⟩

/-! ### Runs -/

theorem Turns.append (h : Turns hooks x log y) (h' : Turns hooks y log' z) :
    Turns hooks x (log ++ log') z := by
  induction h with
  | nil => exact h'
  | cons ht _ ih => exact .cons ht (ih h')

theorem Turns.of_append (h : Turns hooks x (log ++ log') z) :
    ∃ y, Turns hooks x log y ∧ Turns hooks y log' z := by
  induction log generalizing x with
  | nil => exact ⟨x, .nil x, h⟩
  | cons u log ih =>
    cases h with
    | cons ht h =>
      obtain ⟨y, h₁, h₂⟩ := ih h
      exact ⟨y, .cons ht h₁, h₂⟩

/-- Turns are a history of the roster. -/
theorem Turns.run (h : Turns hooks x log y) :
    ∃ l, Roster.Run x.roster l y.roster ∧ Roster.works l = log.map Quantum.name := by
  induction h with
  | nil x => exact ⟨[], .nil _, rfl⟩
  | @cons x y z u log ht _ ih =>
    obtain ⟨l, hr, hw⟩ := ih
    exact ⟨(x.roster, .worked u.name) :: l, .cons ht.step.2 hr, congrArg (u.name :: ·) hw⟩

theorem Turns.sound (hm : x.roster.Sound) (h : Turns hooks x log y) : y.roster.Sound := by
  obtain ⟨l, hr, -⟩ := h.run
  exact Roster.sound_of_run hm hr

theorem Turn.next_le (hm : x.roster.Sound) (h : Turn hooks x u y) :
    x.roster.next ≤ y.roster.next :=
  (Roster.moves_of_step hm h.step.2).2.next_le

theorem Turns.next_le (hm : x.roster.Sound) (h : Turns hooks x log y) :
    x.roster.next ≤ y.roster.next := by
  induction h with
  | nil => exact Nat.le_refl _
  | cons ht _ ih => exact (ht.next_le hm).trans (ih (ht.sound hm))

/-- From one scene there is one way to go, and of two runs one continues the other. -/
theorem Turns.compare (h : Turns hooks x log y) (h' : Turns hooks x log' z) :
    (∃ rest, log' = log ++ rest ∧ Turns hooks y rest z) ∨
      ∃ rest, log = log' ++ rest ∧ Turns hooks z rest y := by
  induction h generalizing log' with
  | nil => exact .inl ⟨log', rfl, h'⟩
  | cons ht h ih =>
    cases h' with
    | nil => exact .inr ⟨_, rfl, .cons ht h⟩
    | cons ht' h' =>
      obtain ⟨rfl, rfl⟩ := ht.unique ht'
      obtain ⟨rest, rfl, hrest⟩ | ⟨rest, rfl, hrest⟩ := ih h'
      · exact .inl ⟨rest, rfl, hrest⟩
      · exact .inr ⟨rest, rfl, hrest⟩

theorem Turns.prefix {x' : Scene σ} (hlog' : Turns hooks x log' x') (hr : x'.AtRest)
    (h : Turns hooks x log y) : ∃ rest, log' = log ++ rest ∧ Turns hooks y rest x' := by
  obtain hrest | ⟨rest, rfl, hrest⟩ := h.compare hlog'
  · exact hrest
  · cases hrest with
    | nil => exact ⟨[], by simp, .nil _⟩
    | cons ht => exact absurd ht hr.no_turn

/-- There is one way to come to rest. -/
theorem Turns.unique (h : Turns hooks x log y) (hr : y.AtRest) (h' : Turns hooks x log' z)
    (hr' : z.AtRest) : log' = log ∧ z = y := by
  obtain ⟨rest, rfl, hrest⟩ := h.prefix hr h'
  cases hrest with
  | nil => exact ⟨(List.append_nil _).symm, rfl⟩
  | cons ht => exact absurd ht hr'.no_turn

/-! ### The loop takes turns -/

/-- The loop takes the turns that there are to take. -/
theorem runUntilIdle_of_turns (h : Turns hooks x log y) (hr : y.AtRest) :
    ∃ enough, ∀ work fuel, enough ≤ work → log.length < fuel →
      Scheduler.runUntilIdle work hooks fuel x.roster.sch x.user x.store =
        some (((log.filterMap Quantum.report?, y.roster.sch.enrolAll), y.user), y.store) := by
  induction h with
  | nil x =>
    refine ⟨0, fun work fuel _ hf => ?_⟩
    obtain ⟨fuel, rfl⟩ : ∃ k, fuel = k + 1 := ⟨fuel - 1, by omega⟩
    exact Scheduler.runUntilIdle_idle (hr.tick work)
  | @cons x y z u log ht _ ih =>
    obtain ⟨enough, hrest⟩ := ih hr
    obtain ⟨first, t, hne, hreport, htick⟩ := ht.tick
    refine ⟨max first enough, fun work fuel hw hf => ?_⟩
    rw [List.length_cons] at hf
    obtain ⟨fuel, rfl⟩ : ∃ k, fuel = k + 1 := ⟨fuel - 1, by omega⟩
    have hfirst := Scheduler.tick_fuel (Nat.le_trans (Nat.le_max_left _ _) hw) htick
    have hloop := hrest work fuel (Nat.le_trans (Nat.le_max_right _ _) hw) (by omega)
    rw [Scheduler.runUntilIdle_turn hfirst hne hloop, hreport]
    cases hu : u.report? with
    | none => rw [List.filterMap_cons_none hu, Option.toList_none, List.nil_append]
    | some report => rw [List.filterMap_cons_some hu, Option.toList_some, List.singleton_append]

/-! ## What a turn does to the row -/

theorem budget_eq (h : y.roster.sch.settings = x.roster.sch.settings) : y.budget = x.budget := by
  rw [budget, budget, h]

/-- A turn has chosen a seat and worked on its task.  If the task has not ended, the seat has it
back.  Otherwise the seat is gone, and two hooks were called. -/
theorem Turn.chosen (hm : x.roster.Sound) (h : Turn hooks x u y) :
    ∃ fuel i r seat res task mid row,
      x.roster.enrolAll.sch.rota.choose = some (i, r) ∧ r.seats[i]? = some seat ∧
      x.roster.enrolAll.names[i]? = some u.name ∧
      Task.work fuel x.budget seat.task x.store = some ((res, task), mid) ∧
      row = x.roster.enrolAll.names.zip (r.seats.set i (seat.worked task)) ∧
      y.budget = x.budget ∧ y.roster.next = x.roster.enrolAll.next ∧
      ((u.report? = none ∧ Scheduler.outcome? task res = none ∧ y.roster.named = row ∧
          y.store = mid ∧ y.roster.sch.mailbox = x.roster.sch.enrolAll.mailbox) ∨
        ∃ outcome report b s st, report = (seat.worked task).report outcome ∧
          u.report? = some report ∧ y.roster.named = row.eraseIdx i ∧
          hooks.onComplete report x.roster.sch.enrolAll.mailbox x.user mid =
            some ((((), b), s), st) ∧
          hooks.onRemove report b s st =
            some ((((), y.roster.sch.mailbox), y.user), y.store)) := by
  have hall := (Roster.joins_enrolAll hm).1
  have hbudget : x.roster.sch.enrolAll.settings = x.roster.sch.settings := by
    rw [Scheduler.enrolAll_eq]
  cases h with
  | @ran fuel id sch s st i r n htick hc hn =>
    obtain ⟨i', r', seat, hc', hs, hw⟩ := Scheduler.tick_chosen htick nofun
    rw [← Roster.enrolAll_sch] at hc'
    cases hc.symm.trans hc'
    obtain ⟨res, task, hwork, ho, rfl⟩ := Scheduler.workAt_ran hw
    refine ⟨fuel, i, r, seat, res, task, st, _, hc, hs, hn, ?_, rfl, budget_eq hbudget, rfl,
      .inl ⟨rfl, ho, rfl, rfl, rfl⟩⟩
    rw [budget, ← hbudget]
    exact hwork
  | @finished fuel report sch s st i r n htick hc hn =>
    obtain ⟨i', r', seat, hc', hs, hw⟩ := Scheduler.tick_chosen htick nofun
    rw [← Roster.enrolAll_sch] at hc'
    cases hc.symm.trans hc'
    obtain ⟨res, task, mid, outcome, hwork, -, hreport, hsettings, hrota⟩ :=
      Scheduler.workAt_finished hw
    obtain ⟨res', task', mid', hwork', u, b, s₁, st₁, hcomplete, u', hremove⟩ :=
      Scheduler.workAt_hooks hw
    cases hwork.symm.trans hwork'
    have hlen : x.roster.enrolAll.names.length = (r.seats.set i (seat.worked task)).length := by
      rw [List.length_set, Roster.length_of_choose hall hc]
    refine ⟨fuel, i, r, seat, res, task, mid, _, hc, hs, hn, ?_, rfl,
      budget_eq (hsettings.trans hbudget), rfl,
      .inr ⟨outcome, report, b, s₁, st₁, hreport, rfl, ?_, hcomplete, hremove⟩⟩
    · rw [budget, ← hbudget]
      exact hwork
    · rw [Roster.named, hrota, ← Rota.zip_eraseIdx hlen]
      rfl

/-- **What a turn does to the row.**  After those from the mailbox have joined, it has chosen a
task that is ready.  The seats look the same afterwards, but that of the task is gone if it was
reported. -/
theorem Turn.row (hm : x.roster.Sound) (h : Turn hooks x u y) :
    ∃ faces i label, faces = (x.roster.named ++ x.roster.newcomers).map NamedSeat.face ∧
      faces[i]? = some (u.name, label, none) ∧
      ((u.told? = none ∧ y.roster.named.map NamedSeat.face = faces) ∨
        u.told? = some (u.name, label) ∧ y.roster.named.map NamedSeat.face = faces.eraseIdx i) := by
  obtain ⟨fuel, i, r, seat, res, task, mid, row, hc, hs, hn, hwork, rfl, -, -, hend⟩ := h.chosen hm
  obtain ⟨hr, hfaces, hi⟩ := Roster.faces_of_choose (Roster.joins_enrolAll hm).1 hc hn hs
  obtain ⟨hlabel, hface⟩ := Seat.face_worked hr hwork
  have hrow : (x.roster.enrolAll.names.zip (r.seats.set i (seat.worked task))).map NamedSeat.face =
      x.roster.enrolAll.named.map NamedSeat.face := by
    rw [NamedSeat.map_face, Rota.map_set_of_eq hs hface, hfaces]
  rw [← Roster.enrolAll_named hm]
  refine ⟨_, i, seat.label, rfl, hi, ?_⟩
  rw [← hrow, Quantum.told?]
  obtain ⟨hreport, -, hy, -⟩ | ⟨outcome, report, -, -, -, rfl, hreport, hy, -⟩ := hend
  · rw [hreport, hy]
    exact .inl ⟨rfl, rfl⟩
  · rw [hreport, hy, List.eraseIdx_map, ← hlabel]
    exact .inr ⟨rfl, rfl⟩

/-- Who is not ready stays, and as it is. -/
theorem Turn.unready (hm : x.roster.Sound) (h : Turn hooks x u y) :
    y.roster.named.filter (!·.2.isReady) =
      (x.roster.named ++ x.roster.newcomers).filter (!·.2.isReady) := by
  obtain ⟨faces, i, label, hfaces, hi, ⟨-, hy⟩ | ⟨-, hy⟩⟩ := h.row hm
  · rw [NamedSeat.filter_unready, NamedSeat.filter_unready, hy, hfaces]
  · obtain ⟨hlt, hget⟩ := List.getElem?_eq_some_iff.mp hi
    have hsplit := List.take_append_drop i faces
    rw [List.drop_eq_getElem_cons hlt, hget] at hsplit
    rw [NamedSeat.filter_unready, NamedSeat.filter_unready, hy, ← hfaces,
      List.eraseIdx_eq_take_drop_succ, List.filterMap_append]
    conv_rhs => rw [← hsplit, List.filterMap_append, List.filterMap_cons_none rfl]

/-- Who is ready stays or is told of. -/
theorem Turn.ready (hm : x.roster.Sound) (h : Turn hooks x u y) :
    (((x.roster.named ++ x.roster.newcomers).filter (·.2.isReady)).map NamedSeat.label).Perm
      (u.told?.toList ++ (y.roster.named.filter (·.2.isReady)).map NamedSeat.label) := by
  obtain ⟨faces, i, label, hfaces, hi, ⟨ht, hy⟩ | ⟨ht, hy⟩⟩ := h.row hm
  · rw [NamedSeat.filter_ready, NamedSeat.filter_ready, ht, hy, hfaces]
    exact .refl _
  · obtain ⟨hlt, hget⟩ := List.getElem?_eq_some_iff.mp hi
    have hperm := (List.getElem_cons_eraseIdx_perm hlt).symm.filterMap Face.ready?
    rw [hget, List.filterMap_cons_some (f := Face.ready?) (b := (u.name, label)) rfl] at hperm
    rw [NamedSeat.filter_ready, NamedSeat.filter_ready, ht, hy, ← hfaces]
    exact hperm

/-- Who was worked on and not told of is ready. -/
theorem Turn.stays (hm : x.roster.Sound) (h : Turn hooks x u y) (hu : u.told? = none) :
    ∃ label, (u.name, label) ∈ (y.roster.named.filter (·.2.isReady)).map NamedSeat.label := by
  obtain ⟨faces, i, label, -, hi, ⟨-, hy⟩ | ⟨ht, -⟩⟩ := h.row hm
  · rw [NamedSeat.filter_ready, hy]
    exact ⟨label, List.mem_filterMap.mpr ⟨_, List.mem_of_getElem? hi, rfl⟩⟩
  · cases hu.symm.trans ht

/-- Who was told of has left. -/
theorem Turn.out {told : TaskName × TaskLabel} (hm : x.roster.Sound) (h : Turn hooks x u y)
    (hu : u.told? = some told) : Roster.Out y.roster u.name := by
  cases h with
  | ran => cases hu
  | finished _ _ hn => exact Roster.out_of_erased (Roster.joins_enrolAll hm).1 hn _

/-! ## What a run does to the row -/

/-- The tasks in the row, and those that the turns found in the mailbox, as they joined. -/
def everyone (x : Scene σ) (log : List Quantum) : List NamedSeat :=
  x.roster.named ++ log.flatMap (·.before.newcomers)

theorem everyone_cons (ht : Turn hooks x u y) (log : List Quantum) :
    x.everyone (u :: log) =
      (x.roster.named ++ x.roster.newcomers) ++ log.flatMap (·.before.newcomers) := by
  rw [everyone, List.flatMap_cons, ht.step.1, List.append_assoc]

theorem Turns.unready (hm : x.roster.Sound) (h : Turns hooks x log y) :
    y.roster.named.filter (!·.2.isReady) = (x.everyone log).filter (!·.2.isReady) := by
  induction h with
  | nil => rw [everyone, List.flatMap_nil, List.append_nil]
  | @cons x y z u log ht _ ih =>
    rw [ih (ht.sound hm), everyone_cons ht, everyone, List.filter_append, List.filter_append,
      ht.unready hm]

theorem Turns.ready (hm : x.roster.Sound) (h : Turns hooks x log y) :
    (((x.everyone log).filter (·.2.isReady)).map NamedSeat.label).Perm
      (log.filterMap Quantum.told? ++
        (y.roster.named.filter (·.2.isReady)).map NamedSeat.label) := by
  induction h with
  | nil =>
    rw [everyone, List.flatMap_nil, List.append_nil]
    exact .refl _
  | @cons x y z u log ht _ ih =>
    have hrest := ih (ht.sound hm)
    rw [everyone, List.filter_append, List.map_append] at hrest
    rw [everyone_cons ht, List.filter_append, List.map_append]
    have hlog : (u :: log).filterMap Quantum.told? =
        u.told?.toList ++ log.filterMap Quantum.told? := by
      rcases hu : u.told? with _ | told
      · rw [List.filterMap_cons_none hu, Option.toList_none, List.nil_append]
      · rw [List.filterMap_cons_some hu, Option.toList_some, List.singleton_append]
    rw [hlog, List.append_assoc]
    refine ((ht.ready hm).append_right _).trans ?_
    rw [List.append_assoc]
    exact hrest.append_left _

/-- At rest nobody is ready, with those from the mailbox. -/
theorem AtRest.named (hm : y.roster.Sound) (h : y.AtRest) :
    (y.roster.named ++ y.roster.newcomers).filter (·.2.isReady) = [] ∧
      (y.roster.named ++ y.roster.newcomers).filter (!·.2.isReady) = y.roster.enrolAll.named := by
  have hnot : ∀ e ∈ y.roster.enrolAll.named, e.2.isReady = false := by
    intro e he
    have hseat := (List.of_mem_zip (a := e.1) (b := e.2) he).2
    rw [Roster.enrolAll_sch] at hseat
    exact h _ hseat
  rw [← Roster.enrolAll_named hm]
  refine ⟨List.filter_eq_nil_iff.mpr fun e he => ?_, List.filter_eq_self.mpr fun e he => ?_⟩
  · rw [hnot e he]
    exact Bool.false_ne_true
  · rw [hnot e he]
    rfl

theorem told_perm (hm : x.roster.Sound) (h : Turns hooks x log y) (hr : y.AtRest) :
    (log.filterMap Quantum.told?).Perm
      (((x.everyone log ++ y.roster.newcomers).filter (·.2.isReady)).map NamedSeat.label) := by
  have hrest := (hr.named (h.sound hm)).1
  rw [List.filter_append, List.append_eq_nil_iff] at hrest
  have hready := h.ready hm
  rw [hrest.1, List.map_nil, List.append_nil] at hready
  rw [List.filter_append, hrest.2, List.append_nil]
  exact hready.symm

theorem named_at_rest (hm : x.roster.Sound) (h : Turns hooks x log y) (hr : y.AtRest) :
    y.roster.enrolAll.named =
      (x.everyone log ++ y.roster.newcomers).filter (!·.2.isReady) := by
  rw [← (hr.named (h.sound hm)).2, List.filter_append, List.filter_append, h.unready hm]

/-- Tasks are told of in the order of their last quanta. -/
theorem told_names (hm : x.roster.Sound) (h : Turns hooks x log y) (hr : y.AtRest) :
    (log.filterMap Quantum.told?).map Prod.fst = (log.map Quantum.name).dedup := by
  induction h with
  | nil => rfl
  | @cons x y z u log ht h ih =>
    have hrest := ih (ht.sound hm) hr
    rw [List.map_cons]
    rcases hu : u.told? with _ | told
    · -- The task is still ready and has another quantum.
      obtain ⟨label, hlabel⟩ := ht.stays hm hu
      have hmem : (u.name, label) ∈ log.filterMap Quantum.told? := by
        rw [(told_perm (ht.sound hm) h hr).mem_iff, everyone, List.filter_append,
          List.filter_append, List.map_append, List.map_append]
        exact List.mem_append_left _ (List.mem_append_left _ hlabel)
      have hname := List.mem_map_of_mem (f := Prod.fst) hmem
      rw [hrest, List.mem_dedup] at hname
      rw [List.filterMap_cons_none hu, hrest, List.dedup_cons_of_mem hname]
    · obtain ⟨l, hrun, hworks⟩ := h.run
      have hnot := (ht.out hm hu).run hrun
      rw [hworks] at hnot
      obtain ⟨report, -, rfl⟩ := Option.map_eq_some_iff.mp hu
      rw [List.filterMap_cons_some hu, List.map_cons, hrest, List.dedup_cons_of_notMem hnot]

end Scene

end LispEngines
