import LispEngines.Proofs.Schedule.Factory
import LispEngines.Proofs.Schedule.Ticking

/-!
# Tasks in company

Many tasks live in one store, and a scheduler works on them in turns.  Each of them began as a
task with a store of its own.  Whatever else the scheduler is asked to do, a task that it reports
has come to the end that it comes to alone and in one piece.

* `Company`: a scheduler with its store, and what each of its tasks began as.
* `Company.Step`: one operation; the hooks enqueue tasks and do nothing else.
* `Company.Houses`: each seat and each arrival is a tenant of the store.
* `Company.houses_step`: every operation keeps it so.
* `Company.reported_as_alone`: what that means for a task that is reported.
* `Company.Reachable.spawn_form`, `Company.Reachable.step_of_tick`: what a user of the scheduler
  asks for are such operations; tasks come from a factory, and hooks post more of them.
-/

namespace LispEngines

/-! ## Operations -/

/-- A scheduler with its store, and what the tasks in its row and in its mailbox began as. -/
structure Company where
  sch : Scheduler
  store : Store
  crew : List Solo
  waiting : List Solo

namespace Company

/-- A new scheduler has the idle task alone. -/
def new (settings : ScheduleSettings) (st : Store) : Company where
  sch := Scheduler.new settings
  store := st
  crew := [⟨{}, .idle, 0⟩]
  waiting := []

/-- The posted tasks join the row. -/
def enrolAll (c : Company) : Company where
  sch := c.sch.enrolAll
  store := c.store
  crew := c.crew ++ c.waiting
  waiting := []

/-- One operation, with the report of a task that has ended and what the task began as.  The hooks
enqueue tasks and do nothing else. -/
inductive Step (base : Store) : Company → Option (Solo × Report) → Company → Prop
  | spawn {c : Company} {o : Solo} {ρ : Renaming} {st' : Store} (priority : Int32)
      (hm : o.MovesIn base c.store ρ st') :
      Step base c none { c with
        sch := (c.sch.spawn (o.task.rename ρ) priority).2, store := st', crew := c.crew ++ [o] }
  | post {c : Company} {o : Solo} {ρ : Renaming} {st' : Store} (priority : Int32)
      (hm : o.MovesIn base c.store ρ st') :
      Step base c none { c with
        sch := (c.sch.post (o.task.rename ρ) priority).2, store := st'
        waiting := c.waiting ++ [o] }
  | setSuspended (c : Company) (id : UInt32) (suspended : Bool) :
      Step base c none { c with sch := (c.sch.setSuspended id suspended).2 }
  | cancel {c : Company} {σ : Type} {hooks : Hooks σ} {id : UInt32} {i : Nat} {report : Report}
      {sch : Scheduler} {s s' : σ} {st' : Store} {os : List Solo}
      (h : Scheduler.cancel hooks id c.sch s c.store = some (((some report, sch), s'), st'))
      (hi : c.sch.rota.position? id = some i)
      (hooked : Enqueues base c.sch.mailbox c.store os sch.mailbox st') :
      Step base c none { sch, store := st', crew := c.crew.eraseIdx i, waiting := c.waiting ++ os }
  | cancelNothing {c : Company} {σ : Type} {hooks : Hooks σ} {id : UInt32} {sch : Scheduler}
      {s s' : σ} {st' : Store}
      (h : Scheduler.cancel hooks id c.sch s c.store = some (((none, sch), s'), st')) :
      Step base c none { c with sch, store := st' }
  | sleep {c : Company} {σ : Type} {hooks : Hooks σ} {ms : Nat} {sch : Scheduler} {s s' : σ}
      {st' : Store} {os : List Solo}
      (h : Scheduler.sleep hooks c.sch s c.store = some (((ms, sch), s'), st'))
      (hooked : Enqueues base c.sch.mailbox c.store os sch.mailbox st') :
      Step base c none { c with sch, store := st', waiting := c.waiting ++ os }
  | idle {c : Company} {fuel : Nat} {σ : Type} {hooks : Hooks σ} {sch : Scheduler} {s s' : σ}
      {st' : Store}
      (h : Scheduler.tick fuel hooks c.sch s c.store = some (((.idle, sch), s'), st')) :
      Step base c none { c.enrolAll with sch, store := st' }
  | ran {c : Company} {fuel : Nat} {σ : Type} {hooks : Hooks σ} {id : UInt32} {sch : Scheduler}
      {s s' : σ} {st' : Store}
      (h : Scheduler.tick fuel hooks c.sch s c.store = some (((.ran id, sch), s'), st')) :
      Step base c none { c.enrolAll with sch, store := st' }
  | finished {c : Company} {fuel : Nat} {σ : Type} {hooks : Hooks σ} {report : Report}
      {sch : Scheduler} {s s' : σ} {st' mid : Store} {i : Nat} {r : Rota} {seat : Seat}
      {out : Except Failure Unit × Task} {o : Solo} {os : List Solo}
      (h : Scheduler.tick fuel hooks c.sch s c.store = some (((.finished report, sch), s'), st'))
      (hc : c.enrolAll.sch.rota.choose = some (i, r)) (hseat : r.seats[i]? = some seat)
      (hwork : Task.work fuel (max 1 c.sch.settings.quantum) seat.task c.store = some (out, mid))
      (ho : c.enrolAll.crew[i]? = some o)
      (hooked : Enqueues base c.enrolAll.sch.mailbox mid os sch.mailbox st') :
      Step base c (some (o, report))
        { sch, store := st', crew := c.enrolAll.crew.eraseIdx i, waiting := os }

/-- What can come of a new scheduler and a store, whose output takes everything.  So far no list is
too long to be counted. -/
inductive Reachable (settings : ScheduleSettings) (base : Store) : Company → Prop
  | new (hb : base.Sealed false) (hs : base.sink.limit = none) :
      Reachable settings base (new settings base)
  | step {c c' : Company} {d : Option (Solo × Report)} (h : Reachable settings base c)
      (hs : Step base c d c') (hfit : c'.store.Fits) : Reachable settings base c'

/-! ## Tenants of the seats -/

/-- Each task in the row and in the mailbox is a tenant of the store. -/
structure Houses (settings : ScheduleSettings) (base : Store) (c : Company) (gs ws : List Tenant) :
    Prop where
  settings_eq : c.sch.settings = settings
  household : Household (max 1 settings.quantum) base c.store (gs ++ ws)
  crew : gs.map Tenant.origin = c.crew
  waiting : ws.map Tenant.origin = c.waiting
  loads : c.sch.rota.loads = gs.map Tenant.load
  arrivals : c.sch.mailbox.arrivals.map (fun a => (a.task, 0)) = ws.map Tenant.load

variable {settings : ScheduleSettings} {q : Nat} {c c' : Company} {gs ws : List Tenant}
  {base st st' : Store} {b b' : Mailbox} {os : List Solo}

/-- Those that are enqueued join the household. -/
theorem household_enqueues (h : Enqueues base b st os b' st') (hh : Household q base st gs) :
    ∃ new : List Tenant, Household q base st' (gs ++ new) ∧ new.map Tenant.origin = os ∧
      b'.arrivals.map (fun a => (a.task, 0)) =
        b.arrivals.map (fun a => (a.task, 0)) ++ new.map Tenant.load := by
  induction h generalizing gs with
  | refl => exact ⟨[], by rwa [List.append_nil], rfl, (List.append_nil _).symm⟩
  | @post b b' st st₁ st' o os ρ priority hm _ ih =>
    obtain ⟨new, hnew, horigin, harrivals⟩ :=
      ih ((hh.join hm).perm (List.perm_append_singleton ..).symm)
    refine ⟨o.tenant ρ :: new, ?_, congrArg (o :: ·) horigin, ?_⟩
    · rwa [List.append_cons]
    · rw [harrivals, List.map_cons, List.append_cons]
      congr 1
      exact List.map_append

/-- A task whose store is empty needs no room. -/
theorem movesIn_of_empty {t : Task} (hb : Solo.Begins ⟨{}, t, 0⟩) (hs : st.sink.limit = none) :
    Solo.MovesIn base ⟨{}, t, 0⟩ st .id st := by
  have hnone {n : Nat} {P : Prop} (hn : n < 0) : P := absurd hn (Nat.not_lt_zero n)
  have hp : Paired .apart .id {} st :=
    { sealed := (Store.Tidy.empty {}).sealed
      list_lt := fun _ => hnone
      scope_lt := fun _ => hnone
      items := fun _ => hnone
      scopes := fun _ => hnone
      list_inj := fun _ _ => hnone
      scope_inj := fun _ _ => hnone
      ranked := nofun
      scopes_le := Nat.zero_le _
      sink := ⟨rfl, hs⟩ }
  exact
    { begins := hb
      paired := hp
      shared_le := Nat.zero_le _
      shared_le_lists := Nat.le_refl _
      lists_le := Nat.le_refl _
      scopes_le := Nat.le_refl _
      items_eq := fun _ _ => rfl
      scopes_eq := fun _ _ => rfl
      home := fun _ => hnone
      list_new := fun _ _ => hnone
      scope_new := fun _ => hnone }

theorem houses_new (settings : ScheduleSettings) (hb : base.Sealed false)
    (hs : base.sink.limit = none) : ∃ gs, Houses settings base (new settings base) gs [] := by
  have hnobody : Household (max 1 settings.quantum) base base [] :=
    ⟨.refl_of_sealed hb ⟨hs, hs⟩ nofun, fun _ hg => absurd hg List.not_mem_nil, .nil⟩
  have hidle := hnobody.join (movesIn_of_empty .idle hs)
  exact ⟨[Solo.tenant ⟨{}, .idle, 0⟩ .id], rfl, hidle, rfl, rfl, rfl, rfl⟩

theorem Houses.enrolAll (h : Houses settings base c gs ws) :
    Houses settings base c.enrolAll (gs ++ ws) [] := by
  have heq := Scheduler.enrolAll_eq c.sch
  refine ⟨?_, ?_, ?_, rfl, ?_, ?_⟩
  · rw [Company.enrolAll, heq]
    exact h.settings_eq
  · rw [List.append_nil]
    exact h.household
  · rw [List.map_append, h.crew, h.waiting]
    rfl
  · rw [Company.enrolAll, heq, List.map_append, ← h.loads, ← h.arrivals, Rota.loads,
      List.map_append, List.map_map]
    rfl
  · rw [Company.enrolAll, heq]
    rfl

/-- The tenant behind a seat that is chosen. -/
theorem Houses.chosen {i : Nat} {r : Rota} {seat : Seat} (h : Houses settings base c gs [])
    (hc : c.sch.rota.choose = some (i, r)) (hseat : r.seats[i]? = some seat) :
    r.loads = gs.map Tenant.load ∧ ∃ g, gs[i]? = some g ∧ seat.task = g.task.rename g.addr ∧
      seat.quanta = g.quanta := by
  have hloads := (Rota.loads_choose hc).trans h.loads
  have hload := congrArg (·[i]?) hloads
  rw [Rota.loads, List.getElem?_map, List.getElem?_map, hseat] at hload
  obtain ⟨g, hg, he⟩ := Option.map_eq_some_iff.mp hload.symm
  exact ⟨hloads, g, hg, (congrArg Prod.fst he).symm, (congrArg Prod.snd he).symm⟩

/-- A quantum of a seat is a quantum of its tenant. -/
theorem Houses.works {i fuel : Nat} {g : Tenant} {res : Except Failure Unit} {task : Task}
    (h : Houses settings base c gs []) (hg : gs[i]? = some g)
    (hw : Task.work fuel (max 1 c.sch.settings.quantum) (g.task.rename g.addr) c.store =
      some ((res, task), st')) (hfit : st'.Fits) :
    ∃ g', g.Works (max 1 settings.quantum) base fuel c.store res task st' g' ∧
      Household (max 1 settings.quantum) base st' (gs.eraseIdx i) ∧
      (Scheduler.outcome? task res = none →
        Household (max 1 settings.quantum) base st' (gs.set i g')) := by
  obtain ⟨hlt, hget⟩ := List.getElem?_eq_some_iff.mp hg
  have hh := h.household
  rw [List.append_nil] at hh
  have hperm := (List.getElem_cons_eraseIdx_perm hlt).symm
  rw [hget] at hperm
  rw [h.settings_eq] at hw
  obtain ⟨g', hworks⟩ := (hh.lives g (List.mem_of_getElem? hg)).works hh.kept hw hfit
  obtain ⟨hothers, hall⟩ := (hh.perm hperm).work hworks
  exact ⟨g', hworks, hothers, fun ho =>
    (hall ho).perm (List.set_perm_cons_eraseIdx hlt g').symm⟩

theorem Houses.ran {fuel : Nat} {σ : Type} {hooks : Hooks σ} {id : UInt32} {sch : Scheduler}
    {s s' : σ} (h : Houses settings base c gs ws)
    (htick : Scheduler.tick fuel hooks c.sch s c.store = some (((.ran id, sch), s'), st'))
    (hfit : st'.Fits) :
    ∃ gs', Houses settings base { c.enrolAll with sch, store := st' } gs' [] := by
  have hall := h.enrolAll
  obtain ⟨i, r, seat, hc, hseat, hw⟩ := Scheduler.tick_chosen htick nofun
  obtain ⟨res, task, hwork, ho, rfl⟩ := Scheduler.workAt_ran hw
  obtain ⟨hloads, g, hg, htask, hquanta⟩ := hall.chosen hc hseat
  rw [htask] at hwork
  obtain ⟨g', hworks, -, hhouse⟩ := hall.works hg hwork hfit
  have hload : (seat.worked task).load = g'.load := by
    rw [Tenant.load, hworks.quanta, ← hquanta, ← hworks.renamed]
    rfl
  refine ⟨(gs ++ ws).set i g', hall.settings_eq, ?_, ?_, rfl, ?_, hall.arrivals⟩
  · rw [List.append_nil]
    exact hhouse ho
  · rw [List.map_set, hworks.origin, ← hall.crew]
    obtain ⟨hlt, rfl⟩ := List.getElem?_eq_some_iff.mp hg
    rw [← List.getElem_map Tenant.origin (h := by simpa using hlt)]
    exact List.set_getElem_self _
  · show (r.seats.set i (seat.worked task)).map Seat.load = _
    rw [List.map_set, List.map_set, hload]
    exact congrArg (List.set · i g'.load) hloads

/-- What is known where a task has ended: the seat was that of a tenant, and the others live on. -/
theorem Houses.finished {fuel i : Nat} {σ : Type} {hooks : Hooks σ} {report : Report}
    {sch : Scheduler} {s s' : σ} {mid : Store} {r : Rota} {seat : Seat}
    {out : Except Failure Unit × Task} {o : Solo} (h : Houses settings base c gs ws)
    (htick : Scheduler.tick fuel hooks c.sch s c.store = some (((.finished report, sch), s'), st'))
    (hc : c.enrolAll.sch.rota.choose = some (i, r)) (hseat : r.seats[i]? = some seat)
    (hwork : Task.work fuel (max 1 c.sch.settings.quantum) seat.task c.store = some (out, mid))
    (ho : c.enrolAll.crew[i]? = some o)
    (hooked : Enqueues base c.enrolAll.sch.mailbox mid os sch.mailbox st') (hfit : st'.Fits) :
    ∃ g g' outcome, g ∈ gs ++ ws ∧ g.origin = o ∧
      g.Works (max 1 settings.quantum) base fuel c.store out.1 out.2 mid g' ∧
      Scheduler.outcome? out.2 out.1 = some outcome ∧
      report = (seat.worked out.2).report outcome ∧ seat.quanta = g.quanta ∧
      ∃ new, Houses settings base
        { sch, store := st', crew := c.enrolAll.crew.eraseIdx i, waiting := os }
        ((gs ++ ws).eraseIdx i) new := by
  have hall := h.enrolAll
  obtain ⟨i', r', seat', hc', hseat', hw⟩ := Scheduler.tick_chosen htick nofun
  cases hc.symm.trans hc'
  cases hseat.symm.trans hseat'
  obtain ⟨res, task, mid', outcome, hwork', hout, hreport, hsettings, hrota⟩ :=
    Scheduler.workAt_finished hw
  have hsame : c.sch.settings = c.sch.enrolAll.settings := by rw [Scheduler.enrolAll_eq]
  rw [hsame] at hwork
  cases hwork.symm.trans hwork'
  obtain ⟨hloads, g, hg, htask, hquanta⟩ := hall.chosen hc hseat
  rw [htask] at hwork
  obtain ⟨g', hworks, hothers, -⟩ := hall.works hg hwork (hooked.fits hfit)
  have horigin : g.origin = o := by
    rw [← hall.crew, List.getElem?_map, hg] at ho
    exact Option.some.inj ho
  obtain ⟨new, hnew, hnewOrigin, harrivals⟩ := household_enqueues hooked hothers
  refine ⟨g, g', outcome, List.mem_of_getElem? hg, horigin, hworks, hout, hreport, hquanta, new,
    hsettings.trans hall.settings_eq, hnew, ?_, hnewOrigin, ?_, ?_⟩
  · rw [← List.eraseIdx_map, hall.crew]
  · rw [hrota]
    show ((r.seats.set i (seat.worked task)).eraseIdx i).map Seat.load = _
    rw [List.eraseIdx_set_eq, ← List.eraseIdx_map, ← List.eraseIdx_map]
    exact congrArg (List.eraseIdx · i) hloads
  · rw [harrivals, hall.arrivals]
    rfl

/-- Suspending and resuming leave the tasks where they are. -/
theorem Houses.setSuspended (h : Houses settings base c gs ws) (id : UInt32) (b : Bool) :
    Houses settings base { c with sch := (c.sch.setSuspended id b).2 } gs ws := by
  obtain heq | ⟨i, -, -, -, -, heq⟩ := c.sch.setSuspended_cases id b <;> rw [heq]
  · exact h
  · have hloads := Rota.map_modify_of_eq (f := Seat.load) (g := fun s => { s with suspended := b })
      (fun _ => rfl) c.sch.rota.seats i
    exact { h with
      settings_eq := h.settings_eq, arrivals := h.arrivals, loads := hloads.trans h.loads }

/-- A task that is cancelled leaves, and those that the hooks enqueue move in. -/
theorem Houses.cancel {σ : Type} {hooks : Hooks σ} {id : UInt32} {i : Nat} {report : Report}
    {sch : Scheduler} {s s' : σ} (h : Houses settings base c gs ws)
    (hcancel : Scheduler.cancel hooks id c.sch s c.store = some (((some report, sch), s'), st'))
    (hi : c.sch.rota.position? id = some i)
    (hooked : Enqueues base c.sch.mailbox c.store os sch.mailbox st') :
    ∃ new, Houses settings base
      { sch, store := st', crew := c.crew.eraseIdx i, waiting := c.waiting ++ os }
      (gs.eraseIdx i) (ws ++ new) := by
  obtain ⟨seat, hseat, -⟩ := Rota.seat_of_position? hi
  have hlt : i < gs.length := by
    have hl := congrArg List.length h.loads
    rw [Rota.loads, List.length_map, List.length_map] at hl
    exact hl ▸ (List.getElem?_eq_some_iff.mp hseat).1
  have hothers : Household (max 1 settings.quantum) base c.store (gs.eraseIdx i ++ ws) := by
    refine (h.household.perm ?_).leave (g := gs[i])
    exact ((List.getElem_cons_eraseIdx_perm hlt).append_right ws).symm
  obtain ⟨new, hnew, horigin, harrivals⟩ := household_enqueues hooked hothers
  refine ⟨new, (Scheduler.cancel_settings hcancel).trans h.settings_eq, ?_, ?_, ?_, ?_, ?_⟩
  · rwa [← List.append_assoc]
  · rw [← List.eraseIdx_map, h.crew]
  · rw [List.map_append, h.waiting, horigin]
  · rw [Scheduler.cancel_rota hcancel hi, ← List.eraseIdx_map, ← h.loads]
    exact (List.eraseIdx_map ..).symm
  · rw [harrivals, h.arrivals, List.map_append]

/-- **What one operation preserves**: the tasks in the row and in the mailbox live in the store, and
none has anything to do with another. -/
theorem houses_step {d : Option (Solo × Report)} (h : Houses settings base c gs ws)
    (hs : Step base c d c') (hfit : c'.store.Fits) :
    ∃ gs' ws', Houses settings base c' gs' ws' := by
  cases hs with
  | @spawn o ρ st' priority hm =>
    refine ⟨gs ++ [o.tenant ρ], ws, h.settings_eq, ?_, ?_, h.waiting, ?_, h.arrivals⟩
    · refine (h.household.join hm).perm ?_
      rw [← List.append_cons]
      exact List.perm_middle.symm
    · rw [List.map_append, h.crew]
      rfl
    · rw [List.map_append, ← h.loads]
      exact List.map_append
  | @post o ρ st' priority hm =>
    have hpost : Enqueues base c.sch.mailbox c.store [o]
        (c.sch.mailbox.post (o.task.rename ρ) priority).2 st' := .post hm .refl
    obtain ⟨new, hnew, horigin, harrivals⟩ := household_enqueues hpost h.household
    refine ⟨gs, ws ++ new, h.settings_eq, ?_, h.crew, ?_, h.loads, ?_⟩
    · rwa [← List.append_assoc]
    · rw [List.map_append, h.waiting, horigin]
    · rw [List.map_append, ← h.arrivals]
      exact harrivals
  | setSuspended id suspended => exact ⟨gs, ws, h.setSuspended id suspended⟩
  | cancel hcancel hi hooked =>
    obtain ⟨new, h'⟩ := h.cancel hcancel hi hooked
    exact ⟨_, _, h'⟩
  | @cancelNothing σ hooks id sch s s' st' hcancel =>
    obtain ⟨rfl, rfl⟩ := Scheduler.cancel_nothing_store hcancel
    exact ⟨gs, ws, h⟩
  | @sleep σ hooks ms sch s s' st' os hsleep hooked =>
    obtain ⟨new, hnew, horigin, harrivals⟩ := household_enqueues hooked h.household
    refine ⟨gs, ws ++ new, (Scheduler.sleep_settings hsleep).trans h.settings_eq, ?_, h.crew, ?_,
      ?_, ?_⟩
    · rwa [← List.append_assoc]
    · rw [List.map_append, h.waiting, horigin]
    · rw [Scheduler.sleep_rota hsleep]
      exact h.loads
    · rw [harrivals, h.arrivals, List.map_append]
  | @idle fuel σ hooks sch s s' st' htick =>
    have hall := h.enrolAll
    obtain ⟨rfl, hsettings, hmailbox, hloads⟩ := Scheduler.tick_idle htick
    refine ⟨gs ++ ws, [], hsettings.trans h.settings_eq, hall.household, hall.crew, rfl,
      hloads.trans hall.loads, ?_⟩
    rw [hmailbox]
    exact hall.arrivals
  | @ran fuel σ hooks id sch s s' st' htick =>
    obtain ⟨gs', h'⟩ := h.ran htick hfit
    exact ⟨gs', [], h'⟩
  | finished htick hc hseat hwork ho hooked =>
    obtain ⟨-, -, -, -, -, -, -, -, -, new, h'⟩ := h.finished htick hc hseat hwork ho hooked hfit
    exact ⟨_, new, h'⟩

theorem Reachable.houses (h : Reachable settings base c) :
    ∃ gs ws, Houses settings base c gs ws := by
  induction h with
  | new hb hs =>
    obtain ⟨gs, hgs⟩ := houses_new settings hb hs
    exact ⟨gs, [], hgs⟩
  | step _ hs hfit ih =>
    obtain ⟨gs, ws, hgs⟩ := ih
    exact houses_step hgs hs hfit

/-! ## What is a step -/

/-- A task from a factory may join the others at any time. -/
theorem Reachable.spawn_form {engine : Engine} {f : Form} {t : Task}
    (h : Reachable settings base c) (ht : base.Tidy true) (hn : base.scopes.size = 0)
    (he : engine.Installed base) (hform : Task.ofForm engine f c.store = (.ok t, st'))
    (priority : Int32) :
    ∃ t₀ own, Task.ofForm engine f base = (.ok t₀, own) ∧
      Step base c none { c with
        sch := (c.sch.spawn t priority).2, store := st'
        crew := c.crew ++ [⟨own, t₀, base.lists.size⟩] } := by
  obtain ⟨gs, ws, hh⟩ := h.houses
  obtain ⟨t₀, own, ρ, halone, rfl, hmoves⟩ :=
    Solo.movesIn_ofForm ht hn he hh.household.kept hform
  exact ⟨t₀, own, halone, .spawn priority hmoves⟩

/-- A tick is a step, whatever it does, if the hooks enqueue and do nothing else. -/
theorem Reachable.step_of_tick {fuel : Nat} {σ : Type} {hooks : Hooks σ} {t : Tick}
    {sch : Scheduler} {s s' : σ} (h : Reachable settings base c) (hp : hooks.OnlyEnqueue base)
    (htick : Scheduler.tick fuel hooks c.sch s c.store = some (((t, sch), s'), st'))
    (hfit : st'.Fits) :
    ∃ d c', Step base c d c' ∧ c'.sch = sch ∧ c'.store = st' ∧ d.map Prod.snd = t.report? := by
  cases t with
  | idle => exact ⟨none, _, .idle htick, rfl, rfl, rfl⟩
  | ran id => exact ⟨none, _, .ran htick, rfl, rfl, rfl⟩
  | finished report =>
    obtain ⟨gs, ws, hh⟩ := h.houses
    have hall := hh.enrolAll
    obtain ⟨i, r, seat, hc, hseat, hw⟩ := Scheduler.tick_chosen htick (by simp)
    obtain ⟨res, task, mid, hwork, u, b, s₁, st₁, hcomplete, u', hremove⟩ :=
      Scheduler.workAt_hooks hw
    obtain ⟨hkeeps, henqueues⟩ := hp.onComplete report _ _ _ _ _ _ _ hcomplete
    obtain ⟨hkeeps', henqueues'⟩ := hp.onRemove report _ _ _ _ _ _ _ hremove
    have hmid : mid.Fits := (hfit.of_keepsLists hkeeps').of_keepsLists hkeeps
    obtain ⟨-, g, hg, htask, -⟩ := hall.chosen hc hseat
    have hsame : c.sch.settings = c.sch.enrolAll.settings := by rw [Scheduler.enrolAll_eq]
    have hown := hwork
    rw [htask] at hown
    obtain ⟨g', -, hothers, -⟩ := hall.works hg hown hmid
    obtain ⟨os, hos⟩ := henqueues hothers.kept
    obtain ⟨os', hos'⟩ := henqueues' (hos.paired hothers.kept)
    have ho : c.enrolAll.crew[i]? = some g.origin := by
      rw [← hall.crew, List.getElem?_map, hg, Option.map_some]
    exact ⟨_, _, .finished htick hc hseat (hsame ▸ hwork) ho (hos.trans hos'), rfl, rfl, rfl⟩

/-! ## What is reported -/

/-- The end of a task in a store of its own, as it is seen in another store, up to the names of
lists and scopes. -/
def SeenAs (own st : Store) (result : Except Failure Value) (outcome : Outcome) : Prop :=
  ∃ ρ, Paired .apart ρ own st ∧ (∀ v, result = .ok v → v.Within false own) ∧
    outcome = (Task.outcomeOf result).rename ρ

/-- **A task in company ends as it would alone.**  However the operations on a scheduler follow one
another, a task that has ended and is reported would have come to the same end, with the same
value or the same failure and with the same number of steps, if it had had a store of its own and
had not been interrupted.  The quanta that it took are those that its steps fill. -/
theorem reported_as_alone {o : Solo} {report : Report}
    (hpos : 1 ≤ settings.quantum) (hlt : settings.quantum < 2 ^ 32)
    (h : Reachable settings base c) (hs : Step base c (some (o, report)) c')
    (hfit : c'.store.Fits) :
    ∃ n result own, o.task.Ends o.store n result report.steps own ∧
      SeenAs own c'.store result report.outcome ∧
      report.quanta = max 1 ((n + settings.quantum - 1) / settings.quantum) := by
  obtain ⟨gs, ws, hh⟩ := h.houses
  cases hs with
  | @finished fuel σ hooks _ sch s s' st' mid i r seat out _ os htick hc hseat hwork ho hooked =>
    obtain ⟨g, g', outcome, hg, rfl, hworks, hout, rfl, hquanta, new, hh'⟩ :=
      hh.finished htick hc hseat hwork ho hooked hfit
    have hlives := hh.household.lives g hg
    have hq : max 1 settings.quantum = settings.quantum := Nat.max_eq_right hpos
    rw [hq] at hlives hworks
    rw [hworks.renamed, Task.outcome?_rename] at hout
    obtain ⟨alone, halone, rfl⟩ := Option.map_eq_some_iff.mp hout
    obtain ⟨-, hrests, hvalue⟩ := hlives.begins.facts
    obtain ⟨n, result, hends, rfl, hcount⟩ := Task.ends_of_worked hpos hlt hrests hvalue
      hlives.worked hworks.alone halone
    have hseen : SeenAs g'.own st' result ((Task.outcomeOf result).rename g'.addr) := by
      refine ⟨g'.addr, hooked.paired hworks.paired, fun v hv => ?_, rfl⟩
      rw [hv] at halone
      exact Task.within_value hworks.within (Scheduler.value?_of_completed halone)
    have hsteps : out.2.steps = g'.task.steps := by rw [hworks.renamed, Task.steps_rename]
    refine ⟨n, result, g'.own, ?_, hseen, ?_⟩
    · show g.origin.task.Ends _ n result out.2.steps _
      rw [hsteps]
      exact hends
    · show seat.quanta + 1 = _
      rw [hquanta, hcount]

/-! ## Two tasks from a factory -/

/-- What a host asks of a scheduler. -/
inductive Order where
  | tick
  | setSuspended (id : UInt32) (suspended : Bool)

/-- Do what is asked, as long as no list gets too long. -/
def obey (fuel : Nat) (hooks : Hooks Unit) :
    List Order → Scheduler → Store → Option (Scheduler × Store)
  | [], sch, st => some (sch, st)
  | .tick :: orders, sch, st => do
    let (((_, sch), _), st) ← Scheduler.tick fuel hooks sch () st
    if st.lists.all (·.length < 2 ^ 63) then obey fuel hooks orders sch st else none
  | .setSuspended id suspended :: orders, sch, st =>
    obey fuel hooks orders (sch.setSuspended id suspended).2 st

/-- Where orders lead can be reached. -/
theorem Reachable.obey {hooks : Hooks Unit} {fuel : Nat} (hp : hooks.OnlyEnqueue base) :
    ∀ {orders : List Order} {c : Company} {sch : Scheduler}, Reachable settings base c →
      c.store.Fits → Company.obey fuel hooks orders c.sch c.store = some (sch, st) →
      ∃ c', Reachable settings base c' ∧ c'.sch = sch ∧ c'.store = st := by
  intro orders
  induction orders with
  | nil =>
    intro c sch h _ ho
    cases ho
    exact ⟨c, h, rfl, rfl⟩
  | cons order orders ih =>
    intro c sch h hfit ho
    cases order with
    | tick =>
      obtain ⟨⟨⟨⟨t, sch₁⟩, u⟩, st₁⟩, htick, ho⟩ := Option.bind_eq_some_iff.mp ho
      dsimp only at ho
      split at ho
      · next hall =>
        have hfit₁ := Store.fits_of_all hall
        obtain ⟨d, c₁, hs, rfl, rfl, -⟩ := h.step_of_tick hp htick hfit₁
        exact ih (h.step hs hfit₁) hfit₁ ho
      · cases ho
    | setSuspended id suspended =>
      exact ih (h.step (.setSuspended c id suspended) hfit) hfit ho

/-- The elements of the list that a task has ended with. -/
def elements (st : Store) : Outcome → List Value
  | .completed v => v.items st
  | _ => []

/-- A store with the empty list of the evaluator. -/
def installedStore : Store := (({} : Store).newList []).2

/-- `((lambda (x) (list x x)) 5)`. -/
def fives : Form :=
  .list [.list [.symbol "lambda", .list [.symbol "x"],
    .list [.symbol "list", .symbol "x", .symbol "x"]], .number 5]

/-- `(list 1 2)`. -/
def oneTwo : Form := .list [.symbol "list", .number 1, .number 2]

/-- When the first task has ended, the same is to be evaluated again by the recursive engine. -/
def again : Hooks Unit where
  onComplete r := if r.id = 1 then HookWork.postForm (.classic 10 0) fives 20 else pure ()

theorem onlyEnqueue_again (ht : installedStore.Tidy true) : again.OnlyEnqueue installedStore where
  onComplete r := by
    unfold again
    dsimp only
    split
    · have hinstalled : (Engine.classic 10 0).Installed installedStore := trivial
      exact HookWork.onlyEnqueues_postForm ht rfl hinstalled fives 20
    · exact HookWork.onlyEnqueues_pure _ ()
  onRemove _ := HookWork.onlyEnqueues_pure _ ()
  onSleep ms := HookWork.onlyEnqueues_pure _ ms
  onAwaken := HookWork.onlyEnqueues_pure _ ()

/-- The frames and the evaluator have a form each.  The frames are suspended for a while, and when
they have ended another task joins.  Then the evaluator ends with its fourth quantum. -/
theorem reported_as_alone_of_forms : ∃ c c' o report,
    Reachable { quantum := 50 } installedStore c ∧ Step installedStore c (some (o, report)) c' ∧
      c'.store.Fits ∧ report.kind = "MachineTask" ∧ report.quanta = 4 ∧
      elements c'.store report.outcome = [.number 1, .number 2] ∧
      ∃ n result own, o.task.Ends o.store n result report.steps own ∧
        SeenAs own c'.store result report.outcome ∧ report.quanta = max 1 ((n + 50 - 1) / 50) := by
  let evaluator : Engine := .machine (Machine.Evaluator.program ⟨0⟩) 60 0
  let orders : List Order := [.setSuspended 1 true, .tick, .setSuspended 1 false, .tick, .tick,
    .tick, .tick]
  have htidy : installedStore.Tidy true := .newList (.empty {}) fun _ hv => by cases hv
  have hhooks := onlyEnqueue_again htidy
  have hinstalled : evaluator.Installed installedStore :=
    ⟨⟨{}, Machine.Evaluator.assemble_evaluatorText {}, by decide, rfl⟩, by decide⟩
  have hplay : ((Task.ofForm (.frame 0 0) fives installedStore).1.toOption.any fun t₁ =>
      let st₁ := (Task.ofForm (.frame 0 0) fives installedStore).2
      let sch₁ := ((Scheduler.new { quantum := 50 }).spawn t₁ 20).2
      (Task.ofForm evaluator oneTwo st₁).1.toOption.any fun t₂ =>
        let st₂ := (Task.ofForm evaluator oneTwo st₁).2
        st₁.lists.all (·.length < 2 ^ 63) && st₂.lists.all (·.length < 2 ^ 63) &&
          (obey 9 again orders (sch₁.spawn t₂ 20).2 st₂).any fun played =>
            (Scheduler.tick 9 again played.1 () played.2).any fun last =>
              last.2.lists.all (·.length < 2 ^ 63) && last.1.1.1.report?.any fun report =>
                report.kind == "MachineTask" && report.quanta == 4 &&
                  elements last.2 report.outcome == [.number 1, .number 2]) = true := by
    decide +kernel
  rcases hfirst : Task.ofForm (.frame 0 0) fives installedStore with ⟨e | t₁, st₁⟩ <;>
    rw [hfirst] at hplay
  · cases hplay
  dsimp only [Except.toOption, Option.any_some] at hplay
  rcases hsecond : Task.ofForm evaluator oneTwo st₁ with ⟨e | t₂, st₂⟩ <;> rw [hsecond] at hplay
  · cases hplay
  dsimp only [Except.toOption, Option.any_some] at hplay
  rw [Bool.and_eq_true, Bool.and_eq_true] at hplay
  obtain ⟨⟨hfit₁, hfit₂⟩, hplay⟩ := hplay
  obtain ⟨⟨sch, st⟩, hobey, hplay⟩ := (Option.any_eq_true _ _).mp hplay
  obtain ⟨⟨⟨⟨t, sch'⟩, u⟩, last⟩, htick, hplay⟩ := (Option.any_eq_true _ _).mp hplay
  rw [Bool.and_eq_true] at hplay
  obtain ⟨hfit, hreport⟩ := hplay
  obtain ⟨report, hreport, hcheck⟩ := (Option.any_eq_true _ _).mp hreport
  rw [Bool.and_eq_true, Bool.and_eq_true, beq_iff_eq, beq_iff_eq, beq_iff_eq] at hcheck
  obtain ⟨⟨hkind, hquanta⟩, helements⟩ := hcheck
  -- the two tasks join, the orders are given, and the last tick ends one of them
  have hnew : Reachable { quantum := 50 } installedStore (new { quantum := 50 } installedStore) :=
    .new htidy.lax.sealed rfl
  have hframes : (Engine.frame 0 0).Installed installedStore := trivial
  obtain ⟨task₁, own₁, -, hspawn₁⟩ := hnew.spawn_form htidy rfl hframes hfirst 20
  have hone := hnew.step hspawn₁ (Store.fits_of_all hfit₁)
  obtain ⟨task₂, own₂, -, hspawn₂⟩ := hone.spawn_form htidy rfl hinstalled hsecond 20
  have htwo := hone.step hspawn₂ (Store.fits_of_all hfit₂)
  obtain ⟨c, hc, rfl, rfl⟩ := htwo.obey hhooks (Store.fits_of_all hfit₂) hobey
  obtain ⟨d, c', hstep, -, rfl, hd⟩ := hc.step_of_tick hhooks htick (Store.fits_of_all hfit)
  rw [hreport] at hd
  obtain ⟨⟨o, last⟩, rfl, rfl⟩ := Option.map_eq_some_iff.mp hd
  have hpos : 1 ≤ ({ quantum := 50 } : ScheduleSettings).quantum := by decide
  have hlt : ({ quantum := 50 } : ScheduleSettings).quantum < 2 ^ 32 := by decide
  exact ⟨c, c', o, _, hc, hstep, Store.fits_of_all hfit, hkind, hquanta, helements,
    reported_as_alone hpos hlt hc hstep (Store.fits_of_all hfit)⟩

end Company

end LispEngines
