import LispEngines.Proofs.Schedule.Ticking

/-!
# The ledger of a scheduler

A ledger records what there is to see of a scheduler from outside: each task number that is
drawn, each call of a hook for a task that leaves, and each report that a tick or a
cancellation hands back.  It is kept by the hooks themselves, so it works for whatever hooks
the user has, as long as these do nothing to the mailbox but post.

* `Scheduler.Operation`, `Scheduler.History`: operations, and sequences of them, with their ledger.
* `Scheduler.Balanced`: the ledger agrees with the row and the mailbox.  Every task number
  that was drawn is in the row, in the mailbox or among the reports of tasks that have left.
* `Scheduler.balanced_operation`: every operation keeps it so.  What follows for a whole history
  is `Scheduler.accounts_balance`.
-/

namespace LispEngines

/-! ## Entries -/

/-- Something there is to see of a scheduler. -/
inductive Notice where
  /-- A task number was drawn. -/
  | drawn (id : UInt32)
  /-- The hook for a task that is about to leave was called. -/
  | completed (report : Report)
  /-- The hook for a task that has left was called. -/
  | removed (report : Report)
  /-- A tick handed back a report. -/
  | ticked (report : Report)
  /-- A cancellation handed back a report. -/
  | cancelled (report : Report)

abbrev Ledger := List Notice

namespace Ledger

/-- The task numbers that were drawn; the idle task had the first. -/
def ids (l : Ledger) : List UInt32 :=
  0 :: l.filterMap fun | .drawn id => some id | _ => none

/-- The reports of the tasks that have left. -/
def removals (l : Ledger) : List Report :=
  l.filterMap fun | .removed report => some report | _ => none

/-- The entries other than draws. -/
def calls (l : Ledger) : Ledger := l.filter fun | .drawn _ => false | _ => true

@[simp] theorem ids_append (l l' : Ledger) :
    ids (l ++ l') = ids l ++ l'.filterMap fun | .drawn id => some id | _ => none := by
  simp [ids]

@[simp] theorem removals_append (l l' : Ledger) :
    removals (l ++ l') = removals l ++ removals l' := List.filterMap_append

@[simp] theorem calls_append (l l' : Ledger) : calls (l ++ l') = calls l ++ calls l' :=
  List.filter_append ..

/-- Draws are neither calls nor removals. -/
theorem draws (drawn : List UInt32) :
    removals (drawn.map .drawn) = [] ∧ calls (drawn.map .drawn) = [] ∧
      (drawn.map Notice.drawn).filterMap (fun | .drawn id => some id | _ => none) = drawn := by
  induction drawn with
  | nil => exact ⟨rfl, rfl, rfl⟩
  | cons id drawn ih =>
    obtain ⟨h₁, h₂, h₃⟩ := ih
    exact ⟨h₁, h₂, congrArg (id :: ·) h₃⟩

end Ledger

/-- What there is to see, draws apart, of a task that leaves.  The same report is handed to
everyone. -/
def Report.notices (r : Report) : Ledger :=
  match r.outcome with
  | .cancelled => [.removed r, .cancelled r]
  | _ => [.completed r, .removed r, .ticked r]

/-! ## Hooks that keep a ledger -/

namespace Mailbox

/-- Nothing was done to the mailbox but to post. -/
inductive Posts (b : Mailbox) : Mailbox → Prop
  | refl : Posts b b
  | post {b' : Mailbox} (h : Posts b b') (task : Task) (priority : Int32) :
      Posts b (b'.post task priority).2

/-- The task numbers that were drawn for a mailbox since it was `b`. -/
def drawnSince (b b' : Mailbox) : List UInt32 := (b'.arrivals.drop b.arrivals.length).map (·.id)

/-- The numbers that are drawn follow one another. -/
theorem Posts.arrivals {b b' : Mailbox} (h : Posts b b') :
    ∃ new : List Arrival, b'.arrivals = b.arrivals ++ new ∧
      new.map (·.id) = (List.range new.length).map (b.nextId + UInt32.ofNat ·) ∧
      b'.nextId = b.nextId + UInt32.ofNat new.length := by
  induction h with
  | refl => exact ⟨[], (List.append_nil _).symm, rfl, (UInt32.add_zero _).symm⟩
  | @post b' _ task priority ih =>
    obtain ⟨new, ha, hids, hn⟩ := ih
    refine ⟨new ++ [⟨b'.nextId, priority, task⟩], ?_, ?_, ?_⟩
    · show b'.arrivals ++ [_] = _
      rw [ha, List.append_assoc]
    · rw [List.map_append, hids, List.length_append, List.length_singleton, List.range_succ,
        List.map_append, hn]
      rfl
    · show b'.nextId + 1 = _
      rw [hn, List.length_append, List.length_singleton, UInt32.ofNat_add, UInt32.add_assoc]
      rfl

theorem drawnSince_append {b b' : Mailbox} {new : List Arrival}
    (h : b'.arrivals = b.arrivals ++ new) : drawnSince b b' = new.map (·.id) := by
  rw [drawnSince, h, List.drop_left]

end Mailbox

namespace HookWork

variable {σ α : Type}

/-- The hook posts, and does nothing else to the mailbox. -/
def OnlyPosts (h : HookWork σ α) : Prop :=
  ∀ b s st a b' s' st', h b s st = some (((a, b'), s'), st') → b.Posts b'

/-- The hook, with a ledger in which its call and its draws are entered. -/
def noted (entry : Ledger) (h : HookWork σ α) : HookWork (σ × Ledger) α := fun b (s, l) st => do
  let (((a, b'), s'), st') ← h b s st
  return (((a, b'), (s', l ++ entry ++ (Mailbox.drawnSince b b').map .drawn)), st')

theorem noted_eq_some {entry l l' : Ledger} {h : HookWork σ α} {b b' : Mailbox} {s s' : σ}
    {st st' : Store} {a : α} (hn : noted entry h b (s, l) st = some (((a, b'), (s', l')), st')) :
    h b s st = some (((a, b'), s'), st') ∧
      l' = l ++ entry ++ (Mailbox.drawnSince b b').map .drawn := by
  obtain ⟨⟨⟨⟨a₁, b₁⟩, s₁⟩, st₁⟩, hh, hr⟩ := Option.bind_eq_some_iff.mp hn
  cases hr
  exact ⟨hh, rfl⟩

end HookWork

namespace Hooks

variable {σ : Type}

/-- Hooks with a ledger. -/
def noted (hooks : Hooks σ) : Hooks (σ × Ledger) where
  onComplete r := (hooks.onComplete r).noted [.completed r]
  onRemove r := (hooks.onRemove r).noted [.removed r]
  onSleep ms := (hooks.onSleep ms).noted []
  onAwaken := hooks.onAwaken.noted []

/-- Hooks that do nothing to the mailbox but post. -/
structure OnlyPost (hooks : Hooks σ) : Prop where
  onComplete : ∀ r, (hooks.onComplete r).OnlyPosts
  onRemove : ∀ r, (hooks.onRemove r).OnlyPosts
  onSleep : ∀ ms, (hooks.onSleep ms).OnlyPosts
  onAwaken : hooks.onAwaken.OnlyPosts

end Hooks

/-! ## Choosing leaves the seats in place -/

namespace Rota

/-- The same seats in the same order; what was not ready is as it was, and the cursor is
in the row if it was. -/
structure Keeps (r r' : Rota) : Prop where
  ids : r'.seats.map Seat.id = r.seats.map Seat.id
  unready : ∀ (i : Nat) (s : Seat), r.seats[i]? = some s → s.isReady = false → r'.seats[i]? = some s
  cursor : r.cursor < r.seats.length → r'.cursor < r'.seats.length

variable {r r₁ r' : Rota}

theorem Keeps.refl (r : Rota) : Keeps r r := ⟨rfl, fun _ _ h _ => h, id⟩

theorem Keeps.trans (h : Keeps r r₁) (h' : Keeps r₁ r') : Keeps r r' where
  ids := h'.ids.trans h.ids
  unready i s hs hu := h'.unready i s (h.unready i s hs hu) hu
  cursor hc := h'.cursor (h.cursor hc)

theorem Keeps.length_eq (h : Keeps r r') : r'.seats.length = r.seats.length := by
  have hl := congrArg List.length h.ids
  rwa [List.length_map, List.length_map] at hl

/-- Changing a seat that is ready, and moving on. -/
theorem keeps_set {i : Nat} {s s' : Seat} (hs : r.seats[i]? = some s) (hr : s.isReady = true)
    (hid : s'.id = s.id) {cursor : Nat} (hc : cursor < r.seats.length) :
    Keeps r { seats := r.seats.set i s', cursor } where
  ids := map_set_of_eq hs hid
  unready j t ht hu := by
    have hne : i ≠ j := by
      rintro rfl
      rw [hs, Option.some.injEq] at ht
      rw [← ht, hr] at hu
      cases hu
    rw [List.getElem?_set_ne hne, ht]
  cursor _ := by rwa [List.length_set]

theorem keeps_visit (r : Rota) (hpos : 0 < r.seats.length) :
    Keeps r r.visit.2 ∧
      ∀ i, r.visit.1 = some i → ∃ s, r.visit.2.seats[i]? = some s ∧ s.isReady = true := by
  have hlt : (r.cursor % r.seats.length + 1) % r.seats.length < r.seats.length :=
    Nat.mod_lt _ hpos
  have hmove : Keeps r { r with cursor := (r.cursor % r.seats.length + 1) % r.seats.length } :=
    ⟨rfl, fun _ _ h _ => h, fun _ => hlt⟩
  rcases hs : r.seats[r.cursor % r.seats.length]? with _ | s
  · simp only [visit, hs]
    exact ⟨hmove, fun _ hi => by cases hi⟩
  rcases hr : s.isReady with _ | _
  · simp only [visit, hs, hr, Bool.not_false, if_true]
    exact ⟨hmove, fun _ hi => by cases hi⟩
  obtain ⟨hi, -⟩ := List.getElem?_eq_some_iff.mp hs
  by_cases hl : lower s.level 1 ≤ runLevel
  · simp only [visit, hs, hr, Bool.not_true, Bool.false_eq_true, if_false, hl, if_true]
    refine ⟨keeps_set hs hr (by rfl) hlt, fun i hi' => ?_⟩
    cases hi'
    exact ⟨_, List.getElem?_set_self hi, hr⟩
  · simp only [visit, hs, hr, Bool.not_true, Bool.false_eq_true, if_false, hl]
    exact ⟨keeps_set hs hr (by rfl) hlt, fun _ hi => by cases hi⟩

theorem keeps_visits : ∀ (n : Nat) (r : Rota), 0 < r.seats.length →
    Keeps r (r.visits n).2 ∧
      ∀ i, (r.visits n).1 = some i → ∃ s, (r.visits n).2.seats[i]? = some s ∧ s.isReady = true
  | 0, r, _ => ⟨.refl r, nofun⟩
  | n + 1, r, hpos => by
    obtain ⟨hk, hi⟩ := keeps_visit r hpos
    rw [visits]
    rcases hv : r.visit with ⟨_ | i, r₁⟩ <;> rw [hv] at hk hi
    · obtain ⟨hk', hi'⟩ := keeps_visits n r₁ (hk.length_eq ▸ hpos)
      exact ⟨hk.trans hk', hi'⟩
    · exact ⟨hk, hi⟩

theorem keeps_skip (r : Rota) (laps : Int32) : Keeps r (r.skip laps) := by
  rw [skip]
  split
  · refine ⟨?_, fun i s hs hu => ?_, fun hc => by rwa [List.length_map]⟩
    · rw [List.map_map]
      refine List.map_congr_left fun s _ => ?_
      rw [Function.comp_apply]
      split <;> rfl
    · rw [List.getElem?_map, hs, Option.map_some, if_neg (by simp [hu])]
  · exact .refl r

theorem keeps_chooseWithin : ∀ (laps : Nat) {r r' : Rota} {i : Nat}, 0 < r.seats.length →
    r.chooseWithin laps = some (i, r') →
    Keeps r r' ∧ ∃ s, r'.seats[i]? = some s ∧ s.isReady = true
  | 0, _, _, _, _, h => nomatch h
  | laps + 1, r, r', i, hpos, h => by
    obtain ⟨hk, hi⟩ := keeps_visits r.seats.length r hpos
    rw [chooseWithin] at h
    rcases hv : r.visits r.seats.length with ⟨_ | j, r₁⟩ <;> rw [hv] at hk hi h
    · have hs := hk.trans (keeps_skip r₁ r₁.quietLaps)
      obtain ⟨hk', hi'⟩ := keeps_chooseWithin laps (hs.length_eq ▸ hpos) h
      exact ⟨hs.trans hk', hi'⟩
    · cases h
      exact ⟨hk, hi _ rfl⟩

/-- The row after a choice, and the seat that was chosen. -/
theorem keeps_choose {i : Nat} (hpos : 0 < r.seats.length) (h : r.choose = some (i, r')) :
    Keeps r r' ∧ ∃ s, r'.seats[i]? = some s ∧ s.isReady = true := by
  rw [choose] at h
  split at h
  · exact keeps_chooseWithin 3 hpos h
  · cases h

end Rota

namespace Scheduler

/-! ## Operations -/

/-- One operation on a scheduler, and what is entered in the ledger.  The hooks are whatever
they are, as long as they do nothing to the mailbox but post, and so are the store, the fuel
and the state of the user. -/
inductive Operation : Scheduler → Ledger → Scheduler → Prop
  | spawn (sch : Scheduler) (task : Task) (priority : Int32) :
      Operation sch [.drawn (sch.spawn task priority).1] (sch.spawn task priority).2
  | post (sch : Scheduler) (task : Task) (priority : Int32) :
      Operation sch [.drawn (sch.post task priority).1] (sch.post task priority).2
  | setSuspended (sch : Scheduler) (id : UInt32) (suspended : Bool) :
      Operation sch [] (sch.setSuspended id suspended).2
  | cancel {σ : Type} {hooks : Hooks σ} (hp : hooks.OnlyPost) {id : UInt32} {l : Ledger}
      {sch sch' : Scheduler} {report? : Option Report} {s s' : σ} {st st' : Store}
      (h : cancel hooks.noted id sch (s, []) st = some (((report?, sch'), (s', l)), st')) :
      Operation sch (l ++ report?.toList.map .cancelled) sch'
  | tick {σ : Type} {hooks : Hooks σ} (hp : hooks.OnlyPost) {fuel : Nat} {l : Ledger}
      {sch sch' : Scheduler} {t : Tick} {s s' : σ} {st st' : Store}
      (h : tick fuel hooks.noted sch (s, []) st = some (((t, sch'), (s', l)), st')) :
      Operation sch (l ++ t.report?.toList.map .ticked) sch'
  | sleep {σ : Type} {hooks : Hooks σ} (hp : hooks.OnlyPost) {l : Ledger}
      {sch sch' : Scheduler} {ms : Nat} {s s' : σ} {st st' : Store}
      (h : sleep hooks.noted sch (s, []) st = some (((ms, sch'), (s', l)), st')) : Operation sch l sch'

/-- A sequence of operations, with the ledger of all of them. -/
inductive History : Scheduler → Ledger → Scheduler → Prop
  | nil (sch : Scheduler) : History sch [] sch
  | snoc {sch sch₁ sch' : Scheduler} {l l' : Ledger} (h : History sch l sch₁)
      (hs : Operation sch₁ l' sch') : History sch (l ++ l') sch'

/-! ## The balance -/

/-- The seat of the idle task, as it is from the beginning. -/
def idleSeat : Seat :=
  { id := 0, priority := Rota.idlePriority, level := Rota.idlePriority, task := .idle }

/-- The ledger agrees with the row and the mailbox. -/
structure Balanced (sch : Scheduler) (l : Ledger) : Prop where
  idle : sch.rota.seats.head? = some idleSeat
  cursor : sch.rota.cursor < sch.rota.seats.length
  /-- The numbers were drawn in order. -/
  ids : l.ids = (List.range l.ids.length).map UInt32.ofNat
  next : sch.mailbox.nextId = UInt32.ofNat l.ids.length
  everyone : l.ids.Perm (sch.rota.seats.map Seat.id ++ sch.mailbox.arrivals.map Arrival.id ++
    l.removals.map Report.id)

variable {sch sch' : Scheduler} {l l' : Ledger}

theorem balanced_new (settings : ScheduleSettings) : Balanced (new settings) [] where
  idle := rfl
  cursor := Nat.zero_lt_one
  ids := rfl
  next := rfl
  everyone := List.Perm.refl _

/-- Numbers are drawn for arrivals in the mailbox. -/
theorem Balanced.posts (h : Balanced sch l) {b : Mailbox} (hb : sch.mailbox.Posts b) :
    Balanced { sch with mailbox := b } (l ++ (sch.mailbox.drawnSince b).map .drawn) := by
  obtain ⟨new, ha, hids, hn⟩ := hb.arrivals
  rw [Mailbox.drawnSince_append ha]
  obtain ⟨hr, -, hd⟩ := Ledger.draws (new.map (·.id))
  have hi : (l ++ (new.map (·.id)).map Notice.drawn).ids = l.ids ++ new.map (·.id) := by
    rw [Ledger.ids_append, hd]
  have hlen : (l.ids ++ new.map (·.id)).length = l.ids.length + new.length := by
    rw [List.length_append, List.length_map]
  refine ⟨h.idle, h.cursor, ?_, ?_, ?_⟩
  · rw [hi, hlen, List.range_add, List.map_append, ← h.ids, List.map_map, hids, h.next]
    refine congrArg _ (List.map_congr_left fun k _ => ?_)
    rw [Function.comp_apply, UInt32.ofNat_add]
  · rw [hi, hlen, UInt32.ofNat_add, ← h.next]
    exact hn
  · rw [hi, Ledger.removals_append, hr, List.append_nil]
    change List.Perm _ (sch.rota.seats.map Seat.id ++ b.arrivals.map Arrival.id ++ _)
    rw [ha, List.map_append]
    refine (h.everyone.append_right _).trans ?_
    simp only [List.append_assoc]
    exact ((List.perm_append_comm).append_left _).append_left _

theorem Balanced.spawn (h : Balanced sch l) (task : Task) (priority : Int32) :
    Balanced (sch.spawn task priority).2 (l ++ [.drawn (sch.spawn task priority).1]) := by
  have hseats : (sch.spawn task priority).2.rota.seats = sch.rota.seats ++
      [{ id := sch.mailbox.nextId, priority, level := priority, task }] := rfl
  have hi : (l ++ [Notice.drawn sch.mailbox.nextId]).ids = l.ids ++ [sch.mailbox.nextId] :=
    Ledger.ids_append _ _
  have hr : (l ++ [Notice.drawn sch.mailbox.nextId]).removals = l.removals := by
    rw [Ledger.removals_append]
    exact List.append_nil _
  change Balanced _ (l ++ [.drawn sch.mailbox.nextId])
  refine ⟨?_, ?_, ?_, ?_, ?_⟩
  · rw [hseats, List.head?_append, h.idle]
    rfl
  · rw [hseats, List.length_append]
    exact Nat.lt_add_right _ h.cursor
  · rw [hi, List.length_append, List.length_singleton, List.range_succ, List.map_append, ← h.ids,
      h.next]
    rfl
  · rw [hi, List.length_append, List.length_singleton, UInt32.ofNat_add, ← h.next]
    rfl
  · rw [hi, hr, hseats, List.map_append]
    refine (h.everyone.append_right _).trans ?_
    simp only [List.append_assoc]
    exact ((List.Perm.of_eq (List.append_assoc ..).symm).trans List.perm_append_comm).append_left _

/-- Who was posted joins the row. -/
theorem Balanced.enrolAll (h : Balanced sch l) : Balanced sch.enrolAll l := by
  have hfold (arrivals : List Arrival) (sch : Scheduler) :
      (arrivals.foldl enrol sch).rota.seats.map Seat.id =
          sch.rota.seats.map Seat.id ++ arrivals.map Arrival.id ∧
        (sch.rota.seats.head? = some idleSeat →
          (arrivals.foldl enrol sch).rota.seats.head? = some idleSeat) ∧
        (arrivals.foldl enrol sch).rota.cursor = sch.rota.cursor ∧
        (arrivals.foldl enrol sch).mailbox = sch.mailbox := by
    induction arrivals generalizing sch with
    | nil => exact ⟨(List.append_nil _).symm, id, rfl, rfl⟩
    | cons a arrivals ih =>
      obtain ⟨h₁, h₂, h₃, h₄⟩ := ih (sch.enrol a)
      refine ⟨?_, fun hh => h₂ ?_, h₃, h₄⟩
      · rw [List.foldl_cons, h₁, enrol, Rota.insert, List.map_append, List.append_assoc]
        rfl
      · rw [enrol, Rota.insert, List.head?_append, hh]
        rfl
  obtain ⟨h₁, h₂, h₃, h₄⟩ := hfold sch.mailbox.arrivals
    { sch with mailbox := { sch.mailbox with arrivals := [] } }
  change (sch.enrolAll.rota.seats.map Seat.id = _) at h₁
  change (_ → sch.enrolAll.rota.seats.head? = _) at h₂
  change (sch.enrolAll.rota.cursor = sch.rota.cursor) at h₃
  change (sch.enrolAll.mailbox = _) at h₄
  refine ⟨h₂ h.idle, ?_, h.ids, ?_, ?_⟩
  · have hl := congrArg List.length h₁
    rw [List.length_map, List.length_append, List.length_map] at hl
    rw [h₃, hl]
    exact Nat.lt_add_right _ h.cursor
  · rw [h₄]
    exact h.next
  · rw [h₁, h₄]
    simpa using h.everyone

/-- A seat that is not the idle task's is not the first. -/
theorem Balanced.ne_zero (h : Balanced sch l) {i : Nat} {s : Seat}
    (hs : sch.rota.seats[i]? = some s) (hi : s.task.isIdle = false) : i ≠ 0 := by
  rintro rfl
  rw [← List.head?_eq_getElem?, h.idle] at hs
  cases hs
  cases hi

/-- The row changes in places, and the idle task's seat does not. -/
theorem Balanced.changes (h : Balanced sch l) {r : Rota}
    (hids : r.seats.map Seat.id = sch.rota.seats.map Seat.id)
    (hi : r.seats.head? = some idleSeat) (hc : r.cursor < r.seats.length) :
    Balanced { sch with rota := r } l :=
  ⟨hi, hc, h.ids, h.next, by rw [hids]; exact h.everyone⟩

theorem Balanced.keeps (h : Balanced sch l) {r : Rota} (hk : sch.rota.Keeps r) :
    Balanced { sch with rota := r } l := by
  refine h.changes hk.ids ?_ (hk.cursor h.cursor)
  rw [List.head?_eq_getElem?]
  exact hk.unready 0 _ (List.head?_eq_getElem? .. ▸ h.idle) rfl

theorem Balanced.setSuspended (h : Balanced sch l) (id : UInt32) (suspended : Bool) :
    Balanced (sch.setSuspended id suspended).2 l := by
  obtain heq | ⟨i, seat, hseat, -, hbusy, heq⟩ := sch.setSuspended_cases id suspended <;> rw [heq]
  · exact h
  · have hne := h.ne_zero hseat hbusy
    have hids := Rota.map_modify_of_eq (f := Seat.id) (g := fun s => { s with suspended })
      (fun _ => rfl) sch.rota.seats i
    refine h.changes hids ?_ (by rw [List.length_modify]; exact h.cursor)
    rw [List.head?_eq_getElem?]
    refine (List.getElem?_modify_ne _ _ hne).trans ?_
    rw [← List.head?_eq_getElem?]
    exact h.idle

/-- A seat leaves the row. -/
theorem Balanced.remove (h : Balanced sch l) {i : Nat} {s : Seat}
    (hs : sch.rota.seats[i]? = some s) (hi : i ≠ 0) {report : Report} (hr : report.id = s.id) :
    Balanced { sch with rota := sch.rota.remove i } (l ++ [.removed report]) := by
  obtain ⟨hlt, hget⟩ := List.getElem?_eq_some_iff.mp hs
  obtain ⟨i, rfl⟩ : ∃ k, i = k + 1 := ⟨i - 1, by omega⟩
  have hids : (l ++ [Notice.removed report]).ids = l.ids := by
    rw [Ledger.ids_append]
    exact List.append_nil _
  have hrem : (l ++ [Notice.removed report]).removals = l.removals ++ [report] :=
    Ledger.removals_append _ _
  have hpos : 0 < (sch.rota.seats.eraseIdx (i + 1)).length := by
    rw [List.length_eraseIdx_of_lt hlt]
    omega
  refine ⟨?_, Nat.mod_lt _ hpos, ?_, ?_, ?_⟩
  · rw [List.head?_eq_getElem?]
    refine (List.getElem?_eraseIdx_of_lt (Nat.zero_lt_succ i)).trans ?_
    rw [← List.head?_eq_getElem?, h.idle]
  · rw [hids]
    exact h.ids
  · rw [hids]
    exact h.next
  · have hperm : (sch.rota.seats.map Seat.id).Perm
        (report.id :: (sch.rota.seats.eraseIdx (i + 1)).map Seat.id) := by
      rw [hr, ← hget, ← List.map_cons]
      exact ((List.getElem_cons_eraseIdx_perm hlt).map Seat.id).symm
    rw [hids, hrem, List.map_append]
    refine h.everyone.trans (((hperm.append_right _).append_right _).trans ?_)
    rw [List.cons_append, List.cons_append]
    exact (List.perm_append_singleton _ _).symm.trans (List.Perm.of_eq (List.append_assoc ..))

/-- Entries that are neither draws nor removals do not count. -/
theorem Balanced.entered (h : Balanced sch l) {n : Notice} (hd : ∀ id, n ≠ .drawn id)
    (hr : ∀ r, n ≠ .removed r) : Balanced sch (l ++ [n]) := by
  have hids : (l ++ [n]).ids = l.ids := by
    rw [Ledger.ids_append]
    cases n with
    | drawn id => exact absurd rfl (hd id)
    | _ => exact List.append_nil _
  have hrem : (l ++ [n]).removals = l.removals := by
    rw [Ledger.removals_append]
    cases n with
    | removed r => exact absurd rfl (hr r)
    | _ => exact List.append_nil _
  exact ⟨h.idle, h.cursor, by rw [hids]; exact h.ids, by rw [hids]; exact h.next,
    by rw [hids, hrem]; exact h.everyone⟩

/-! ## Operations keep the balance -/

/-- A hook that posts, with its entry. -/
theorem balanced_callHook {σ α : Type} {h : HookWork σ α} {l₀ entry : Ledger} {a : α} {s s' : σ}
    {st st' : Store} (hb : Balanced sch (l₀ ++ (l ++ entry))) (hp : h.OnlyPosts)
    (hc : callHook (h.noted entry) sch (s, l) st = some (((a, sch'), (s', l')), st')) :
    Balanced sch' (l₀ ++ l') ∧ sch'.rota = sch.rota ∧
      ∃ drawn : List UInt32, l' = l ++ entry ++ drawn.map .drawn := by
  unfold callHook at hc
  obtain ⟨⟨⟨⟨a₁, b⟩, s₁, l₁⟩, st₁⟩, hh, hr⟩ := Option.bind_eq_some_iff.mp hc
  cases hr
  obtain ⟨hn, rfl⟩ := HookWork.noted_eq_some hh
  have hb' := hb.posts (hp _ _ _ _ _ _ _ hn)
  rw [List.append_assoc] at hb'
  exact ⟨hb', rfl, _, rfl⟩

/-- A removal enters the report that it hands back. -/
theorem balanced_remove {σ : Type} {hooks : Hooks σ} (hp : hooks.OnlyPost) {i : Nat} {seat : Seat}
    {outcome : Outcome} {report : Report} {l₀ : Ledger} {s s' : σ} {st st' : Store}
    (hb : Balanced sch (l₀ ++ l)) (hs : sch.rota.seats[i]? = some seat) (hi : i ≠ 0)
    (hr : remove hooks.noted i seat outcome sch (s, l) st =
      some (((report, sch'), (s', l')), st')) :
    Balanced sch' (l₀ ++ l') ∧ report = seat.report outcome ∧
      ∃ drawn : List UInt32, l' = l ++ [.removed report] ++ drawn.map .drawn := by
  obtain ⟨⟨⟨⟨u, sch₁⟩, s₁, l₁⟩, st₁⟩, hc, hr⟩ : ∃ p, callHook (hooks.noted.onRemove
      (seat.report outcome)) { sch with rota := sch.rota.remove i } (s, l) st = some p ∧ _ :=
    Option.bind_eq_some_iff.mp hr
  cases hr
  have hb' := @Balanced.remove _ _ hb _ _ hs hi (seat.report outcome) rfl
  rw [List.append_assoc] at hb'
  obtain ⟨hb', -, hl⟩ := balanced_callHook hb' (hp.onRemove _) hc
  exact ⟨hb', rfl, hl⟩

/-- The entries of an operation: no calls, or those for one task that leaves. -/
def Orderly (l : Ledger) : Prop := l.calls = l.removals.flatMap Report.notices

theorem balanced_cancel {σ : Type} {hooks : Hooks σ} (hp : hooks.OnlyPost) {id : UInt32}
    {report? : Option Report} {l₀ : Ledger} {s s' : σ} {st st' : Store} (hb : Balanced sch l₀)
    (h : cancel hooks.noted id sch (s, []) st = some (((report?, sch'), (s', l)), st')) :
    Balanced sch' (l₀ ++ (l ++ report?.toList.map .cancelled)) ∧
      Orderly (l ++ report?.toList.map .cancelled) := by
  rw [cancel_eq] at h
  rcases hpos : sch.rota.position? id with _ | i
  · rw [hpos] at h
    cases h
    exact ⟨(List.append_nil l₀).symm ▸ hb, rfl⟩
  obtain ⟨seat, hs, hi⟩ := Rota.seat_of_position? hpos
  rw [hpos] at h
  simp only [hs] at h
  obtain ⟨⟨⟨⟨report, sch₁⟩, s₁, l₁⟩, st₁⟩, hr, h⟩ := Option.bind_eq_some_iff.mp h
  cases h
  obtain ⟨hb', hrep, drawn, rfl⟩ := balanced_remove hp
    (show Balanced sch (l₀ ++ []) by rwa [List.append_nil]) hs (hb.ne_zero hs hi) hr
  obtain ⟨hd, hc, -⟩ := Ledger.draws drawn
  have hb₂ := hb'.entered (n := .cancelled report) nofun nofun
  rw [List.append_assoc] at hb₂
  refine ⟨hb₂, ?_⟩
  subst hrep
  simp only [Orderly, Option.toList, List.map_cons, List.map_nil, Ledger.calls_append,
    Ledger.removals_append, hd, hc, List.nil_append, List.append_nil]
  rfl

/-- A task that leaves in a tick was not cancelled. -/
theorem notices_of_outcome? {task : Task} {r : Except Failure Unit} {outcome : Outcome}
    (h : outcome? task r = some outcome) (seat : Seat) :
    (seat.report outcome).notices = [.completed (seat.report outcome),
      .removed (seat.report outcome), .ticked (seat.report outcome)] := by
  have hne : outcome ≠ .cancelled := by
    rintro rfl
    rcases r with e | u
    · cases h
    · rcases hv : task.value? with _ | v
      · simp [outcome?, hv] at h
      · simp [outcome?, hv] at h
  cases outcome with
  | cancelled => exact absurd rfl hne
  | _ => rfl

theorem balanced_tick {σ : Type} {hooks : Hooks σ} (hp : hooks.OnlyPost) {fuel : Nat} {t : Tick}
    {l₀ : Ledger} {s s' : σ} {st st' : Store} (hb : Balanced sch l₀)
    (h : tick fuel hooks.noted sch (s, []) st = some (((t, sch'), (s', l)), st')) :
    Balanced sch' (l₀ ++ (l ++ t.report?.toList.map .ticked)) ∧
      Orderly (l ++ t.report?.toList.map .ticked) := by
  have hb₁ := hb.enrolAll
  rw [tick_eq] at h
  rcases hc : sch.enrolAll.rota.choose with _ | ⟨i, r⟩
  · rw [hc] at h
    cases h
    exact ⟨(List.append_nil l₀).symm ▸ hb₁, rfl⟩
  obtain ⟨hk, seat, hs, hready⟩ := Rota.keeps_choose (Nat.zero_lt_of_lt hb₁.cursor) hc
  have hb₂ := hb₁.keeps hk
  have hidle : seat.task.isIdle = false := by
    cases hi : seat.task.isIdle with
    | false => rfl
    | true => simp [Seat.isReady, hi] at hready
  have hne := hb₂.ne_zero hs hidle
  rw [hc] at h
  simp only [hs, workAt_eq] at h
  obtain ⟨⟨⟨res, task⟩, st₁⟩, -, h⟩ := Option.bind_eq_some_iff.mp h
  obtain ⟨worked, hworked⟩ : ∃ w : Seat, w = { seat with task, quanta := seat.quanta + 1 } :=
    ⟨_, rfl⟩
  simp only [← hworked] at h
  have hk₃ : Rota.Keeps r (r.set i worked) :=
    Rota.keeps_set hs hready (by rw [hworked]) hb₂.cursor
  have hb₃ := hb₂.keeps hk₃
  have hs₃ : (r.set i worked).seats[i]? = some worked :=
    List.getElem?_set_self (List.getElem?_eq_some_iff.mp hs).1
  rcases ho : outcome? task res with _ | outcome
  · simp only [ho] at h
    cases h
    exact ⟨(List.append_nil l₀).symm ▸ hb₃, rfl⟩
  simp only [ho] at h
  obtain ⟨⟨⟨⟨u, sch₁⟩, s₁, l₁⟩, st₂⟩, hcall, h⟩ := Option.bind_eq_some_iff.mp h
  obtain ⟨⟨⟨⟨report, sch₂⟩, s₂, l₂⟩, st₃⟩, hrem, h⟩ := Option.bind_eq_some_iff.mp h
  cases h
  obtain ⟨hb₄, hrota, drawn, rfl⟩ := balanced_callHook
    (hb₃.entered (n := .completed _) nofun nofun) (hp.onComplete _) hcall
  have hs₄ : sch₁.rota.seats[i]? = some worked := by rw [hrota, hs₃]
  obtain ⟨hb₅, hrep, drawn', rfl⟩ := balanced_remove hp hb₄ hs₄ hne hrem
  have hb₆ := hb₅.entered (n := .ticked report) nofun nofun
  rw [List.append_assoc] at hb₆
  refine ⟨hb₆, ?_⟩
  subst hrep
  obtain ⟨hd, hcl, -⟩ := Ledger.draws drawn
  obtain ⟨hd', hcl', -⟩ := Ledger.draws drawn'
  simp only [Orderly, Tick.report?, Option.toList, List.map_cons, List.map_nil,
    Ledger.calls_append, Ledger.removals_append, hd, hcl, hd', hcl', List.nil_append,
    List.append_nil]
  exact (notices_of_outcome? ho _).symm.trans (List.append_nil _).symm

theorem balanced_sleep {σ : Type} {hooks : Hooks σ} (hp : hooks.OnlyPost) {ms : Nat}
    {l₀ : Ledger} {s s' : σ} {st st' : Store} (hb : Balanced sch l₀)
    (h : sleep hooks.noted sch (s, []) st = some (((ms, sch'), (s', l)), st')) :
    Balanced sch' (l₀ ++ l) ∧ Orderly l := by
  obtain ⟨⟨⟨⟨ms₁, sch₁⟩, s₁, l₁⟩, st₁⟩, hcall, h⟩ : ∃ p, callHook (hooks.noted.onSleep
      sch.settings.idleSleep) sch (s, []) st = some p ∧ _ := Option.bind_eq_some_iff.mp h
  obtain ⟨⟨⟨⟨u, sch₂⟩, s₂, l₂⟩, st₂⟩, hcall', h⟩ := Option.bind_eq_some_iff.mp h
  cases h
  obtain ⟨hb₁, -, drawn, rfl⟩ := balanced_callHook
    (show Balanced sch (l₀ ++ ([] ++ [])) by simpa using hb) (hp.onSleep _) hcall
  obtain ⟨hb₂, -, drawn', rfl⟩ := balanced_callHook (by rwa [List.append_nil]) hp.onAwaken hcall'
  obtain ⟨hd, hcl, -⟩ := Ledger.draws drawn
  obtain ⟨hd', hcl', -⟩ := Ledger.draws drawn'
  refine ⟨hb₂, ?_⟩
  simp [Orderly, hd, hcl, hd', hcl']

/-- Every operation keeps the balance, and its entries are in order. -/
theorem balanced_operation (hb : Balanced sch l) (h : Operation sch l' sch') :
    Balanced sch' (l ++ l') ∧ Orderly l' := by
  cases h with
  | spawn sch task priority => exact ⟨hb.spawn task priority, rfl⟩
  | post sch task priority =>
    have h := hb.posts (.post .refl task priority)
    rw [@Mailbox.drawnSince_append _ _ [⟨sch.mailbox.nextId, priority, task⟩] rfl] at h
    exact ⟨h, rfl⟩
  | setSuspended sch id suspended =>
    exact ⟨(List.append_nil l).symm ▸ hb.setSuspended id suspended, rfl⟩
  | cancel hp h => exact balanced_cancel hp hb h
  | tick hp h => exact balanced_tick hp hb h
  | sleep hp h => exact balanced_sleep hp hb h

theorem balanced_history {settings : ScheduleSettings} (h : History (new settings) l sch) :
    Balanced sch l ∧ Orderly l := by
  induction h with
  | nil => exact ⟨balanced_new settings, rfl⟩
  | snoc _ hop ih =>
    obtain ⟨hb, ho⟩ := ih
    obtain ⟨hb', ho'⟩ := balanced_operation hb hop
    refine ⟨hb', ?_⟩
    rw [Orderly, Ledger.calls_append, Ledger.removals_append, List.flatMap_append, ho, ho']

/-- As long as the numbers do not run out, no two tasks have the same one. -/
theorem Balanced.nodup (h : Balanced sch l) (hn : l.ids.length < 2 ^ 32) : l.ids.Nodup := by
  rw [h.ids]
  refine List.nodup_range.map_on fun a ha b hb hab => ?_
  rw [List.mem_range] at ha hb
  have ht := congrArg UInt32.toNat hab
  rwa [UInt32.toNat_ofNat_of_lt' (Nat.lt_trans ha hn),
    UInt32.toNat_ofNat_of_lt' (Nat.lt_trans hb hn)] at ht

/-- No task is lost, doubled or reported twice. -/
theorem accounts_balance {settings : ScheduleSettings} (h : History (new settings) l sch)
    (hn : l.ids.length < 2 ^ 32) :
    l.ids.Nodup ∧
    l.ids.Perm (sch.rota.seats.map Seat.id ++ sch.mailbox.arrivals.map Arrival.id ++
      l.removals.map Report.id) ∧
    sch.rota.seats.head? = some idleSeat ∧
    sch.rota.cursor < sch.rota.seats.length ∧
    sch.size = (sch.rota.seats.filter (!·.task.isIdle)).length + sch.mailbox.arrivals.length ∧
    sch.size + sch.rota.seats.countP (·.task.isIdle) + l.removals.length = l.ids.length ∧
    l.calls = l.removals.flatMap Report.notices := by
  obtain ⟨hb, ho⟩ := balanced_history h
  have hsize : sch.size =
      sch.rota.seats.countP (!·.task.isIdle) + sch.mailbox.arrivals.length := rfl
  refine ⟨hb.nodup hn, hb.everyone, hb.idle, hb.cursor, ?_, ?_, ho⟩
  · rw [hsize, List.countP_eq_length_filter]
  · have hlen := hb.everyone.length_eq
    have hcount := List.length_eq_countP_add_countP (fun s : Seat => s.task.isIdle)
      (l := sch.rota.seats)
    simp only [List.length_append, List.length_map, Bool.not_eq_true] at hlen hcount
    rw [hsize, hlen, hcount]
    have hsame : sch.rota.seats.countP (fun s => decide (s.task.isIdle = false)) =
        sch.rota.seats.countP (!·.task.isIdle) :=
      List.countP_congr fun s _ => by simp
    omega

/-- A hook that posts a task when another one is done. -/
def followUp : Hooks Unit where
  onComplete _ := do modify fun b => (b.post (.frame (.start (.number 2) ⟨0⟩)) 0).2

theorem followUp_onlyPost : followUp.OnlyPost where
  onComplete _ b s st a b' s' st' h := by
    cases h
    exact .post .refl _ _
  onRemove _ b s st a b' s' st' h := by
    cases h
    exact .refl
  onSleep _ b s st a b' s' st' h := by
    cases h
    exact .refl
  onAwaken b s st a b' s' st' h := by
    cases h
    exact .refl

/-- The report of a task that evaluates a number. -/
def numberReport : Report :=
  { id := 1, kind := "FrameTask", priority := 0, quanta := 1, steps := 1
    outcome := .completed (.number 1) }

/-- A task is done in its first tick, and a hook posts another one. -/
theorem accounts_balance_of_followUp :
    ∃ sch, History (new {}) [.drawn 1, .completed numberReport, .drawn 2, .removed numberReport,
        .ticked numberReport] sch ∧
      [0, 1, 2].Perm (sch.rota.seats.map Seat.id ++ sch.mailbox.arrivals.map Arrival.id ++ [1]) ∧
      sch.size + sch.rota.seats.countP (·.task.isIdle) + 1 = 3 := by
  have ht : tick 3 followUp.noted ((new {}).spawn (.frame (.start (.number 1) ⟨0⟩)) 0).2 ((), [])
      {} = some (((.finished numberReport,
          { settings := {}, rota := { seats := [idleSeat], cursor := 0 },
            mailbox := ⟨3, [⟨2, 0, .frame (.start (.number 2) ⟨0⟩)⟩]⟩ }),
          ((), [.completed numberReport, .drawn 2, .removed numberReport])), {}) := by cbv
  have hr := History.snoc (History.snoc (.nil (new {})) (.spawn _ (.frame (.start (.number 1) ⟨0⟩)) 0))
    (.tick followUp_onlyPost ht)
  obtain ⟨-, hperm, -, -, -, hsize, -⟩ := accounts_balance hr (by decide)
  exact ⟨_, hr, hperm, hsize⟩

end Scheduler

end LispEngines
