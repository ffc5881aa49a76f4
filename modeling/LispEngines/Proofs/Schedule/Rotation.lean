import LispEngines.Proofs.Schedule.Reach
import LispEngines.Proofs.Schedule.Visits

/-!
# Removal keeps the rotation

A task leaves the row when it is cancelled, or at the end of a tick that has worked on it for the
last time.  The row closes up and the cursor shifts.  Read from the cursor on, the row is then what
it was, less the one seat (`Rota.Without`); nobody is skipped and nobody comes twice.

The position that is removed can lie before the cursor, at it, or behind it, and after a tick the
cursor has gone on and may have come back to the start of the row.  On the circle these cases are
one: the seat at a position is visited after `Rota.ahead` others, and that many seats of the order
stay in front of the gap (`Rota.upcoming_remove`).

For a tick there are two states that the removal can be compared with.  Directly before it the seat
that was worked on is the last one of the order, because a choice leaves the cursor behind the seat
that is chosen (`Rota.cursor_of_choose`).  At the start of the tick, when the posted tasks have
joined, it may stand anywhere.  The order after the tick is the order of that moment without the
seat, read on from the place where the seat was, and apart from the levels no seat has changed.
-/

namespace LispEngines

namespace Rota

variable {r r' : Rota} {i : Nat}

/-! ## The order of visits -/

/-- The number of seats that are visited before the one at a position. -/
def ahead (r : Rota) (i : Nat) : Nat := (i + r.seats.length - r.cursor) % r.seats.length

theorem upcoming_eq_rotate (hc : r.cursor ≤ r.seats.length) :
    r.upcoming = r.seats.rotate r.cursor := by
  rw [upcoming, List.rotate_eq_drop_append_take hc]

/-- A row is read on from the same place, whatever is read of its seats. -/
theorem map_upcoming {α : Type} (f : Seat → α) (hc : r.cursor ≤ r.seats.length) :
    r.upcoming.map f = (r.seats.map f).rotate r.cursor := by
  rw [upcoming_eq_rotate hc, List.map_rotate]

/-- What is left of a row when the seat at a position is taken out of it.  The seats are visited in
the order in which they were, without that one, and the cursor is at one of them. -/
structure Without (r : Rota) (i : Nat) (s : Seat) (r' : Rota) : Prop where
  seat : r.seats[i]? = some s
  turn : r.upcoming[r.ahead i]? = some s
  order : r'.upcoming = r.upcoming.eraseIdx (r.ahead i)
  cursor_lt : r'.cursor < r'.seats.length

/-- The seat that is taken out is missing from the order, and nothing else changes. -/
theorem upcoming_remove {s : Seat} (hc : r.cursor < r.seats.length) (hs : r.seats[i]? = some s) :
    r.upcoming[r.ahead i]? = some s ∧
      (r.remove i).upcoming = r.upcoming.eraseIdx (r.ahead i) := by
  have hi := (List.getElem?_eq_some_iff.mp hs).1
  have hlen : (r.remove i).seats.length = r.seats.length - 1 := List.length_eraseIdx_of_lt hi
  have hcursor : (r.remove i).cursor ≤ (r.remove i).seats.length := by
    show (if i < r.cursor then r.cursor - 1 else r.cursor) % (r.remove i).seats.length ≤ _
    rcases Nat.eq_zero_or_pos (r.remove i).seats.length with hzero | hpos
    · rw [hzero, Nat.mod_zero]
      split <;> omega
    · exact Nat.le_of_lt (Nat.mod_lt _ hpos)
  obtain ⟨c₁, x, c₂, hx, hrow, hrest, hahead⟩ := rotate_eraseIdx hi hc
  obtain rfl : x = s := Option.some.inj (hx.symm.trans hs)
  rw [upcoming_eq_rotate hc.le, upcoming_eq_rotate hcursor, ahead, ← hahead, hrow]
  refine ⟨by simp, ?_⟩
  rw [List.eraseIdx_append_of_length_le (Nat.le_refl _), Nat.sub_self, List.eraseIdx_cons_zero,
    ← hrest, ← hlen]
  rfl

/-- Removal from a row with a cursor at one of its seats. -/
theorem without_remove {s : Seat} (hc : r.cursor < r.seats.length) (hs : r.seats[i]? = some s)
    (hc' : (r.remove i).cursor < (r.remove i).seats.length) : r.Without i s (r.remove i) :=
  have h := upcoming_remove hc hs
  ⟨hs, h.1, h.2, hc'⟩

/-! ## Where a choice leaves the cursor -/

theorem cursor_of_visit (h : r.visit = (some i, r')) : r'.cursor = (i + 1) % r'.seats.length := by
  unfold visit at h
  dsimp only at h
  split at h
  · cases h
  · split at h
    · cases h
    · split at h <;> cases h
      rw [List.length_set]

theorem cursor_of_visits {n : Nat} (h : r.visits n = (some i, r')) :
    r'.cursor = (i + 1) % r'.seats.length := by
  induction n generalizing r with
  | zero => cases h
  | succ n ih =>
    rw [visits] at h
    rcases hv : r.visit with ⟨_ | j, r₁⟩ <;> rw [hv] at h
    · exact ih h
    · cases h
      exact cursor_of_visit hv

theorem cursor_of_chooseWithin {laps : Nat} (h : r.chooseWithin laps = some (i, r')) :
    r'.cursor = (i + 1) % r'.seats.length := by
  induction laps generalizing r with
  | zero => cases h
  | succ laps ih =>
    rw [chooseWithin] at h
    rcases hv : r.visits r.seats.length with ⟨_ | j, r₁⟩ <;> rw [hv] at h
    · exact ih h
    · cases h
      exact cursor_of_visits hv

/-- A choice leaves the cursor behind the seat that is chosen. -/
theorem cursor_of_choose (h : r.choose = some (i, r')) :
    r'.cursor = (i + 1) % r'.seats.length := by
  rw [choose] at h
  split at h
  · exact cursor_of_chooseWithin h
  · cases h

/-- Read from the gap on, a row without an element is the row as it was read from anywhere, without
the element and from where that stood. -/
theorem rotate_gap {α : Type} (row : List α) {k : Nat} (hi : i < row.length)
    (hk : k < row.length) :
    (row.eraseIdx i).rotate i = ((row.rotate k).eraseIdx ((i + row.length - k) % row.length)).rotate
      ((i + row.length - k) % row.length) := by
  obtain ⟨c₁, x, c₂, -, hrow, hrest, hahead⟩ := rotate_eraseIdx hi hk
  have hlen : (row.eraseIdx i).length = row.length - 1 := List.length_eraseIdx_of_lt hi
  have hturn : ((if i < k then k - 1 else k) + c₁.length) % (row.length - 1) =
      i % (row.length - 1) := by
    rw [hahead]
    split
    · have hfar : k - 1 + (i + row.length - k) = i + (row.length - 1) := by omega
      rw [Nat.mod_eq_of_lt (by omega : i + row.length - k < row.length), hfar, Nat.add_mod_right]
    · have hfar : i + row.length - k = i - k + row.length := by omega
      rw [hfar, Nat.add_mod_right, Nat.mod_eq_of_lt (by omega : i - k < row.length),
        Nat.add_sub_cancel' (by omega)]
  rw [← hahead, hrow, List.eraseIdx_append_of_length_le (Nat.le_refl _), Nat.sub_self,
    List.eraseIdx_cons_zero, ← hrest, List.rotate_rotate, ← List.rotate_mod _ i,
    ← List.rotate_mod _ (_ + _), hlen, Nat.mod_add_mod, hturn]

/-- The seat that was chosen is replaced and taken out.  The order is what it was before the choice,
without that seat and from where it stood; and the seats look as they did. -/
theorem still_of_choose {r₁ : Rota} {s : Seat} (hc : r.cursor < r.seats.length)
    (hi : i < r.seats.length) (h : r.choose = some (i, r₁)) (hw : (r₁.set i s).Without i s r') :
    r'.upcoming.map Seat.still =
      ((r.upcoming.map Seat.still).eraseIdx (r.ahead i)).rotate (r.ahead i) := by
  have hstill := still_choose h
  have hlen : r₁.seats.length = r.seats.length := length_of_still hstill
  have hset : (r₁.set i s).seats.length = r.seats.length := (List.length_set ..).trans hlen
  have hcursor : (r₁.set i s).cursor < (r₁.set i s).seats.length := by
    show r₁.cursor < _
    rw [cursor_of_choose h, hlen, hset]
    exact Nat.mod_lt _ (by omega)
  -- The seat that is taken out is the last of the order, so the order begins at the gap.
  have hlast : (r₁.set i s).ahead i = r.seats.length - 1 := by
    show (i + (r₁.set i s).seats.length - r₁.cursor) % (r₁.set i s).seats.length = _
    rw [cursor_of_choose h, hlen, hset]
    rcases Nat.lt_or_eq_of_le (Nat.succ_le_of_lt hi) with hlt | heq
    · rw [Nat.mod_eq_of_lt hlt, Nat.mod_eq_of_lt (by omega)]
      omega
    · rw [← heq, Nat.mod_self, Nat.sub_zero, Nat.add_mod_right,
        Nat.mod_eq_of_lt (Nat.lt_succ_self i)]
      omega
  have hgap : r'.upcoming = (r₁.seats.eraseIdx i).rotate i := by
    have hrow := rotate_gap (r₁.set i s).seats (hset ▸ hi) hcursor
    rw [← upcoming_eq_rotate hcursor.le] at hrow
    change _ = ((r₁.set i s).upcoming.eraseIdx ((r₁.set i s).ahead i)).rotate
      ((r₁.set i s).ahead i) at hrow
    have hrest : r'.upcoming.length = (r₁.set i s).ahead i := by
      rw [hw.order, upcoming_eq_rotate hcursor.le, hlast,
        List.length_eraseIdx_of_lt (by rw [List.length_rotate, hset]; omega), List.length_rotate,
        hset]
    rw [← hw.order, ← hrest, List.rotate_length] at hrow
    rw [← hrow, set, List.eraseIdx_set_eq]
  have hrow := rotate_gap (r.seats.map Seat.still) (i := i) (k := r.cursor)
    (by rwa [List.length_map]) (by rwa [List.length_map])
  rw [List.length_map, ← map_upcoming Seat.still hc.le] at hrow
  rw [ahead, ← hrow, hgap, List.map_rotate, ← List.eraseIdx_map]
  exact congrArg (fun row => (row.eraseIdx i).rotate i) hstill

/-- A number finds a seat that has it. -/
theorem id_of_position? {id : UInt32} {s : Seat} (h : r.position? id = some i)
    (hs : r.seats[i]? = some s) : s.id = id := by
  rw [position?] at h
  split at h
  · next j hfind =>
    split at h
    · cases h
    · cases h
      obtain ⟨hi, hid, -⟩ := List.findIdx?_eq_some_iff_getElem.mp hfind
      rw [List.getElem?_eq_getElem hi] at hs
      rw [← Option.some.inj hs]
      exact beq_iff_eq.mp hid
  · cases h

end Rota

namespace Roster

variable {m : Roster}

/-- **Removal keeps the rotation.**  When a task is cancelled, and when a tick has worked on it for
the last time, the seats are visited in the order in which they were, without that one, and the
cursor is at one of them.  What is left after a tick is the order in which the tick found the seats,
without the one it has worked on and from where that stood, and no other seat looks different. -/
theorem rotation_kept (hm : m.Reachable) {σ : Type} {hooks : Hooks σ} {sch : Scheduler}
    {report : Report} {s s' : σ} {st st' : Store} :
    (∀ id, Scheduler.cancel hooks id m.sch s st = some (((some report, sch), s'), st') →
      ∃ i seat, seat.id = id ∧ report = seat.report .cancelled ∧
        m.sch.rota.Without i seat sch.rota) ∧
    (∀ fuel, Scheduler.tick fuel hooks m.sch s st = some (((.finished report, sch), s'), st') →
      ∃ i r seat res task outcome, m.sch.enrolAll.rota.choose = some (i, r) ∧
        r.seats[i]? = some seat ∧ Scheduler.outcome? task res = some outcome ∧
        report = (seat.worked task).report outcome ∧
        (r.set i (seat.worked task)).Without i (seat.worked task) sch.rota ∧
        sch.rota.upcoming.map Seat.still =
          ((m.sch.enrolAll.rota.upcoming.map Seat.still).eraseIdx
            (m.sch.enrolAll.rota.ahead i)).rotate (m.sch.enrolAll.rota.ahead i)) := by
  have hsound := hm.sound
  refine ⟨fun id hcancel => ?_, fun fuel htick => ?_⟩
  · rw [Scheduler.cancel_eq] at hcancel
    split at hcancel
    · cases hcancel
    · next i hi =>
      obtain ⟨seat, hseat, -⟩ := Rota.seat_of_position? hi
      simp only [hseat] at hcancel
      obtain ⟨⟨⟨⟨report', sch'⟩, s₁⟩, st₁⟩, hremove, hcancel⟩ :=
        Option.bind_eq_some_iff.mp hcancel
      cases hcancel
      obtain ⟨hrota, rfl⟩ := Scheduler.remove_rota hremove
      obtain ⟨n, -, hnamed, -⟩ := circle_of_cancel hsound hi
      refine ⟨i, seat, Rota.id_of_position? hi hseat, rfl, ?_⟩
      rw [hrota]
      exact Rota.without_remove hsound.named.cursor_lt hseat hnamed.cursor_lt
  · obtain ⟨hall, -⟩ := joins_enrolAll hsound
    obtain ⟨i, r, seat, hc, hseat, hwork⟩ := Scheduler.tick_chosen htick nofun
    obtain ⟨res, task, mid, outcome, -, houtcome, hreport, -, hrota⟩ :=
      Scheduler.workAt_finished hwork
    rw [← enrolAll_sch] at hc ⊢
    obtain ⟨-, -, hnamed, n, -, -, -, -, -, hn, -⟩ := Rota.passes_of_choose hall.named hc
    obtain ⟨-, rest, -, -, -, -, hleft⟩ := circle_of_work hall hc hn
    obtain ⟨⟨hset, -⟩, hremoved, -⟩ := hleft (seat.worked task)
    have hi : i < r.seats.length := (List.getElem?_eq_some_iff.mp hseat).1
    have hworked : (r.set i (seat.worked task)).seats[i]? = some (seat.worked task) :=
      List.getElem?_set_self hi
    have hwithout : (r.set i (seat.worked task)).Without i (seat.worked task) sch.rota := by
      rw [hrota]
      exact Rota.without_remove hset.cursor_lt hworked hremoved.cursor_lt
    rw [Rota.length_of_still (Rota.still_choose hc)] at hi
    exact ⟨i, r, seat, res, task, outcome, hc, hseat, houtcome, hreport, hwithout,
      Rota.still_of_choose hall.named.cursor_lt hi hc hwithout⟩

/-- Three tasks that are done as soon as they are worked on. -/
def threeBrief : Roster where
  sch := (((Scheduler.new {}).spawn brief 20).2.spawn brief 20).2.spawn brief 20 |>.2
  names := [⟨0, Rota.idlePriority⟩, ⟨1, 20⟩, ⟨2, 20⟩, ⟨3, 20⟩]
  next := 4

/-- The last of them, when it has been visited in a lap that chose nothing. -/
def lastBrief : Seat := { id := 3, priority := 20, level := -19, task := brief }

/-- The first of them was worked on, and has left. -/
def twoLeft : Roster where
  sch :=
    { settings := {}
      rota :=
        { seats :=
            [Scheduler.idleSeat, { id := 2, priority := 20, level := -19, task := brief },
              lastBrief]
          cursor := 1 }
      mailbox := { nextId := 4 } }
  names := [⟨0, Rota.idlePriority⟩, ⟨2, 20⟩, ⟨3, 20⟩]
  next := 4

/-- A tick finishes the first of three tasks, and then the last one is cancelled. -/
theorem rotation_kept_of_three :
    threeBrief.Reachable ∧
      Scheduler.tick 3 ({} : Hooks Unit) threeBrief.sch () {} =
        some (((.finished (briefReport 1 1 (.completed (.number 1))), twoLeft.sch), ()), {}) ∧
      (∃ i r seat task, threeBrief.sch.enrolAll.rota.choose = some (i, r) ∧
        r.seats[i]? = some seat ∧
        (r.set i (seat.worked task)).Without i (seat.worked task) twoLeft.sch.rota ∧
        twoLeft.sch.rota.upcoming.map Seat.still =
          ((threeBrief.sch.enrolAll.rota.upcoming.map Seat.still).eraseIdx
            (threeBrief.sch.enrolAll.rota.ahead i)).rotate
              (threeBrief.sch.enrolAll.rota.ahead i)) ∧
      twoLeft.Reachable ∧
      Scheduler.cancel ({} : Hooks Unit) 3 twoLeft.sch () {} =
        some (((some (lastBrief.report .cancelled),
          { twoLeft.sch with rota := twoLeft.sch.rota.remove 2 }), ()), {}) ∧
      ∃ i seat, seat.id = 3 ∧ lastBrief.report .cancelled = seat.report .cancelled ∧
        twoLeft.sch.rota.Without i seat (twoLeft.sch.rota.remove 2) := by
  have hthree : threeBrief.Reachable :=
    ⟨{}, [(_, .change), (_, .change), (_, .change)],
      .cons (.spawn _ brief 20) (.cons (.spawn _ brief 20) (.cons (.spawn _ brief 20) (.nil _)))⟩
  have htick : Scheduler.tick 3 ({} : Hooks Unit) threeBrief.sch () {} =
      some (((.finished (briefReport 1 1 (.completed (.number 1))), twoLeft.sch), ()), {}) := by cbv
  have htwo : twoLeft.Reachable :=
    hthree.after (.cons (.finished htick rfl rfl) (.nil twoLeft))
  obtain ⟨i, r, seat, res, task, outcome, hc, hseat, -, -, hwithout, hstill⟩ :=
    (rotation_kept hthree).2 3 htick
  have hcancel : Scheduler.cancel ({} : Hooks Unit) 3 twoLeft.sch () {} =
      some (((some (lastBrief.report .cancelled),
        { twoLeft.sch with rota := twoLeft.sch.rota.remove 2 }), ()), {}) := rfl
  exact ⟨hthree, htick, ⟨i, r, seat, task, hc, hseat, hwithout, hstill⟩, htwo, hcancel,
    (rotation_kept htwo).1 3 hcancel⟩

end Roster

end LispEngines
