import LispEngines.Proofs.Schedule.PlainLoop

/-!
# How many seats a tick looks at

The loop with which a tick selects a seat has no counter of its own.  It counts the visits since the
last leap, and leaps when they make up a lap; it ends when a visit chooses (`Rota.Selects`).
`Rota.choose` goes through the same visits under a bound of three laps, and the bound is enough:
the first lap ends with a leap to where some seat is due within 21 laps, if not at once, and a
second leap from there goes exactly as far as it is computed to go, because 21 is nowhere near the
upper bound of the levels.

So the loop ends, in one way, after at most three visits to every seat that is there when the posted
tasks have joined the row (`Roster.tick_within_three_laps`).

* `Rota.Selects`: the loop, with the number of visits.
* `Rota.selects_of_visits_none`, `Rota.selects_of_visits_some`: parts of a lap.
* `Rota.selects_of_chooseWithin`: laps and leaps.
-/

namespace LispEngines

namespace Rota

variable {r r₁ r' : Rota} {i n v : Nat}

/-- The loop of a tick, `visited` visits after the last leap: a lap of visits is followed by a leap,
and the loop ends with the visit that chooses.  It takes `n` visits more. -/
inductive Selects : (visited : Nat) → Rota → (n : Nat) → Nat → Rota → Prop
  | leap {visited : Nat} {r : Rota} {n i : Nat} {r' : Rota} (hv : visited = r.seats.length)
      (h : Selects 0 (r.skip r.quietLaps) n i r') : Selects visited r n i r'
  | pass {visited : Nat} {r r₁ : Rota} {n i : Nat} {r' : Rota} (hv : visited ≠ r.seats.length)
      (hr : r.visit = (none, r₁)) (h : Selects (visited + 1) r₁ n i r') :
      Selects visited r (n + 1) i r'
  | take {visited : Nat} {r : Rota} {i : Nat} {r' : Rota} (hv : visited ≠ r.seats.length)
      (hr : r.visit = (some i, r')) : Selects visited r 1 i r'

/-- The loop ends in one way, and after one number of visits. -/
theorem Selects.unique (h : Selects v r n i r') : ∀ {n' j : Nat} {r'' : Rota},
    Selects v r n' j r'' → n' = n ∧ j = i ∧ r'' = r' := by
  induction h with
  | leap hv _ ih =>
    intro n' j r'' h'
    cases h' with
    | leap _ h' => exact ih h'
    | pass hv' => exact absurd hv hv'
    | take hv' => exact absurd hv hv'
  | pass hv hr _ ih =>
    intro n' j r'' h'
    cases h' with
    | leap hv' => exact absurd hv' hv
    | pass _ hr' h' =>
      cases hr.symm.trans hr'
      obtain ⟨rfl, rfl, rfl⟩ := ih h'
      exact ⟨rfl, rfl, rfl⟩
    | take _ hr' => cases hr.symm.trans hr'
  | take hv hr =>
    intro n' j r'' h'
    cases h' with
    | leap hv' => exact absurd hv' hv
    | pass _ hr' => cases hr.symm.trans hr'
    | take _ hr' =>
      cases hr.symm.trans hr'
      exact ⟨rfl, rfl, rfl⟩

/-! ## Laps of visits -/

theorem length_of_still (h : r'.still = r.still) : r'.seats.length = r.seats.length := by
  simpa [still] using congrArg List.length h

/-- Visits that choose nothing come before what the loop does then. -/
theorem selects_of_visits_none {k : Nat} (hk : v + k ≤ r.seats.length)
    (hv : r.visits k = (none, r₁)) (h : Selects (v + k) r₁ n i r') : Selects v r (n + k) i r' := by
  induction k generalizing r v with
  | zero =>
    cases hv
    exact h
  | succ k ih =>
    have hlen := length_of_still (still_visit r)
    rw [visits] at hv
    rcases hr : r.visit with ⟨_ | j, r₂⟩ <;> rw [hr] at hv hlen
    · dsimp only at hlen
      exact .pass (by omega) hr (ih (by omega) hv (by rwa [Nat.add_right_comm]))
    · cases hv

/-- Visits of which the last one chooses are the end of the loop. -/
theorem selects_of_visits_some {k : Nat} (hk : v + k ≤ r.seats.length)
    (hv : r.visits k = (some i, r')) : ∃ n ≤ k, Selects v r n i r' := by
  induction k generalizing r v with
  | zero => cases hv
  | succ k ih =>
    have hlen := length_of_still (still_visit r)
    rw [visits] at hv
    rcases hr : r.visit with ⟨_ | j, r₂⟩ <;> rw [hr] at hv hlen
    · dsimp only at hlen
      obtain ⟨n, hn, hs⟩ := ih (v := v + 1) (by omega) hv
      exact ⟨n + 1, by omega, .pass (by omega) hr hs⟩
    · cases hv
      exact ⟨1, by omega, .take (by omega) hr⟩

/-- Laps with leaps between them are the loop. -/
theorem selects_of_chooseWithin {laps : Nat} (h : r.chooseWithin laps = some (i, r')) :
    ∃ n ≤ laps * r.seats.length, Selects 0 r n i r' := by
  induction laps generalizing r with
  | zero => cases h
  | succ laps ih =>
    have hlen := length_of_still (still_visits r.seats.length r)
    rw [chooseWithin] at h
    rw [Nat.succ_mul]
    rcases hv : r.visits r.seats.length with ⟨_ | j, r₁⟩ <;> rw [hv] at h hlen
    · obtain ⟨n, hn, hs⟩ := ih h
      rw [length_of_still (still_skip r₁ _), hlen] at hn
      have hleap : Selects (0 + r.seats.length) r₁ n i r' := .leap (by rw [Nat.zero_add, hlen]) hs
      exact ⟨n + r.seats.length, by omega, selects_of_visits_none (by omega) hv hleap⟩
    · cases h
      obtain ⟨n, hn, hs⟩ := selects_of_visits_some (v := 0) (by omega) hv
      exact ⟨n, by omega, hs⟩

end Rota

/-- **A tick selects a seat within three laps.**  When a tick begins, the posted tasks join the row.
If some seat is ready then, the loop of the tick ends, in one way, after at most three visits for
each seat and each posted task, whatever levels and priorities they have; and the tick works on the
seat that the loop has chosen. -/
theorem Roster.tick_within_three_laps {m : Roster} (hm : m.Reachable)
    (hready : ∃ s ∈ m.sch.enrolAll.rota.seats, s.isReady = true) :
    ∃ n i r seat, Rota.Selects 0 m.sch.enrolAll.rota n i r ∧
      n ≤ 3 * (m.sch.rota.seats.length + m.sch.mailbox.arrivals.length) ∧
      (∀ n' j r', Rota.Selects 0 m.sch.enrolAll.rota n' j r' → n' = n ∧ j = i ∧ r' = r) ∧
      r.seats[i]? = some seat ∧
      ∀ {σ : Type} (fuel : Nat) (hooks : Hooks σ) (s : σ) (st : Store),
        Scheduler.tick fuel hooks m.sch s st =
          Scheduler.workAt fuel hooks i seat { m.sch.enrolAll with rota := r } s st := by
  have hnamed := (joins_enrolAll hm.sound).1.named
  rw [enrolAll_sch] at hnamed
  obtain ⟨⟨i, r⟩, hc⟩ := Option.isSome_iff_exists.mp ((Rota.choose_isSome hnamed).mpr hready)
  obtain ⟨c, -, -, n, s, rest, -, -, -, -, hseat, -⟩ := Rota.passes_of_choose hnamed hc
  have hwithin := hc
  rw [Rota.choose, if_pos (List.any_eq_true.mpr hready)] at hwithin
  obtain ⟨n, hn, hsel⟩ := Rota.selects_of_chooseWithin hwithin
  have hlen : m.sch.enrolAll.rota.seats.length =
      m.sch.rota.seats.length + m.sch.mailbox.arrivals.length := by
    rw [Scheduler.enrolAll_eq, List.length_append, List.length_map]
  refine ⟨n, i, r, _, hsel, hlen ▸ hn, fun _ _ _ h => hsel.unique h, hseat,
    fun fuel hooks s st => ?_⟩
  rw [Scheduler.tick_eq, hc]
  simp only [hseat]

/-- With two tasks close to the upper bound and an urgent one that is suspended, the loop leaps
twice, and chooses with the eleventh of twelve visits. -/
theorem Roster.tick_within_three_laps_of_far :
    far.Reachable ∧ (∃ s ∈ far.sch.enrolAll.rota.seats, s.isReady = true) ∧
      ∃ r seat, Rota.Selects 0 far.sch.enrolAll.rota 11 2 r ∧
        11 ≤ 3 * (far.sch.rota.seats.length + far.sch.mailbox.arrivals.length) ∧
        r.seats[2]? = some seat ∧
        ∀ fuel, Scheduler.tick fuel ({} : Hooks Unit) far.sch () {} =
          Scheduler.workAt fuel {} 2 seat { far.sch.enrolAll with rota := r } () {} := by
  obtain ⟨n, i, r, seat, hsel, hn, honly, hseat, htick⟩ :=
    tick_within_three_laps far_reachable far_ready
  have heleven : ∃ r', Rota.Selects 0 far.sch.enrolAll.rota 11 2 r' :=
    ⟨_, .pass (by decide) rfl (.pass (by decide) rfl (.pass (by decide) rfl
      (.pass (by decide) rfl (.leap rfl (.pass (by decide) rfl (.pass (by decide) rfl
      (.pass (by decide) rfl (.pass (by decide) rfl (.leap rfl (.pass (by decide) rfl
      (.pass (by decide) rfl (.take (by decide) rfl))))))))))))⟩
  obtain ⟨r', hsel'⟩ := heleven
  obtain ⟨rfl, rfl, rfl⟩ := honly 11 2 r' hsel'
  exact ⟨far_reachable, far_ready, r', seat, hsel', hn, hseat, fun fuel => htick fuel {} () {}⟩

end LispEngines
