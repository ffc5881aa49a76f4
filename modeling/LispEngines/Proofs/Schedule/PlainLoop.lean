import LispEngines.Proofs.Schedule.Roster

/-!
# Leaps change nothing

A rota without leaps would go on lowering one seat after another until one is chosen.  This plain
loop is the relation `Rota.Plain`.  It may take billions of visits, but `choose` ends as it does:
with the same seat, the same cursor and the same levels.

* `Rota.Plain`: the plain loop, and `Rota.Plain.unique`: it can end in one way only.
* `Rota.visits_lap`: a lap in which no seat is due lowers all seats that are ready by one and comes
  back to the seat that it started from.
* `Rota.Plain.leap`: what the plain loop does from the end of a leap, it does from its start.
* `Roster.tick_plain`: a tick works on the seat that the plain loop chooses, in the rota that the
  plain loop leaves.

That levels stop at the bounds of the 32-bit numbers does not matter.  A level that is lowered stays
above `runLevel` until it is chosen, so it never gets to the lower bound; and a gap that is cut off
at the upper bound makes a leap too short, never too long.
-/

namespace LispEngines

namespace Rota

variable {r r₁ r' r'' : Rota} {i j : Nat} {s : Seat} {names : List TaskName}

/-! ## The plain loop -/

/-- The position that is visited next. -/
def here (r : Rota) : Nat := r.cursor % r.seats.length

/-- The position that is visited after it. -/
def onward (r : Rota) : Nat := (r.here + 1) % r.seats.length

/-- The plain loop: seats are visited one after the other from the cursor on, and those that are
ready are lowered by one, up to the first that comes down to `runLevel`.  It starts again from its
priority. -/
inductive Plain : Rota → Nat → Rota → Prop
  | pass {r : Rota} {s : Seat} {i : Nat} {r' : Rota} (hs : r.seats[r.here]? = some s)
      (hr : s.isReady = false) (h : Plain { r with cursor := r.onward } i r') : Plain r i r'
  | wait {r : Rota} {s : Seat} {i : Nat} {r' : Rota} (hs : r.seats[r.here]? = some s)
      (hr : s.isReady = true) (hl : runLevel < lower s.level 1)
      (h : Plain { seats := r.seats.set r.here { s with level := lower s.level 1 },
                   cursor := r.onward } i r') : Plain r i r'
  | take {r : Rota} {s : Seat} (hs : r.seats[r.here]? = some s) (hr : s.isReady = true)
      (hl : lower s.level 1 ≤ runLevel) :
      Plain r r.here
        { seats := r.seats.set r.here { s with level := s.priority }, cursor := r.onward }

/-- The plain loop ends in one way. -/
theorem Plain.unique (h : Plain r i r') (h' : Plain r j r'') : j = i ∧ r'' = r' := by
  induction h with
  | pass hs hr _ ih =>
    cases h' with
    | pass _ _ h' => exact ih h'
    | wait hs' hr' => cases hs.symm.trans hs'; cases hr.symm.trans hr'
    | take hs' hr' => cases hs.symm.trans hs'; cases hr.symm.trans hr'
  | wait hs hr hl _ ih =>
    cases h' with
    | pass hs' hr' => cases hs.symm.trans hs'; cases hr.symm.trans hr'
    | wait hs' _ _ h' =>
      cases hs.symm.trans hs'
      exact ih h'
    | take hs' _ hl' =>
      cases hs.symm.trans hs'
      exact absurd hl' (Int32.not_le.mpr hl)
  | take hs hr hl =>
    cases h' with
    | pass hs' hr' => cases hs.symm.trans hs'; cases hr.symm.trans hr'
    | wait hs' _ hl' =>
      cases hs.symm.trans hs'
      exact absurd hl (Int32.not_le.mpr hl')
    | take hs' =>
      cases hs.symm.trans hs'
      exact ⟨rfl, rfl⟩

/-- A visit that chooses is the end of the plain loop. -/
theorem plain_of_visit_some (hv : r.visit = (some i, r')) : Plain r i r' := by
  unfold visit at hv
  dsimp only at hv
  split at hv
  · cases hv
  · next hs =>
    split at hv
    · cases hv
    · split at hv
      · next hr hl =>
        cases hv
        exact .take hs (by simpa using hr) hl
      · cases hv

/-- A visit that does not choose is a part of the plain loop. -/
theorem Plain.of_visit_none (hpos : 0 < r.seats.length) (hv : r.visit = (none, r₁))
    (h : Plain r₁ i r') : Plain r i r' := by
  have hlt : r.here < r.seats.length := Nat.mod_lt _ hpos
  have hs := List.getElem?_eq_getElem hlt
  unfold visit at hv
  dsimp only at hv
  split at hv
  · next hnone => cases hnone.symm.trans hs
  · next hs =>
    split at hv
    · next hr =>
      cases hv
      exact .pass hs (by simpa using hr) h
    · split at hv
      · cases hv
      · next hr hl =>
        cases hv
        exact .wait hs (by simpa using hr) (Int32.not_le.mp hl) h

theorem Plain.of_visits_none {n : Nat} (hn : Named names r) (hv : r.visits n = (none, r₁))
    (h : Plain r₁ i r') : Plain r i r' := by
  induction n generalizing r with
  | zero =>
    cases hv
    exact h
  | succ n ih =>
    rw [visits] at hv
    rcases passes_of_visit hn with ⟨r₂, hv₂, hn₂, -⟩ | ⟨j, r₂, hv₂, -⟩ <;> rw [hv₂] at hv
    · exact (ih hn₂ hv).of_visit_none (Nat.zero_lt_of_lt hn.cursor_lt) hv₂
    · cases hv

theorem plain_of_visits_some {n : Nat} (hn : Named names r) (hv : r.visits n = (some i, r')) :
    Plain r i r' := by
  induction n generalizing r with
  | zero => cases hv
  | succ n ih =>
    rw [visits] at hv
    rcases passes_of_visit hn with ⟨r₂, hv₂, hn₂, -⟩ | ⟨j, r₂, hv₂, -⟩ <;> rw [hv₂] at hv
    · exact (ih hn₂ hv).of_visit_none (Nat.zero_lt_of_lt hn.cursor_lt) hv₂
    · cases hv
      exact plain_of_visit_some hv₂

/-! ## A lap without a choice -/

/-- If no seat of a part of the circle is due then visits choose nothing there. -/
theorem visits_part {n : Nat} (h : Named names r) {part rest : List NamedSeat}
    (hpart : circle names r = part ++ rest) (hn : part.length = n)
    (hdue : ∀ e ∈ part, e.2.isReady = true → 1 < due e.2.level) :
    ∃ r', r.visits n = (none, r') ∧ r'.cursor = (r.cursor + n) % r.seats.length := by
  induction n generalizing r part rest with
  | zero => exact ⟨r, rfl, (Nat.mod_eq_of_lt h.cursor_lt).symm⟩
  | succ n ih =>
    obtain ⟨e, part, rfl⟩ := List.exists_cons_of_length_eq_add_one hn
    obtain ⟨n₀, s, rest', hcircle, hseat, -, hpass⟩ := circle_pass h
    rw [hpart, List.cons_append, List.cons.injEq] at hcircle
    obtain ⟨rfl, rfl⟩ := hcircle
    have hvisit : r.visit = (none, r.pass (worn 1 (n₀, s)).2) := by
      rw [visit_eq hseat]
      by_cases hready : s.isReady
      · have hlate := hdue _ (List.mem_cons_self ..) hready
        rw [if_pos hready, if_neg (by simp only at hlate; omega), worn, if_pos hready]
      · rw [if_neg hready, worn, if_neg hready]
    have hmove : circle names (r.pass (worn 1 (n₀, s)).2) = part ++ (rest ++ [worn 1 (n₀, s)]) := by
      rw [hpass, List.append_assoc, mk_worn_snd]
    obtain ⟨r', hvs, hcursor⟩ := ih (h.pass _) hmove (by simpa using hn)
      fun e he => hdue e (List.mem_cons_of_mem _ he)
    refine ⟨r', by rw [visits, hvisit]; exact hvs, ?_⟩
    rw [hcursor]
    show ((r.cursor + 1) % r.seats.length + n) % (r.seats.set r.cursor _).length = _
    rw [List.length_set, Nat.mod_add_mod, Nat.add_assoc, Nat.add_comm 1 n]

/-- The cursor and the circle determine the row. -/
theorem eq_of_circle_eq (h : Named names r) (h' : Named names r') (hc : r.cursor = r'.cursor)
    (he : circle names r = circle names r') : r = r' := by
  rw [circle, circle, hc] at he
  have hzip := List.rotate_injective _ he
  have hseats := congrArg (List.map Prod.snd) hzip
  rw [List.map_snd_zip (Nat.le_of_eq h.length_eq.symm),
    List.map_snd_zip (Nat.le_of_eq h'.length_eq.symm)] at hseats
  cases r
  cases r'
  cases hc
  cases hseats
  rfl

/-- If no seat is due then a lap lowers all that are ready by one and comes back to where it
started. -/
theorem visits_lap (h : Named names r)
    (hdue : ∀ s ∈ r.seats, s.isReady = true → 1 < due s.level) :
    r.visits r.seats.length = (none, r.skip 1) := by
  have hall : circle names r = circle names r ++ [] := (List.append_nil _).symm
  obtain ⟨r', hv, hcursor⟩ := visits_part h hall h.length_circle
    fun e he => hdue e.2 (h.mem_seats.mpr ⟨e.1, he⟩)
  obtain ⟨h', hc, -⟩ := circle_of_lap h hv
  have hone : (0 : Int32) < 1 := by decide
  have hstart : r'.cursor = (r.skip 1).cursor := by
    rw [hcursor, Nat.add_mod_right, Nat.mod_eq_of_lt h.cursor_lt, skip, if_pos hone]
  rw [hv, eq_of_circle_eq h' (h.skip 1) hstart (hc.trans (circle_skip names r hone).symm)]

/-! ## Leaps -/

theorem lower_zero (level : Int32) : lower level 0 = level := by
  have hl := level.le_toInt
  have hl' := level.toInt_lt
  have hzero : (0 : Int32).toInt = 0 := by decide
  rw [← Int32.toInt_inj, lower_toInt, hzero]
  omega

/-- Lowering can be done bit by bit, also where it stops at the lower bound. -/
theorem lower_lower (level : Int32) {rest laps : Int32} (hrest : 0 ≤ rest.toInt)
    (hlaps : laps.toInt = rest.toInt + 1) : lower (lower level 1) rest = lower level laps := by
  have hl' := level.toInt_lt
  have hone : (1 : Int32).toInt = 1 := by decide
  rw [← Int32.toInt_inj, lower_toInt, lower_toInt, lower_toInt, hone]
  omega

theorem skip_eq_map {laps : Int32} (hlaps : 0 ≤ laps.toInt) :
    r.skip laps = { r with seats := r.seats.map fun s =>
      if s.isReady then { s with level := lower s.level laps } else s } := by
  by_cases hpos : 0 < laps
  · rw [skip, if_pos hpos]
  · have hzero : laps = 0 := by
      rw [Int32.lt_iff_toInt_lt] at hpos
      have h0 : (0 : Int32).toInt = 0 := by decide
      rw [← Int32.toInt_inj]
      omega
    have hid : (fun s : Seat => if s.isReady then { s with level := lower s.level laps } else s) =
        id := by
      funext s
      rw [hzero, lower_zero]
      exact ite_self s
    rw [skip, if_neg hpos, hid, List.map_id]

/-- A leap is a lap and the rest of the leap. -/
theorem skip_skip {rest laps : Int32} (hrest : 0 ≤ rest.toInt)
    (hlaps : laps.toInt = rest.toInt + 1) : (r.skip 1).skip rest = r.skip laps := by
  have hone : (1 : Int32).toInt = 1 := by decide
  rw [skip_eq_map hrest, skip_eq_map (by omega), skip_eq_map (by omega)]
  simp only [List.map_map, mk.injEq, and_true]
  refine List.map_congr_left fun s _ => ?_
  rw [Function.comp_apply]
  by_cases hr : s.isReady = true
  · have hr' : ({ s with level := lower s.level 1 } : Seat).isReady = true := hr
    rw [if_pos hr, if_pos hr, if_pos hr', lower_lower s.level hrest hlaps]
  · rw [if_neg hr, if_neg hr, if_neg hr]

/-- **A leap chooses nothing.**  What the plain loop does from its end, it does from its start,
as long as no seat comes up on the way. -/
theorem Plain.leap {k : Nat} {laps : Int32} (h : Named names r) (hk : laps.toInt = k)
    (hdue : ∀ s ∈ r.seats, s.isReady = true → laps.toInt < due s.level)
    (hp : Plain (r.skip laps) i r') : Plain r i r' := by
  induction k generalizing r laps with
  | zero =>
    have hnot : ¬ 0 < laps := by
      have h0 : (0 : Int32).toInt = 0 := by decide
      rw [Int32.lt_iff_toInt_lt]
      omega
    rwa [skip, if_neg hnot] at hp
  | succ k ih =>
    have hlt := laps.toInt_lt
    have hone : (1 : Int32).toInt = 1 := by decide
    have hrest : (Int32.ofInt k).toInt = k := Int32.toInt_ofInt_of_le (by omega) (by omega)
    have hlate : ∀ s ∈ r.seats, s.isReady = true → 1 < due s.level := by
      intro s hs hr
      have := hdue s hs hr
      omega
    have hsplit : (r.skip 1).skip (Int32.ofInt k) = r.skip laps :=
      skip_skip (by omega) (by omega)
    rw [← hsplit] at hp
    refine (ih (h.skip 1) hrest ?_ hp).of_visits_none h (visits_lap h hlate)
    rw [skip_eq_map (by omega)]
    intro s hs hr
    obtain ⟨t, ht, rfl⟩ := List.mem_map.mp hs
    by_cases htr : t.isReady = true
    · have hone := due_lower_one (hlate t ht htr)
      have hfar := hdue t ht htr
      rw [if_pos htr]
      dsimp only
      omega
    · rw [if_neg htr] at hr
      exact absurd hr htr

/-! ## Choosing -/

/-- The laps of `choose` and the leaps between them make up the plain loop. -/
theorem plain_of_chooseWithin {laps : Nat} (h : Named names r)
    (hready : ∃ s ∈ r.seats, s.isReady = true) (hc : r.chooseWithin laps = some (i, r')) :
    Plain r i r' := by
  induction laps generalizing r with
  | zero => cases hc
  | succ laps ih =>
    rw [chooseWithin] at hc
    rcases hv : r.visits r.seats.length with ⟨_ | j, r₁⟩ <;> rw [hv] at hc
    · obtain ⟨h₁, -⟩ := circle_of_lap h hv
      obtain ⟨hready₂, h₂, -⟩ := passes_of_lap h hready hv
      obtain ⟨habove, hready₁⟩ := above_of_lap h hready hv
      obtain ⟨s, -, -, hlaps, hlate⟩ := quietLaps_toInt habove hready₁
      have hnonneg : r₁.quietLaps.toInt = r₁.quietLaps.toInt.toNat := by
        have hone := one_le_due s.level
        omega
      exact ((ih h₂ hready₂ hc).leap h₁ hnonneg hlate).of_visits_none h hv
    · cases hc
      exact plain_of_visits_some h hv

/-- `choose` is the plain loop. -/
theorem choose_plain (h : Named names r) (hready : ∃ s ∈ r.seats, s.isReady = true) :
    ∃ i r', r.choose = some (i, r') ∧ Plain r i r' := by
  obtain ⟨⟨i, r'⟩, hc⟩ := Option.isSome_iff_exists.mp ((choose_isSome h).mpr hready)
  refine ⟨i, r', hc, ?_⟩
  rw [choose, if_pos (List.any_eq_true.mpr hready)] at hc
  exact plain_of_chooseWithin h hready hc

end Rota

/-- **Skipping laps does not change scheduling.**  When a tick begins, the posted tasks join the
row.  If some seat is ready then, the plain loop ends, in one way, and the tick works on the seat
that it chose, in the rota that it left: with that cursor and those levels. -/
theorem Roster.tick_plain {m : Roster} (hm : m.Reachable)
    (hready : ∃ s ∈ m.sch.enrolAll.rota.seats, s.isReady = true) :
    ∃ i r seat, Rota.Plain m.sch.enrolAll.rota i r ∧
      (∀ j r', Rota.Plain m.sch.enrolAll.rota j r' → j = i ∧ r' = r) ∧
      r.seats[i]? = some seat ∧
      ∀ {σ : Type} (fuel : Nat) (hooks : Hooks σ) (s : σ) (st : Store),
        Scheduler.tick fuel hooks m.sch s st =
          Scheduler.workAt fuel hooks i seat { m.sch.enrolAll with rota := r } s st := by
  obtain ⟨hall, -⟩ := joins_enrolAll hm.sound
  have hnamed := hall.named
  rw [enrolAll_sch] at hnamed
  obtain ⟨i, r, hc, hplain⟩ := Rota.choose_plain hnamed hready
  obtain ⟨c, -, -, n, s, rest, -, -, -, -, hseat, -⟩ := Rota.passes_of_choose hnamed hc
  refine ⟨i, r, _, hplain, fun j r' h => hplain.unique h, hseat, fun fuel hooks s st => ?_⟩
  rw [Scheduler.tick_eq, hc]
  simp only [hseat]

/-- Two tasks with levels close to the upper bound, and an urgent one that is suspended. -/
def Roster.far : Roster where
  sch :=
    let one := ((Scheduler.new {}).spawn (.frame (.start (.number 1) ⟨0⟩)) 2147483647).2
    let two := (one.spawn (.frame (.start (.number 2) ⟨0⟩)) 2147483646).2
    let three := (two.spawn (.frame (.start (.number 3) ⟨0⟩)) (-20)).2
    (three.suspend 3).2
  names := [⟨0, Rota.idlePriority⟩, ⟨1, 2147483647⟩, ⟨2, 2147483646⟩, ⟨3, -20⟩]
  next := 4

theorem Roster.far_reachable : far.Reachable :=
  ⟨{}, [(_, .change), (_, .change), (_, .change), (_, .change)],
    .cons (.spawn _ _ _) (.cons (.spawn _ _ _) (.cons (.spawn _ _ _)
      (.cons (.setSuspended _ 3 true) (.nil _))))⟩

theorem Roster.far_ready : ∃ s ∈ far.sch.enrolAll.rota.seats, s.isReady = true :=
  ⟨_, List.mem_cons_of_mem _ (List.mem_cons_self ..), rfl⟩

/-- The plain loop takes the second task after billions of visits, when the first has one step left
to go, and so does a tick. -/
theorem Roster.tick_plain_of_far :
    far.Reachable ∧ (∃ s ∈ far.sch.enrolAll.rota.seats, s.isReady = true) ∧
      ∃ r seat, Rota.Plain far.sch.enrolAll.rota 2 r ∧ r.cursor = 3 ∧
        r.seats.map (·.level) = [Rota.idlePriority, -19, 2147483646, -20] ∧
        r.seats[2]? = some seat ∧
        ∀ fuel, Scheduler.tick fuel ({} : Hooks Unit) far.sch () {} =
          Scheduler.workAt fuel {} 2 seat { far.sch.enrolAll with rota := r } () {} := by
  have hreach := far_reachable
  have hready := far_ready
  obtain ⟨i, r, seat, hplain, honly, hseat, htick⟩ := tick_plain hreach hready
  have hnamed := (joins_enrolAll hreach.sound).1.named
  obtain ⟨j, r', hchoose, hplain'⟩ := Rota.choose_plain hnamed hready
  obtain ⟨rfl, rfl⟩ := honly j r' hplain'
  have hrota : (far.sch.enrolAll.rota.choose).map
      (fun p => (p.1, p.2.cursor, p.2.seats.map (·.level))) =
        some (2, 3, [Rota.idlePriority, -19, 2147483646, -20]) := by cbv
  rw [enrolAll_sch] at hchoose
  rw [hchoose, Option.map_some, Option.some.injEq, Prod.mk.injEq, Prod.mk.injEq] at hrota
  obtain ⟨rfl, hcursor, hlevels⟩ := hrota
  exact ⟨hreach, hready, r', seat, hplain, hcursor, hlevels, hseat, fun fuel => htick fuel {} () {}⟩

end LispEngines
