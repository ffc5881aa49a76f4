import LispEngines.Schedule.Rota
import Mathlib.Algebra.Group.Int.Defs
import Mathlib.Algebra.Group.Nat.Defs
import Mathlib.Data.List.InsertIdx
import Mathlib.Data.List.Rotate

/-!
# The rota as a circle

Read from the cursor on, and from the end of the row back to its start, the seats of a
rota form a list whose head is visited next.  A visit moves the head to the end.  Nothing
else that `choose` does moves a seat, so the order of two seats on the circle changes only
when one of them is visited.

The row has positions and a cursor that shifts when a seat leaves.  On the circle neither
occurs: a seat is known by a name that it keeps as long as it stands in the row.

* `Rota.due`: the number of visits after which a seat with a given level is chosen.
* `Rota.circle`: the named seats in the order in which they are visited.
* `Rota.Passes`: visits that choose nothing, and leaps, as moves of the circle.
* `Rota.passes_of_choose`: what `choose` does to the circle.
* `Rota.choose_isSome`: if a seat is ready then one is chosen; three laps suffice.
-/

namespace LispEngines

/-- A name for a task in a row: the number of tasks that came before it, and its priority.
Unlike the 32-bit number of a task it is never used again. -/
structure TaskName where
  serial : Nat
  priority : Int32
  deriving DecidableEq

/-- A seat with the name of its task. -/
abbrev NamedSeat := TaskName × Seat

namespace Rota

/-! ## Levels -/

/-- The number of visits after which a seat with a given level is chosen. -/
def due (level : Int32) : Nat := (max 1 (level.toInt + 20)).toNat

theorem due_cast (level : Int32) : (due level : Int) = max 1 (level.toInt + 20) := by
  unfold due
  omega

theorem one_le_due (level : Int32) : 1 ≤ due level := by
  have h := due_cast level
  omega

theorem due_le (level : Int32) : due level ≤ 2 ^ 31 + 19 := by
  have h := due_cast level
  have hl := level.toInt_lt
  omega

theorem runLevel_toInt : runLevel.toInt = -20 := by decide

/-- Subtraction stops at the bounds of the 32-bit numbers. -/
theorem lower_toInt (level amount : Int32) : (lower level amount).toInt =
    max (-2 ^ 31) (min (2 ^ 31 - 1) (level.toInt - amount.toInt)) := by
  unfold lower Int32.ofIntClamp
  have hmin : Int32.minValue.toInt = -2 ^ 31 := by decide
  have hmax : Int32.maxValue.toInt = 2 ^ 31 - 1 := by decide
  split
  · split
    · rw [Int32.toInt_ofIntLE]
      omega
    · rw [hmax]
      omega
  · rw [hmin]
    omega

/-- A seat is chosen on a visit exactly when one visit was due. -/
theorem lower_one_le_runLevel (level : Int32) : lower level 1 ≤ runLevel ↔ due level = 1 := by
  have hd := due_cast level
  have hl := level.le_toInt
  have hone : (1 : Int32).toInt = 1 := by decide
  rw [Int32.le_iff_toInt_le, lower_toInt, runLevel_toInt, hone]
  omega

/-- As long as a level stays above `runLevel`, subtracting from it counts down what is due. -/
theorem due_lower {level amount : Int32} (hpos : 0 < amount.toInt)
    (hlt : amount.toInt < due level) :
    (due (lower level amount) : Int) = due level - amount.toInt := by
  have hd := due_cast level
  have hd' := due_cast (lower level amount)
  have hl := level.le_toInt
  have hl' := level.toInt_lt
  rw [lower_toInt] at hd'
  omega

theorem due_lower_one {level : Int32} (h : 1 < due level) :
    due (lower level 1) = due level - 1 := by
  have hone : (1 : Int32).toInt = 1 := by decide
  have hd := @due_lower level 1 (by omega) (by omega)
  omega

theorem runLevel_lt_of_due {level : Int32} (h : 1 < due level) :
    runLevel < lower level 1 := by
  have hd := due_cast level
  have hl' := level.toInt_lt
  have hone : (1 : Int32).toInt = 1 := by decide
  rw [Int32.lt_iff_toInt_lt, lower_toInt, runLevel_toInt, hone]
  omega

/-! ## The circle -/

/-- The seats with their names in the order in which they are visited next. -/
def circle (names : List TaskName) (r : Rota) : List NamedSeat :=
  (names.zip r.seats).rotate r.cursor

/-- With distinct names, nobody behind the head has the head's name. -/
theorem name_ne_of_nodup {n : TaskName} {s : Seat} {rest : List NamedSeat}
    (h : (((n, s) :: rest).map Prod.fst).Nodup) : ∀ e ∈ rest, e.1 ≠ n := by
  rintro e he rfl
  have hmem := List.mem_map_of_mem (f := Prod.fst) he
  exact (List.nodup_cons.mp h).1 hmem

/-- A row with one name for each seat, and a cursor at one of them. -/
structure Named (names : List TaskName) (r : Rota) : Prop where
  length_eq : names.length = r.seats.length
  cursor_lt : r.cursor < r.seats.length

/-- Go on to the next seat, and leave another seat in place of the one under the cursor. -/
def pass (r : Rota) (s : Seat) : Rota :=
  { seats := r.seats.set r.cursor s, cursor := (r.cursor + 1) % r.seats.length }

/-- What a row looks like around its cursor. -/
theorem Named.split {names : List TaskName} {r : Rota} (h : Named names r) :
    ∃ pre n s post, names = pre.map Prod.fst ++ n :: post.map Prod.fst ∧
      r.seats = pre.map Prod.snd ++ s :: post.map Prod.snd ∧ r.cursor = pre.length ∧
      circle names r = (n, s) :: post ++ pre := by
  obtain ⟨hlen, hcur⟩ := h
  have hzip : r.cursor < (names.zip r.seats).length := by
    rw [List.length_zip]
    omega
  have hrow := List.take_append_drop r.cursor (names.zip r.seats)
  rw [List.drop_eq_getElem_cons hzip] at hrow
  have hfst := congrArg (List.map Prod.fst) hrow
  have hsnd := congrArg (List.map Prod.snd) hrow
  rw [List.map_append, List.map_cons, List.map_fst_zip (by omega)] at hfst
  rw [List.map_append, List.map_cons, List.map_snd_zip (by omega)] at hsnd
  refine ⟨_, _, _, _, hfst.symm, hsnd.symm, ?_, ?_⟩
  · rw [List.length_take]
    omega
  · rw [circle, List.rotate_eq_drop_append_take (by omega), List.drop_eq_getElem_cons hzip]

theorem Named.pass {names : List TaskName} {r : Rota} (h : Named names r) (s : Seat) :
    Named names (r.pass s) := by
  have hpos : 0 < r.seats.length := Nat.zero_lt_of_lt h.cursor_lt
  refine ⟨?_, ?_⟩
  · simpa [Rota.pass] using h.length_eq
  · simpa [Rota.pass] using Nat.mod_lt _ hpos

/-- Passing a seat moves the head of the circle to its end. -/
theorem circle_pass {names : List TaskName} {r : Rota} (h : Named names r) :
    ∃ n s rest, circle names r = (n, s) :: rest ∧ r.seats[r.cursor]? = some s ∧
      names[r.cursor]? = some n ∧ ∀ s', circle names (r.pass s') = rest ++ [(n, s')] := by
  obtain ⟨pre, n, s, post, hnames, hseats, hcur, hcircle⟩ := h.split
  refine ⟨n, s, post ++ pre, hcircle, ?_, ?_, fun s' => ?_⟩
  · simp [hseats, hcur]
  · simp [hnames, hcur]
  · have hset : r.seats.set r.cursor s' = pre.map Prod.snd ++ s' :: post.map Prod.snd := by
      simp [hseats, hcur]
    have hrow : names.zip (r.seats.set r.cursor s') = (pre ++ [(n, s')]) ++ post := by
      rw [hset, hnames, List.zip_append (by simp), List.zip_cons_cons, ← List.zip_of_prod rfl rfl,
        ← List.zip_of_prod rfl rfl]
      simp
    have hlen : r.seats.length = ((pre ++ [(n, s')]) ++ post).length := by
      rw [hseats]
      simp
    have hnext : r.cursor + 1 = (pre ++ [(n, s')]).length := by
      rw [hcur]
      simp
    rw [circle, Rota.pass, hrow, hlen, List.rotate_mod, hnext, List.rotate_append_length_eq]
    simp

theorem Named.length_circle {names : List TaskName} {r : Rota} (h : Named names r) :
    (circle names r).length = r.seats.length := by
  rw [circle, List.length_rotate, List.length_zip, h.length_eq, Nat.min_self]

/-- The circle has the seats of the row. -/
theorem Named.mem_seats {names : List TaskName} {r : Rota} (h : Named names r) {s : Seat} :
    s ∈ r.seats ↔ ∃ n, (n, s) ∈ circle names r := by
  have hsnd : (names.zip r.seats).map Prod.snd = r.seats :=
    List.map_snd_zip (Nat.le_of_eq h.length_eq.symm)
  constructor
  · intro hs
    rw [← hsnd] at hs
    obtain ⟨⟨n, s'⟩, hmem, rfl⟩ := List.mem_map.mp hs
    exact ⟨n, List.mem_rotate.mpr hmem⟩
  · rintro ⟨n, hn⟩
    rw [← hsnd]
    exact List.mem_map.mpr ⟨(n, s), List.mem_rotate.mp hn, rfl⟩

/-! ## Visits -/

/-- A visit passes the seat under the cursor.  A seat that is not ready stays as it is; one
that is due starts again from its priority; any other one is lowered by one. -/
theorem visit_eq {r : Rota} {s : Seat} (hs : r.seats[r.cursor]? = some s) :
    r.visit =
      if s.isReady then
        if due s.level = 1 then (some r.cursor, r.pass { s with level := s.priority })
        else (none, r.pass { s with level := lower s.level 1 })
      else (none, r.pass s) := by
  obtain ⟨hlt, hget⟩ := List.getElem?_eq_some_iff.mp hs
  have hmod : r.cursor % r.seats.length = r.cursor := Nat.mod_eq_of_lt hlt
  have hself : r.seats.set r.cursor s = r.seats := by
    rw [← hget]
    exact List.set_getElem_self hlt
  unfold visit
  simp only [hmod, hs, lower_one_le_runLevel]
  by_cases hready : s.isReady
  · simp only [hready, Bool.not_true, Bool.false_eq_true, if_false, if_true, pass]
  · simp [hready, pass, hself]

/-- Lower a seat that is ready. -/
def worn (amount : Int32) (e : NamedSeat) : NamedSeat :=
  if e.2.isReady then (e.1, { e.2 with level := lower e.2.level amount }) else e

@[simp] theorem worn_fst (amount : Int32) (e : NamedSeat) : (worn amount e).1 = e.1 := by
  unfold worn
  split <;> rfl

theorem mk_worn_snd (amount : Int32) (n : TaskName) (s : Seat) :
    (n, (worn amount (n, s)).2) = worn amount (n, s) :=
  Prod.ext (worn_fst amount (n, s)).symm rfl

@[simp] theorem worn_isReady (amount : Int32) (e : NamedSeat) :
    (worn amount e).2.isReady = e.2.isReady := by
  unfold worn
  split <;> rfl

/-- From one circle to another by visits that choose nothing, and by leaps over laps that
would choose nothing. -/
inductive Passes : List NamedSeat → List NamedSeat → Prop
  | refl (c) : Passes c c
  /-- The head is not ready. -/
  | idle {n s rest c} : s.isReady = false → Passes (rest ++ [(n, s)]) c → Passes ((n, s) :: rest) c
  /-- The head is ready but not due. -/
  | wait {n s rest c} : s.isReady = true → 1 < due s.level →
      Passes (rest ++ [(n, { s with level := lower s.level 1 })]) c → Passes ((n, s) :: rest) c
  /-- Every seat that is ready keeps one visit at least. -/
  | leap {c c'} (laps : Int32) : 0 < laps.toInt →
      (∀ e ∈ c, e.2.isReady = true → laps.toInt < due e.2.level) →
      Passes (c.map (worn laps)) c' → Passes c c'

theorem Passes.trans {c c₁ c₂ : List NamedSeat} (h : Passes c c₁) (h' : Passes c₁ c₂) :
    Passes c c₂ := by
  induction h with
  | refl => exact h'
  | idle hr _ ih => exact .idle hr (ih h')
  | wait hr hd _ ih => exact .wait hr hd (ih h')
  | leap laps hp hl _ ih => exact .leap laps hp hl (ih h')

/-- The circle after a seat at its head was chosen: the seat starts again from its
priority and stands at the end. -/
structure Chosen (names : List TaskName) (c : List NamedSeat) (i : Nat) (r : Rota) : Prop where
  named : Named names r
  circle_eq : ∃ n s rest, c = (n, s) :: rest ∧ s.isReady = true ∧ due s.level = 1 ∧
    names[i]? = some n ∧ r.seats[i]? = some { s with level := s.priority } ∧
    circle names r = rest ++ [(n, { s with level := s.priority })]

/-- What a visit does to the circle. -/
theorem passes_of_visit {names : List TaskName} {r : Rota} (h : Named names r) :
    (∃ r', r.visit = (none, r') ∧ Named names r' ∧ Passes (circle names r) (circle names r')) ∨
      ∃ i r', r.visit = (some i, r') ∧ Chosen names (circle names r) i r' := by
  obtain ⟨n, s, rest, hcircle, hseat, hname, hpass⟩ := circle_pass h
  rw [visit_eq hseat, hcircle]
  by_cases hready : s.isReady
  · by_cases hdue : due s.level = 1
    · rw [if_pos hready, if_pos hdue]
      refine .inr ⟨_, _, rfl, h.pass _, n, s, rest, rfl, hready, hdue, hname, ?_, hpass _⟩
      rw [pass, List.getElem?_set_self h.cursor_lt]
    · rw [if_pos hready, if_neg hdue]
      have hone := one_le_due s.level
      refine .inl ⟨_, rfl, h.pass _, ?_⟩
      rw [hpass]
      exact .wait hready (by omega) (.refl _)
  · rw [if_neg hready]
    refine .inl ⟨_, rfl, h.pass _, ?_⟩
    rw [hpass]
    exact .idle (by simpa using hready) (.refl _)

theorem passes_of_visits {names : List TaskName} (n : Nat) {r : Rota} (h : Named names r) :
    (∃ r', r.visits n = (none, r') ∧ Named names r' ∧ Passes (circle names r) (circle names r')) ∨
      ∃ i c r', r.visits n = (some i, r') ∧ Passes (circle names r) c ∧ Chosen names c i r' := by
  induction n generalizing r with
  | zero => exact .inl ⟨r, rfl, h, .refl _⟩
  | succ n ih =>
    rcases passes_of_visit h with ⟨r₁, hv, h₁, hp⟩ | ⟨i, r₁, hv, hc⟩
    · rw [visits, hv]
      rcases ih h₁ with ⟨r₂, hvs, h₂, hp'⟩ | ⟨i, c, r₂, hvs, hp', hc⟩
      · exact .inl ⟨r₂, hvs, h₂, hp.trans hp'⟩
      · exact .inr ⟨i, c, r₂, hvs, hp.trans hp', hc⟩
    · rw [visits, hv]
      exact .inr ⟨i, _, r₁, rfl, .refl _, hc⟩

/-! ## A lap -/

/-- After as many visits as a part of the circle is long, none of which chose, that part
stands at the end and is lowered by one; and no seat of it was due. -/
theorem circle_of_visits_none {names : List TaskName} {n : Nat} {r r' : Rota}
    (h : Named names r) (hv : r.visits n = (none, r')) {part rest : List NamedSeat}
    (hpart : circle names r = part ++ rest) (hn : part.length = n) :
    Named names r' ∧ circle names r' = rest ++ part.map (worn 1) ∧
      ∀ e ∈ part, e.2.isReady = true → 1 < due e.2.level := by
  induction n generalizing r part rest with
  | zero =>
    obtain rfl := List.eq_nil_of_length_eq_zero hn
    obtain rfl : r = r' := by simpa [visits] using hv
    exact ⟨h, by simpa using hpart, by simp⟩
  | succ n ih =>
    obtain ⟨e, part, rfl⟩ := List.exists_cons_of_length_eq_add_one hn
    obtain ⟨n₀, s, rest', hcircle, hseat, -, hpass⟩ := circle_pass h
    rw [hpart, List.cons_append, List.cons.injEq] at hcircle
    obtain ⟨rfl, rfl⟩ := hcircle
    -- The head did not choose, so the visit left the worn head at the end.
    have hone := one_le_due s.level
    have hhead : (s.isReady = true → 1 < due s.level) ∧
        r.visit = (none, r.pass (worn 1 (n₀, s)).2) := by
      rw [visits, visit_eq hseat] at hv
      rw [visit_eq hseat]
      by_cases hready : s.isReady
      · by_cases hdue : due s.level = 1
        · simp [hready, hdue] at hv
        · exact ⟨fun _ => by omega, by simp [hready, hdue, worn]⟩
      · exact ⟨fun h => absurd h hready, by simp [hready, worn]⟩
    rw [visits, hhead.2] at hv
    have hmove : circle names (r.pass (worn 1 (n₀, s)).2) = part ++ (rest ++ [worn 1 (n₀, s)]) := by
      rw [hpass, List.append_assoc, mk_worn_snd]
    obtain ⟨h', hc, hdue⟩ := ih (h.pass _) hv hmove (by simpa using hn)
    refine ⟨h', by rw [hc]; simp, fun e he => ?_⟩
    rcases List.mem_cons.mp he with rfl | he
    · exact hhead.1
    · exact hdue e he

/-- A lap that chooses nothing lowers every seat that is ready by one. -/
theorem circle_of_lap {names : List TaskName} {r r' : Rota} (h : Named names r)
    (hv : r.visits r.seats.length = (none, r')) :
    Named names r' ∧ circle names r' = (circle names r).map (worn 1) ∧
      ∀ e ∈ circle names r, e.2.isReady = true → 1 < due e.2.level := by
  have hall : circle names r = circle names r ++ [] := (List.append_nil _).symm
  simpa using circle_of_visits_none h hv hall h.length_circle

/-! ## Leaps -/

theorem Named.skip {names : List TaskName} {r : Rota} (h : Named names r) (laps : Int32) :
    Named names (r.skip laps) := by
  unfold Rota.skip
  split
  · exact ⟨by simpa using h.length_eq, by simpa using h.cursor_lt⟩
  · exact h

theorem circle_skip (names : List TaskName) (r : Rota) {laps : Int32} (hpos : 0 < laps) :
    circle names (r.skip laps) = (circle names r).map (worn laps) := by
  have hworn : worn laps = Prod.map id
      fun s => if s.isReady then { s with level := lower s.level laps } else s := by
    funext ⟨n, s⟩
    by_cases hs : s.isReady <;> simp [worn, hs]
  rw [Rota.skip, if_pos hpos, circle, circle, hworn, List.map_rotate, List.zip_map_right]

theorem circle_skip_of_not_pos (names : List TaskName) (r : Rota) {laps : Int32}
    (hpos : ¬ 0 < laps) : circle names (r.skip laps) = circle names r := by
  rw [Rota.skip, if_neg hpos]

/-- A gap too large for a 32-bit number counts as the largest one. -/
theorem gap_toInt {level : Int32} (h : runLevel < level) :
    (lower level runLevel).toInt = min (due level : Int) (2 ^ 31 - 1) := by
  have hd := due_cast level
  rw [Int32.lt_iff_toInt_lt, runLevel_toInt] at h
  rw [lower_toInt, runLevel_toInt]
  omega

/-- Some seat that is ready has the lowest gap, and decides how long the leap is. -/
theorem quietLaps_toInt {r : Rota} (habove : ∀ s ∈ r.seats, s.isReady = true → runLevel < s.level)
    (hready : ∃ s ∈ r.seats, s.isReady = true) :
    ∃ s ∈ r.seats, s.isReady = true ∧ r.quietLaps.toInt = min (due s.level : Int) (2 ^ 31 - 1) - 1 ∧
      ∀ s' ∈ r.seats, s'.isReady = true → r.quietLaps.toInt < due s'.level := by
  have hgaps : r.readyLevels.map (lower · runLevel) ≠ [] := by
    obtain ⟨s, hs, hr⟩ := hready
    have hmem : s ∈ r.seats.filter Seat.isReady := List.mem_filter.mpr ⟨hs, hr⟩
    simp [readyLevels, List.ne_nil_of_mem hmem]
  obtain ⟨gap, hgap⟩ : ∃ gap, (r.readyLevels.map (lower · runLevel)).min? = some gap := by
    cases h : (r.readyLevels.map (lower · runLevel)).min? with
    | none => exact absurd (List.min?_eq_none_iff.mp h) hgaps
    | some gap => exact ⟨gap, rfl⟩
  obtain ⟨hmem, hleast⟩ := List.min?_eq_some_iff.mp hgap
  simp only [readyLevels, List.map_map, List.mem_map, List.mem_filter] at hmem hleast
  obtain ⟨s, ⟨hs, hr⟩, rfl⟩ := hmem
  have hlaps : r.quietLaps.toInt = min (due s.level : Int) (2 ^ 31 - 1) - 1 := by
    have hpos := one_le_due s.level
    have hone : (1 : Int32).toInt = 1 := by decide
    have h := gap_toInt (habove s hs hr)
    unfold quietLaps
    rw [hgap]
    simp only [Function.comp_apply]
    rw [lower_toInt, h, hone]
    omega
  refine ⟨s, hs, hr, hlaps, fun s' hs' hr' => ?_⟩
  have hle := hleast _ ⟨s', ⟨hs', hr'⟩, rfl⟩
  simp only [Function.comp_apply] at hle
  rw [Int32.le_iff_toInt_le, gap_toInt (habove s hs hr), gap_toInt (habove s' hs' hr')] at hle
  omega

/-- Some seat that is ready is chosen after `n` visits or fewer. -/
def Within (n : Nat) (c : List NamedSeat) : Prop :=
  ∃ e ∈ c, e.2.isReady = true ∧ due e.2.level ≤ n

/-- A leap chooses nothing.  It goes so far that some seat is due at the next visit, unless
the lowest level was close to the upper bound. -/
theorem passes_of_leap {names : List TaskName} {r : Rota} (h : Named names r)
    (habove : ∀ s ∈ r.seats, s.isReady = true → runLevel < s.level)
    (hready : ∃ s ∈ r.seats, s.isReady = true) :
    Passes (circle names r) (circle names (r.skip r.quietLaps)) ∧
      Within 21 (circle names (r.skip r.quietLaps)) ∧
      (Within 21 (circle names r) → Within 1 (circle names (r.skip r.quietLaps))) := by
  obtain ⟨s, hs, hr, hlaps, hlt⟩ := quietLaps_toInt habove hready
  obtain ⟨n, hn⟩ := h.mem_seats.mp hs
  have hle := due_le s.level
  have hone := one_le_due s.level
  have hzero : (0 : Int32).toInt = 0 := by decide
  by_cases hpos : 0 < r.quietLaps
  · rw [circle_skip names r hpos]
    rw [Int32.lt_iff_toInt_lt, hzero] at hpos
    have hdue : due (worn r.quietLaps (n, s)).2.level = due s.level - r.quietLaps.toInt := by
      rw [worn, if_pos hr]
      exact due_lower hpos (hlt s hs hr)
    have hmem : worn r.quietLaps (n, s) ∈ (circle names r).map (worn r.quietLaps) :=
      List.mem_map_of_mem hn
    have hready' := (worn_isReady r.quietLaps (n, s)).trans hr
    refine ⟨.leap _ hpos (fun e he hre => hlt e.2 (h.mem_seats.mpr ⟨e.1, he⟩) hre) (.refl _),
      ⟨_, hmem, hready', by omega⟩, ?_⟩
    rintro ⟨e, he, hre, hlow⟩
    have hsmall := hlt e.2 (h.mem_seats.mpr ⟨e.1, he⟩) hre
    exact ⟨_, hmem, hready', by omega⟩
  · rw [circle_skip_of_not_pos names r hpos]
    rw [Int32.lt_iff_toInt_lt, hzero] at hpos
    have hnow : due s.level ≤ 1 := by omega
    exact ⟨.refl _, ⟨_, hn, hr, Nat.le_trans hnow (by decide)⟩, fun _ => ⟨_, hn, hr, hnow⟩⟩

/-- After a lap that chose nothing, levels are above `runLevel`, and the seats that were
ready still are. -/
theorem above_of_lap {names : List TaskName} {r r₁ : Rota} (h : Named names r)
    (hready : ∃ s ∈ r.seats, s.isReady = true) (hv : r.visits r.seats.length = (none, r₁)) :
    (∀ s ∈ r₁.seats, s.isReady = true → runLevel < s.level) ∧
      ∃ s ∈ r₁.seats, s.isReady = true := by
  obtain ⟨h₁, hc, hdue⟩ := circle_of_lap h hv
  constructor
  · intro s hs hr
    obtain ⟨n, hn⟩ := h₁.mem_seats.mp hs
    rw [hc] at hn
    obtain ⟨e, he, hes⟩ := List.mem_map.mp hn
    have hre : e.2.isReady = true := by
      rw [← worn_isReady 1 e, hes]
      exact hr
    have hlevel : s.level = lower e.2.level 1 := by
      rw [worn, if_pos hre] at hes
      exact (congrArg (·.2.level) hes).symm
    rw [hlevel]
    exact runLevel_lt_of_due (hdue e he hre)
  · obtain ⟨s, hs, hr⟩ := hready
    obtain ⟨n, hn⟩ := h.mem_seats.mp hs
    have hmem : worn 1 (n, s) ∈ circle names r₁ := hc ▸ List.mem_map_of_mem hn
    exact ⟨_, h₁.mem_seats.mpr ⟨_, hmem⟩, (worn_isReady 1 (n, s)).trans hr⟩

/-- What the leap after such a lap leads to. -/
theorem passes_of_lap {names : List TaskName} {r r₁ : Rota} (h : Named names r)
    (hready : ∃ s ∈ r.seats, s.isReady = true) (hv : r.visits r.seats.length = (none, r₁)) :
    (∃ s ∈ (r₁.skip r₁.quietLaps).seats, s.isReady = true) ∧
      Named names (r₁.skip r₁.quietLaps) ∧
      Passes (circle names r₁) (circle names (r₁.skip r₁.quietLaps)) ∧
      Within 21 (circle names (r₁.skip r₁.quietLaps)) ∧
      (Within 21 (circle names r) → Within 1 (circle names (r₁.skip r₁.quietLaps))) := by
  obtain ⟨h₁, hc, hdue⟩ := circle_of_lap h hv
  obtain ⟨habove, hready₁⟩ := above_of_lap h hready hv
  obtain ⟨hp, hwithin, hclose⟩ := passes_of_leap h₁ habove hready₁
  have h₂ := h₁.skip r₁.quietLaps
  refine ⟨?_, h₂, hp, hwithin, fun hlow => hclose ?_⟩
  · obtain ⟨e, he, hr, -⟩ := hwithin
    exact ⟨e.2, h₂.mem_seats.mpr ⟨e.1, he⟩, hr⟩
  · obtain ⟨e, he, hr, hlow⟩ := hlow
    have hd := due_lower_one (hdue e he hr)
    refine ⟨worn 1 e, hc ▸ List.mem_map_of_mem he, (worn_isReady 1 e).trans hr, ?_⟩
    rw [worn, if_pos hr]
    simp only [hd]
    omega

/-- If a seat is due at its next visit then a lap chooses. -/
theorem chooseWithin_isSome_of_due {names : List TaskName} {r : Rota} (h : Named names r)
    (hdue : Within 1 (circle names r)) (laps : Nat) : (r.chooseWithin (laps + 1)).isSome := by
  rw [chooseWithin]
  split
  · rfl
  · next r₁ hv =>
    obtain ⟨e, he, hr, hle⟩ := hdue
    have hlt := (circle_of_lap h hv).2.2 e he hr
    omega

/-- The first leap brings some seat near, the second brings it to the next visit, and the
third lap chooses. -/
theorem chooseWithin_three_isSome {names : List TaskName} {r : Rota} (h : Named names r)
    (hready : ∃ s ∈ r.seats, s.isReady = true) : (r.chooseWithin 3).isSome := by
  rw [chooseWithin]
  split
  · rfl
  · next r₁ hv =>
    obtain ⟨hready₁, h₁, -, hnear, -⟩ := passes_of_lap h hready hv
    rw [chooseWithin]
    split
    · rfl
    · next r₂ hv' =>
      obtain ⟨-, h₂, -, -, hnext⟩ := passes_of_lap h₁ hready₁ hv'
      exact chooseWithin_isSome_of_due h₂ (hnext hnear) 0

theorem passes_of_chooseWithin {names : List TaskName} (laps : Nat) {r r' : Rota} {i : Nat}
    (h : Named names r) (hready : ∃ s ∈ r.seats, s.isReady = true)
    (hc : r.chooseWithin laps = some (i, r')) :
    ∃ c, Passes (circle names r) c ∧ Chosen names c i r' := by
  induction laps generalizing r with
  | zero => cases hc
  | succ laps ih =>
    rw [chooseWithin] at hc
    rcases passes_of_visits r.seats.length h with ⟨r₁, hv, h₁, hp⟩ | ⟨j, c, r₁, hv, hp, hchosen⟩
    · rw [hv] at hc
      obtain ⟨hready', h', hp', -⟩ := passes_of_lap h hready hv
      obtain ⟨c, hp'', hchosen⟩ := ih h' hready' hc
      exact ⟨c, hp.trans (hp'.trans hp''), hchosen⟩
    · rw [hv] at hc
      obtain ⟨rfl, rfl⟩ : j = i ∧ r₁ = r' := by simpa using hc
      exact ⟨c, hp, hchosen⟩

/-- What `choose` does to the circle: it passes seats until one is due that is ready, and
takes that one. -/
theorem passes_of_choose {names : List TaskName} {r r' : Rota} {i : Nat} (h : Named names r)
    (hc : r.choose = some (i, r')) : ∃ c, Passes (circle names r) c ∧ Chosen names c i r' := by
  rw [choose] at hc
  split at hc
  · next hany => exact passes_of_chooseWithin 3 h (List.any_eq_true.mp hany) hc
  · cases hc

/-- A seat is chosen exactly if one is ready. -/
theorem choose_isSome {names : List TaskName} {r : Rota} (h : Named names r) :
    r.choose.isSome ↔ ∃ s ∈ r.seats, s.isReady = true := by
  rw [choose]
  constructor
  · intro hsome
    split at hsome
    · next hany => exact List.any_eq_true.mp hany
    · cases hsome
  · intro hready
    rw [if_pos (List.any_eq_true.mpr hready)]
    exact chooseWithin_three_isSome h hready

/-! ## Changing the row -/

theorem Named.insert {names : List TaskName} {r : Rota} (h : Named names r) (n : TaskName)
    (s : Seat) : Named (names ++ [n]) (r.insert s) := by
  obtain ⟨hlen, hcur⟩ := h
  refine ⟨?_, ?_⟩
  · simp [Rota.insert, hlen]
  · simp only [Rota.insert, List.length_append, List.length_singleton]
    omega

/-- A new seat stands behind the one that would have been visited last in a lap from the
start of the row, wherever that is on the circle. -/
theorem circle_insert {names : List TaskName} {r : Rota} (h : Named names r) (n : TaskName)
    (s : Seat) : ∃ c₁ c₂, circle names r = c₁ ++ c₂ ∧
      circle (names ++ [n]) (r.insert s) = c₁ ++ (n, s) :: c₂ := by
  have hlen : r.cursor ≤ (names.zip r.seats).length := by
    rw [List.length_zip, h.length_eq, Nat.min_self]
    exact Nat.le_of_lt h.cursor_lt
  refine ⟨_, _, List.rotate_eq_drop_append_take hlen, ?_⟩
  rw [circle, Rota.insert, List.zip_append h.length_eq, List.zip_cons_cons, List.zip_nil_left,
    List.rotate_eq_drop_append_take (by rw [List.length_append]; exact Nat.le_add_right_of_le hlen),
    List.drop_append_of_le_length hlen, List.take_append_of_le_length hlen, List.append_assoc,
    List.singleton_append]

/-- Change the seat of the task with a given name. -/
def changed (n : TaskName) (f : Seat → Seat) (e : NamedSeat) : NamedSeat :=
  if e.1 = n then (e.1, f e.2) else e

theorem Named.modify {names : List TaskName} {r : Rota} (h : Named names r) (i : Nat)
    (f : Seat → Seat) : Named names { r with seats := r.seats.modify i f } :=
  ⟨by simpa using h.length_eq, by simpa using h.cursor_lt⟩

/-- To change the seat at a position is to change the seat with the name that stands there. -/
theorem circle_modify {names : List TaskName} {r : Rota}
    (hnodup : names.Nodup) {i : Nat} {n : TaskName} (hi : names[i]? = some n) (f : Seat → Seat) :
    circle names { r with seats := r.seats.modify i f } =
      (circle names r).map (changed n f) := by
  obtain ⟨hlt, hget⟩ := List.getElem?_eq_some_iff.mp hi
  rw [circle, circle, List.map_rotate]
  congr 1
  apply List.ext_getElem
  · simp
  · intro j hj hj'
    have hnames : j < names.length := by simp at hj; omega
    have hsame : names[j] = n ↔ i = j := by
      rw [← hget, hnodup.getElem_inj_iff]
      exact eq_comm
    by_cases hij : i = j
    · simp [changed, hsame, hij]
    · simp [changed, hsame, hij]

theorem Named.remove {names : List TaskName} {r : Rota} (h : Named names r) {i : Nat}
    (hi : i < r.seats.length) (hmany : 1 < r.seats.length) :
    Named (names.eraseIdx i) (r.remove i) := by
  have hlen := h.length_eq
  refine ⟨?_, ?_⟩
  · rw [Rota.remove, List.length_eraseIdx_of_lt (by omega), List.length_eraseIdx_of_lt hi, hlen]
  · refine Nat.mod_lt _ ?_
    rw [List.length_eraseIdx_of_lt hi]
    omega

/-- Taking an element out of a row, with the cursor kept where it was, takes it out of the
circle, where it stands as far from the head as it stood behind the cursor. -/
theorem rotate_eraseIdx {α : Type} {row : List α} {i k : Nat} (hi : i < row.length)
    (hk : k < row.length) :
    ∃ c₁ x c₂, row[i]? = some x ∧ row.rotate k = c₁ ++ x :: c₂ ∧
      (row.eraseIdx i).rotate ((if i < k then k - 1 else k) % (row.length - 1)) = c₁ ++ c₂ ∧
      c₁.length = (i + row.length - k) % row.length := by
  obtain ⟨a, x, b, rfl, rfl⟩ : ∃ a x b, row = a ++ x :: b ∧ a.length = i :=
    ⟨row.take i, row[i], row.drop (i + 1), by simp, by simp; omega⟩
  have herase : (a ++ x :: b).eraseIdx a.length = a ++ b := by
    rw [List.eraseIdx_append_of_length_le (Nat.le_refl _), Nat.sub_self, List.eraseIdx_cons_zero]
  have hlen : (a ++ x :: b).length - 1 = (a ++ b).length := by
    simp only [List.length_append, List.length_cons]
    omega
  rw [herase, hlen, List.rotate_mod]
  by_cases hik : a.length < k
  · -- The cursor is behind the gap and moves with the seat it was at.
    obtain ⟨b₁, b₂, rfl, hb⟩ : ∃ b₁ b₂, b = b₁ ++ b₂ ∧ k = a.length + 1 + b₁.length := by
      refine ⟨b.take (k - a.length - 1), b.drop (k - a.length - 1), by simp, ?_⟩
      simp only [List.length_append, List.length_cons] at hk
      rw [List.length_take]
      omega
    refine ⟨b₂ ++ a, x, b₁, by simp, ?_, ?_, ?_⟩
    · have hrow : a ++ x :: (b₁ ++ b₂) = (a ++ x :: b₁) ++ b₂ := by simp
      have hcut : k = (a ++ x :: b₁).length := by
        simp only [List.length_append, List.length_cons]
        omega
      rw [hrow, hcut, List.rotate_append_length_eq, List.append_assoc]
    · have hcut : k - 1 = (a ++ b₁).length := by
        rw [List.length_append]
        omega
      rw [if_pos hik, ← List.append_assoc a, hcut, List.rotate_append_length_eq, List.append_assoc]
    · simp only [List.length_append, List.length_cons]
      rw [Nat.mod_eq_of_lt (by omega)]
      omega
  · obtain ⟨a₁, a₂, rfl, rfl⟩ : ∃ a₁ a₂, a = a₁ ++ a₂ ∧ k = a₁.length :=
      ⟨a.take k, a.drop k, by simp, by rw [List.length_take]; omega⟩
    refine ⟨a₂, x, b ++ a₁, by simp, ?_, ?_, ?_⟩
    · rw [List.append_assoc, List.rotate_append_length_eq, List.append_assoc, List.cons_append]
    · rw [if_neg hik, List.append_assoc, List.rotate_append_length_eq, List.append_assoc]
    · have hfar : (a₁ ++ a₂).length + (a₁ ++ a₂ ++ x :: b).length - a₁.length =
          a₂.length + (a₁ ++ a₂ ++ x :: b).length := by
        simp only [List.length_append]
        omega
      rw [hfar, Nat.add_mod_right, Nat.mod_eq_of_lt]
      simp only [List.length_append, List.length_cons]
      omega

/-- Who leaves takes the name along. -/
theorem zip_eraseIdx {α β : Type} {l : List α} {l' : List β} (h : l.length = l'.length) (i : Nat) :
    (l.eraseIdx i).zip (l'.eraseIdx i) = (l.zip l').eraseIdx i := by
  refine (List.zip_of_prod ?_ ?_).symm
  · rw [← List.eraseIdx_map, List.map_fst_zip (Nat.le_of_eq h)]
  · rw [← List.eraseIdx_map, List.map_snd_zip (Nat.le_of_eq h.symm)]

/-- Who leaves is missing from the circle, and nothing else changes. -/
theorem circle_remove {names : List TaskName} {r : Rota} (h : Named names r)
    (hnodup : names.Nodup) {i : Nat} {n : TaskName} (hi : names[i]? = some n) :
    circle (names.eraseIdx i) (r.remove i) = (circle names r).filter (·.1 ≠ n) := by
  obtain ⟨hlen, hcur⟩ := h
  have hfst : (names.zip r.seats).map Prod.fst = names := List.map_fst_zip (by omega)
  have hzip : (names.zip r.seats).length = r.seats.length := by
    rw [List.length_zip]
    omega
  have hlt : i < r.seats.length := hlen ▸ (List.getElem?_eq_some_iff.mp hi).1
  obtain ⟨c₁, x, c₂, hx, hc, hc', -⟩ := rotate_eraseIdx (hzip ▸ hlt) (hzip ▸ hcur)
  have hname : x.1 = n := by
    have hmap := congrArg (Option.map Prod.fst) hx
    rw [← List.getElem?_map, hfst, hi] at hmap
    exact (Option.some.inj hmap).symm
  -- The others have other names, so they are kept.
  have hothers : (c₁.map Prod.fst ++ x.1 :: c₂.map Prod.fst).Nodup := by
    rw [← List.map_cons, ← List.map_append, ← hc, List.map_rotate, hfst]
    exact List.nodup_rotate.mpr hnodup
  rw [List.nodup_middle, List.nodup_cons, ← List.map_append, hname] at hothers
  have hkeep : (c₁ ++ c₂).filter (·.1 ≠ n) = c₁ ++ c₂ := by
    refine List.filter_eq_self.mpr fun e he => ?_
    have hne : e.1 ≠ n := fun h => hothers.1 (h ▸ List.mem_map_of_mem he)
    simpa using hne
  have hrest : (c₁ ++ x :: c₂).filter (·.1 ≠ n) = c₁ ++ c₂ := by
    rw [← hkeep, List.filter_append, List.filter_cons_of_neg (by simpa using hname),
      ← List.filter_append, hkeep]
  rw [circle, circle, hc, hrest, Rota.remove, zip_eraseIdx hlen, List.length_eraseIdx_of_lt hlt,
    ← hzip, hc']

end Rota

end LispEngines
