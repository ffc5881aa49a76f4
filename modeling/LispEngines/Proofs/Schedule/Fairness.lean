import LispEngines.Proofs.Schedule.Roster
import Mathlib.Algebra.Order.Floor.Div
import Mathlib.Data.Finset.Card

/-!
# Proportional fairness

A task with priority `p` is due on every `V p`-th visit, where `V p` is `p + 20` or one, if
that is more.  Between two quanta of a task `b` that stays ready, `b` is visited `V b` times,
and every other task about as often.  So another task `c` gets about `V b / V c` quanta.

"About" is made exact by a balance.  Let `b` and `c` be due after `B` and `C` visits, let `c`
have had `k` quanta since the last one of `b`, and let `δ` be one if `b` comes before `c` on
the circle and zero otherwise.  Then

  `k * V c + 1 + B ≤ V b + δ + C`,

and if `c` has been ready all the time then also

  `V b + δ + C ≤ k * V c + V c + B`.

A visit to `b` lowers `B` and `δ` by one each.  A visit to `c` lowers `C` by one and raises
`δ` by one; if it gives `c` a quantum then `C` rises by `V c` and `k` by one.  A leap lowers `B`
and `C` alike.  When `b` is worked on again, `B` and `δ` are one and `C` is at most `V c`.

* `Roster.Balance.moves`: the step lemma.  `Roster.balance_of_run`: the run lemma.
* `Roster.proportional_fairness`: the bounds on the number of quanta, and that tasks of one
  priority take turns.
-/

namespace LispEngines

namespace Roster

open Rota (due)

/-! ## The balance of two tasks -/

variable {b c : TaskName} {steady : Prop}

/-- The two inequalities, for seats that are on the circle. -/
structure Ledger (b c : TaskName) (steady : Prop) (k δ : Nat) (sb sc : Seat) : Prop where
  atMost : k * due c.priority + 1 + due sb.level ≤ due b.priority + δ + due sc.level
  atLeast : steady →
    due b.priority + δ + due sc.level ≤ k * due c.priority + due c.priority + due sb.level

/-- How the tasks `b` and `c` stand to each other after `c` has had `k` quanta. -/
inductive Balance (b c : TaskName) (steady : Prop) (k : Nat) (x : Standing) : Prop
  /-- `c` is visited before `b`. -/
  | behind {sb sc} : List.Sublist [(c, sc), (b, sb)] x.circle → Ledger b c steady k 0 sb sc →
      Balance b c steady k x
  /-- `b` is visited before `c`. -/
  | ahead {sb sc} : List.Sublist [(b, sb), (c, sc)] x.circle → Ledger b c steady k 1 sb sc →
      Balance b c steady k x
  /-- `c` is not in the row: it has not joined yet, or it has left. -/
  | absent {sb} : (b, sb) ∈ x.circle → (∀ e ∈ x.circle, e.1 ≠ c) → ¬ steady →
      (x.next ≤ c.serial → k = 0) → k * due c.priority + 1 ≤ due b.priority + due c.priority →
      Balance b c steady k x

/-- The head of the circle goes to the end. -/
theorem Balance.turn {k k' next : Nat} {n : TaskName} {s s' : Seat} {rest : List NamedSeat}
    (h : Balance b c steady k ⟨next, (n, s) :: rest⟩)
    (hb : n = b → ∀ sc, Ledger b c steady k 1 s sc → Ledger b c steady k' 0 s' sc)
    (hc : n = c → ∀ sb, Ledger b c steady k 0 sb s → Ledger b c steady k' 1 sb s')
    (hother : n ≠ c → k' = k) (hnodup : (((n, s) :: rest).map Prod.fst).Nodup) :
    Balance b c steady k' ⟨next, rest ++ [(n, s')]⟩ := by
  have hfresh := Rota.name_ne_of_nodup hnodup
  have hend : List.Sublist [(n, s')] [(n, s')] := List.Sublist.refl _
  cases h with
  | @behind sb sc hsub hl =>
    rcases List.cons_sublist_cons'.mp hsub with hrest | ⟨heq, hrest⟩
    · have hn : n ≠ c := (hfresh (c, sc) (hrest.subset (by simp))).symm
      obtain rfl := hother hn
      exact .behind (hrest.trans (List.sublist_append_left _ _)) hl
    · obtain ⟨rfl, rfl⟩ := Prod.mk.inj heq
      exact .ahead (hrest.append hend) (hc rfl sb hl)
  | @ahead sb sc hsub hl =>
    rcases List.cons_sublist_cons'.mp hsub with hrest | ⟨heq, hrest⟩
    · have hn : n ≠ c := (hfresh (c, sc) (hrest.subset (by simp))).symm
      obtain rfl := hother hn
      exact .ahead (hrest.trans (List.sublist_append_left _ _)) hl
    · obtain ⟨rfl, rfl⟩ := Prod.mk.inj heq
      exact .behind (hrest.append hend) (hb rfl sc hl)
  | @absent sb hmem hno hsteady hnext hk =>
    have hn : n ≠ c := hno _ List.mem_cons_self
    obtain rfl := hother hn
    have hno' : ∀ s', ∀ e ∈ rest ++ [(n, s')], e.1 ≠ c := by
      intro s' e he
      rcases List.mem_append.mp he with he | he
      · exact hno e (List.mem_cons_of_mem _ he)
      · obtain rfl := List.mem_singleton.mp he
        exact hn
    rcases List.mem_cons.mp hmem with heq | hmem
    · obtain ⟨rfl, rfl⟩ := Prod.mk.inj heq
      exact .absent (List.mem_append_right _ List.mem_cons_self) (hno' s') hsteady hnext hk
    · exact .absent (List.mem_append_left _ hmem) (hno' s') hsteady hnext hk

/-- All seats change and keep their names. -/
theorem Balance.map {k next : Nat} {l : List NamedSeat} {f : NamedSeat → NamedSeat}
    (h : Balance b c steady k ⟨next, l⟩) (hname : ∀ e, (f e).1 = e.1)
    (hl : ∀ δ sb sc, (b, sb) ∈ l → (c, sc) ∈ l → Ledger b c steady k δ sb sc →
      Ledger b c steady k δ (f (b, sb)).2 (f (c, sc)).2) :
    Balance b c steady k ⟨next, l.map f⟩ := by
  have hf : ∀ n s, (n, (f (n, s)).2) = f (n, s) := fun n s => Prod.ext (hname (n, s)).symm rfl
  cases h with
  | @behind sb sc hsub hled =>
    have hmap := hsub.map f
    rw [List.map_cons, List.map_singleton, ← hf c sc, ← hf b sb] at hmap
    exact .behind hmap (hl 0 sb sc (hsub.subset (by simp)) (hsub.subset (by simp)) hled)
  | @ahead sb sc hsub hled =>
    have hmap := hsub.map f
    rw [List.map_cons, List.map_singleton, ← hf c sc, ← hf b sb] at hmap
    exact .ahead hmap (hl 1 sb sc (hsub.subset (by simp)) (hsub.subset (by simp)) hled)
  | @absent sb hmem hno hsteady hnext hk =>
    refine @Balance.absent _ _ _ _ _ (f (b, sb)).2 ?_ ?_ hsteady hnext hk
    · rw [hf b sb]
      exact List.mem_map_of_mem hmem
    · intro e he
      obtain ⟨e', he', rfl⟩ := List.mem_map.mp he
      rw [hname]
      exact hno e' he'

/-- A task that joins starts from its priority, and has had no quanta. -/
theorem Balance.join {k next : Nat} {c₁ c₂ : List NamedSeat} {n : TaskName} {s : Seat}
    (h : Balance b c steady k ⟨next, c₁ ++ c₂⟩) (hx : Standing.Sound ⟨next, c₁ ++ c₂⟩)
    (hserial : n.serial = next) (hlevel : s.level = n.priority) :
    Balance b c steady k ⟨next + 1, c₁ ++ (n, s) :: c₂⟩ := by
  have hinto : (c₁ ++ c₂).Sublist (c₁ ++ (n, s) :: c₂) :=
    (List.sublist_cons_self _ _).append_left _
  cases h with
  | behind hsub hl => exact .behind (hsub.trans hinto) hl
  | ahead hsub hl => exact .ahead (hsub.trans hinto) hl
  | @absent sb hmem hno hsteady hnext hk =>
    by_cases hn : n = c
    · subst hn
      obtain rfl := hnext (Nat.le_of_eq hserial.symm)
      have hdue := (hx.fits _ hmem).2.2
      have hone := Rota.one_le_due n.priority
      have hled : ∀ δ, Ledger b n steady 0 δ sb s :=
        fun δ => ⟨by rw [hlevel]; simp only at hdue; omega, fun hst => absurd hst hsteady⟩
      rcases List.mem_append.mp hmem with hmem | hmem
      · have hsub := (List.singleton_sublist.mpr hmem).append
          ((List.nil_sublist c₂).cons_cons (n, s))
        exact .ahead hsub (hled 1)
      · have hsub := ((List.singleton_sublist.mpr hmem).cons_cons (n, s)).trans
          (List.sublist_append_right c₁ _)
        exact .behind hsub (hled 0)
    · refine .absent (hinto.subset hmem) (fun e he => ?_) hsteady
        (fun h => hnext (Nat.le_of_succ_le h)) hk
      rcases List.mem_append.mp he with he | he
      · exact hno e (List.mem_append_left _ he)
      · rcases List.mem_cons.mp he with rfl | he
        · exact hn
        · exact hno e (List.mem_append_right _ he)

theorem Balance.joins {k : Nat} {x y : Standing} (h : Balance b c steady k x) (hx : x.Sound)
    (hj : Standing.Joins x y) : Balance b c steady k y := by
  induction hj with
  | refl => exact h
  | join hs hp hl _ ih => exact ih (h.join hx hs hl) (hx.join hs hp hl)

/-- A task other than `b` leaves; if it is `c` then it has been ready only for a time. -/
theorem Balance.leave {k next : Nat} {l : List NamedSeat} {n : TaskName}
    (h : Balance b c steady k ⟨next, l⟩) (hx : Standing.Sound ⟨next, l⟩) (hb : n ≠ b)
    (hc : steady → n ≠ c) : Balance b c steady k ⟨next, l.filter (·.1 ≠ n)⟩ := by
  have hkeep : ∀ {l' : List NamedSeat}, l'.Sublist l → (∀ e ∈ l', e.1 ≠ n) →
      l'.Sublist (l.filter (·.1 ≠ n)) := by
    intro l' hsub hne
    have hfilter := hsub.filter (·.1 ≠ n)
    rwa [List.filter_eq_self.mpr fun e he => by simpa using hne e he] at hfilter
  have hleft : ∀ {sb sc δ}, (b, sb) ∈ l → (c, sc) ∈ l → δ ≤ 1 → Ledger b c steady k δ sb sc →
      n = c → Balance b c steady k ⟨next, l.filter (·.1 ≠ n)⟩ := by
    intro sb sc δ hmemb hmemc hδ hl heq
    have hserial := (hx.fits _ hmemc).1
    have hdue := (hx.fits _ hmemc).2.2
    have hone := Rota.one_le_due sb.level
    have hatMost := hl.atMost
    refine .absent (List.mem_filter.mpr ⟨hmemb, by simpa using hb.symm⟩) ?_
      (fun hst => hc hst heq) (fun hle => ?_) ?_
    · intro e he
      rw [← heq]
      simpa using (List.mem_filter.mp he).2
    · simp only at hserial hle
      omega
    · simp only at hdue
      omega
  cases h with
  | @behind sb sc hsub hl =>
    by_cases hn : n = c
    · exact hleft (hsub.subset (by simp)) (hsub.subset (by simp)) (by decide) hl hn
    · refine .behind (hkeep hsub ?_) hl
      simp [hb.symm, Ne.symm hn]
  | @ahead sb sc hsub hl =>
    by_cases hn : n = c
    · exact hleft (hsub.subset (by simp)) (hsub.subset (by simp)) (by decide) hl hn
    · refine .ahead (hkeep hsub ?_) hl
      simp [hb.symm, Ne.symm hn]
  | absent hmem hno hsteady hnext hk =>
    refine .absent (List.mem_filter.mpr ⟨hmem, by simpa using hb.symm⟩) ?_ hsteady hnext hk
    exact fun e he => hno e (List.mem_filter.mp he).1

/-! ### Passing and working -/

/-- A task with a given name is on the circle and ready. -/
def ReadyOn (n : TaskName) (l : List NamedSeat) : Prop := ∃ s, (n, s) ∈ l ∧ s.isReady = true

/-- Then every seat with that name is ready. -/
theorem Standing.Sound.ready {x : Standing} (h : x.Sound) {n : TaskName} (hn : ReadyOn n x.circle)
    {s : Seat} (hs : (n, s) ∈ x.circle) : s.isReady = true := by
  obtain ⟨s', hs', hr⟩ := hn
  rwa [h.seat_eq hs hs']

/-- Passing seats does not change who is ready. -/
theorem readyOn_passes {n : TaskName} {l l' : List NamedSeat} (h : Rota.Passes l l') :
    ReadyOn n l' ↔ ReadyOn n l := by
  have hturn : ∀ {n' s s' rest}, s'.isReady = s.isReady →
      (ReadyOn n (rest ++ [(n', s')]) ↔ ReadyOn n ((n', s) :: rest)) := by
    intro n' s s' rest hr
    constructor
    · rintro ⟨s₀, hs₀, hr₀⟩
      rcases List.mem_append.mp hs₀ with hs₀ | hs₀
      · exact ⟨s₀, List.mem_cons_of_mem _ hs₀, hr₀⟩
      · obtain ⟨rfl, rfl⟩ := Prod.mk.inj (List.mem_singleton.mp hs₀)
        exact ⟨s, List.mem_cons_self, hr ▸ hr₀⟩
    · rintro ⟨s₀, hs₀, hr₀⟩
      rcases List.mem_cons.mp hs₀ with heq | hs₀
      · obtain ⟨rfl, rfl⟩ := Prod.mk.inj heq
        exact ⟨s', by simp, hr.trans hr₀⟩
      · exact ⟨s₀, List.mem_append_left _ hs₀, hr₀⟩
  induction h with
  | refl => exact Iff.rfl
  | idle _ _ ih => exact ih.trans (hturn rfl)
  | wait _ _ _ ih => exact ih.trans (hturn rfl)
  | @leap l l' laps _ _ _ ih =>
    refine ih.trans ⟨?_, ?_⟩
    · rintro ⟨s₀, hs₀, hr₀⟩
      obtain ⟨e, he, heq⟩ := List.mem_map.mp hs₀
      have hname := congrArg Prod.fst heq
      have hready := congrArg (·.2.isReady) heq
      simp only [Rota.worn_fst, Rota.worn_isReady] at hname hready
      exact ⟨e.2, hname ▸ he, hready.trans hr₀⟩
    · rintro ⟨s₀, hs₀, hr₀⟩
      refine ⟨(Rota.worn laps (n, s₀)).2, ?_, (Rota.worn_isReady laps (n, s₀)).trans hr₀⟩
      have hmem := List.mem_map_of_mem (f := Rota.worn laps) hs₀
      rwa [← Rota.mk_worn_snd] at hmem

/-- Tasks that have joined before stay as they are when others join. -/
theorem readyOn_joins {n : TaskName} {x y : Standing} (h : Standing.Joins x y)
    (hn : n.serial < x.next) : ReadyOn n y.circle ↔ ReadyOn n x.circle := by
  induction h with
  | refl => exact Iff.rfl
  | @join next c₁ c₂ n' s y hserial _ _ _ ih =>
    refine (ih (Nat.lt_succ_of_lt hn)).trans ⟨?_, ?_⟩
    · rintro ⟨s₀, hs₀, hr₀⟩
      refine ⟨s₀, ?_, hr₀⟩
      rcases List.mem_append.mp hs₀ with hs₀ | hs₀
      · exact List.mem_append_left _ hs₀
      · rcases List.mem_cons.mp hs₀ with heq | hs₀
        · obtain ⟨rfl, rfl⟩ := Prod.mk.inj heq
          exact absurd hn (by simp [hserial])
        · exact List.mem_append_right _ hs₀
    · rintro ⟨s₀, hs₀, hr₀⟩
      refine ⟨s₀, ?_, hr₀⟩
      rcases List.mem_append.mp hs₀ with hs₀ | hs₀ <;> simp [hs₀]

theorem Balance.passes {k next : Nat} {l l' : List NamedSeat}
    (h : Balance b c steady k ⟨next, l⟩) (hx : Standing.Sound ⟨next, l⟩)
    (hb : ReadyOn b l) (hc : steady → ReadyOn c l) (hp : Rota.Passes l l') :
    Balance b c steady k ⟨next, l'⟩ := by
  induction hp with
  | refl => exact h
  | @idle n s rest l' hidle hp ih =>
    have hstep := Rota.Passes.idle hidle (.refl (rest ++ [(n, s)]))
    refine ih ?_ (hx.passes hstep) ((readyOn_passes hstep).mpr hb)
      (fun hst => (readyOn_passes hstep).mpr (hc hst))
    refine h.turn ?_ ?_ (fun _ => rfl) hx.nodup
    · rintro rfl
      have hr := hx.ready hb List.mem_cons_self
      simp [hidle] at hr
    · rintro rfl sb ⟨hatMost, -⟩
      refine ⟨by omega, fun hst => ?_⟩
      have hr := hx.ready (hc hst) List.mem_cons_self
      simp [hidle] at hr
  | @wait n s rest l' hready hdue hp ih =>
    have hstep := @Rota.Passes.wait n s rest _ hready hdue (.refl _)
    refine ih ?_ (hx.passes hstep) ((readyOn_passes hstep).mpr hb)
      (fun hst => (readyOn_passes hstep).mpr (hc hst))
    have hlower := Rota.due_lower_one hdue
    refine h.turn ?_ ?_ (fun _ => rfl) hx.nodup
    · rintro rfl sc ⟨hatMost, hatLeast⟩
      refine ⟨?_, fun hst => ?_⟩
      · rw [hlower]
        omega
      · have hl := hatLeast hst
        rw [hlower]
        omega
    · rintro rfl sb ⟨hatMost, hatLeast⟩
      refine ⟨?_, fun hst => ?_⟩
      · rw [hlower]
        omega
      · have hl := hatLeast hst
        rw [hlower]
        omega
  | @leap l l' laps hpos hlt hp ih =>
    have hstep := Rota.Passes.leap laps hpos hlt (.refl _)
    refine ih ?_ (hx.passes hstep) ((readyOn_passes hstep).mpr hb)
      (fun hst => (readyOn_passes hstep).mpr (hc hst))
    refine h.map (Rota.worn_fst laps) fun δ sb sc hsb hsc hl => ?_
    obtain ⟨hatMost, hatLeast⟩ := hl
    have hdrop : ∀ {n s}, (n, s) ∈ l → s.isReady = true →
        due s.level = due (Rota.worn laps (n, s)).2.level + laps.toInt.toNat := by
      intro n s hs hr
      have hd := Rota.due_lower hpos (hlt _ hs hr)
      simp only [Rota.worn, hr, if_true] at hd ⊢
      omega
    have hdropb := hdrop hsb (hx.ready hb hsb)
    refine ⟨?_, fun hst => ?_⟩
    · by_cases hrc : sc.isReady = true
      · have hdropc := hdrop hsc hrc
        omega
      · have hsame : Rota.worn laps (c, sc) = (c, sc) := if_neg hrc
        rw [hsame]
        simp only
        omega
    · have hdropc := hdrop hsc (hx.ready (hc hst) hsc)
      have hl := hatLeast hst
      omega

/-- The quantum of a task other than `b`. -/
theorem Balance.work {k next : Nat} {n : TaskName} {s s' : Seat} {rest : List NamedSeat}
    (h : Balance b c steady k ⟨next, (n, s) :: rest⟩)
    (hx : Standing.Sound ⟨next, (n, s) :: rest⟩) (hb : n ≠ b) (hdue : due s.level = 1)
    (hlevel : s'.level = s.priority) :
    Balance b c steady (k + if n = c then 1 else 0) ⟨next, rest ++ [(n, s')]⟩ := by
  have hpriority := (hx.fits _ List.mem_cons_self).2.1
  refine h.turn (fun heq => absurd heq hb) ?_ (fun hn => by simp [hn]) hx.nodup
  rintro rfl sb ⟨hatMost, hatLeast⟩
  rw [hdue] at hatMost hatLeast
  simp only at hpriority
  refine ⟨?_, fun hst => ?_⟩
  · rw [if_pos rfl, Nat.add_mul, Nat.one_mul, hlevel, hpriority]
    omega
  · have hl := hatLeast hst
    rw [if_pos rfl, Nat.add_mul, Nat.one_mul, hlevel, hpriority]
    omega

/-- **What one operation preserves.**  `b` stays ready and is not worked on. -/
theorem Balance.moves {k : Nat} {x y : Standing} {e : ScheduleEvent}
    (h : Balance b c steady k x) (hx : x.Sound) (hm : Standing.Moves e x y)
    (he : e ≠ .worked b) (hb : ReadyOn b x.circle) (hb' : ReadyOn b y.circle)
    (hc : steady → ReadyOn c x.circle ∧ ReadyOn c y.circle) :
    Balance b c steady (k + if e = .worked c then 1 else 0) y := by
  have hserial : ∀ {n}, ReadyOn n x.circle → n.serial < x.next :=
    fun ⟨s, hs, _⟩ => (hx.fits _ hs).1
  cases hm with
  | join hj => exact h.joins hx hj
  | @leave next l n hidle =>
    obtain ⟨s, hs, -⟩ := hb'
    refine h.leave hx ?_ fun hst => ?_
    · rintro rfl
      simp at hs
    · rintro rfl
      obtain ⟨s, hs, -⟩ := (hc hst).2
      simp at hs
  | @alter next l n f hf =>
    have hsame : ∀ e : NamedSeat, (Rota.changed n f e).2.level = e.2.level := by
      intro e
      unfold Rota.changed
      split
      · exact (hf e.2).1
      · rfl
    refine h.map (fun e => ?_) fun δ sb sc _ _ hl => ⟨?_, ?_⟩
    · unfold Rota.changed
      split <;> rfl
    · rw [hsame, hsame]
      exact hl.atMost
    · rw [hsame, hsame]
      exact hl.atLeast
  | idle hj => exact h.joins hx hj
  | @worked _ next l n s s' rest hj hp hready hdue hlevel hpriority =>
    have hj' := hx.joins hj
    have hbal := ((h.joins hx hj).passes hj' ((readyOn_joins hj (hserial hb)).mpr hb)
      (fun hst => (readyOn_joins hj (hserial (hc hst).1)).mpr (hc hst).1) hp)
    have hn : n ≠ b := fun heq => he (heq ▸ rfl)
    have hwork := hbal.work (hj'.passes hp) hn hdue hlevel
    simpa using hwork
  | @last _ next l n s rest hj hp hready hdue =>
    have hj' := hx.joins hj
    have hx' := hj'.passes hp
    have hbal := ((h.joins hx hj).passes hj' ((readyOn_joins hj (hserial hb)).mpr hb)
      (fun hst => (readyOn_joins hj (hserial (hc hst).1)).mpr (hc hst).1) hp)
    have hn : n ≠ b := fun heq => he (heq ▸ rfl)
    -- Leaving in this tick is the same as leaving after it.
    have hwork := @Balance.work _ _ _ _ _ _ _ { s with level := s.priority } _ hbal hx' hn hdue rfl
    have hturned := @Standing.Sound.turn _ _ _ { s with level := s.priority } _ hx' id rfl
      (by rw [(hx'.fits _ List.mem_cons_self).2.1])
    have hfresh := Rota.name_ne_of_nodup hx'.nodup
    have hleave := hwork.leave (n := n) hturned hn fun hst heq => by
      obtain ⟨s₀, hs₀, -⟩ := (hc hst).2
      exact hfresh _ hs₀ heq.symm
    have hrest : (rest ++ [(n, { s with level := s.priority })]).filter (·.1 ≠ n) = rest := by
      rw [List.filter_append, List.filter_eq_self.mpr fun e he => by simpa using hfresh e he]
      simp
    rw [hrest] at hleave
    simpa using hleave

/-! ### From one quantum to the next -/

/-- When `b` has just been worked on, the books are balanced. -/
theorem balance_of_worked {x y : Standing} (hx : x.Sound)
    (hm : Standing.Moves (.worked b) x y) (hb : ReadyOn b y.circle) (hbc : c ≠ b)
    (hc : steady → ReadyOn c y.circle) : Balance b c steady 0 y := by
  have hy := hx.moves hm
  cases hm with
  | @worked _ next l _ s s' rest hj hp hready hdue hlevel hpriority =>
    have hsame := (((hx.joins hj).passes hp).fits _ List.mem_cons_self).2.1
    have hfull : due s'.level = due b.priority := by rw [hlevel, hsame]
    by_cases hin : ∃ sc, (c, sc) ∈ rest
    · obtain ⟨sc, hsc⟩ := hin
      have hone := Rota.one_le_due sc.level
      have hle := (hy.fits (c, sc) (List.mem_append_left _ hsc)).2.2
      simp only at hle
      refine .behind ((List.singleton_sublist.mpr hsc).append (.refl _)) ⟨?_, fun _ => ?_⟩
      · rw [hfull]
        omega
      · rw [hfull]
        omega
    · have hno : ∀ e ∈ rest ++ [(b, s')], e.1 ≠ c := by
        rintro e he rfl
        rcases List.mem_append.mp he with he | he
        · exact hin ⟨e.2, he⟩
        · exact hbc (congrArg Prod.fst (List.mem_singleton.mp he))
      have hone := Rota.one_le_due b.priority
      refine .absent (List.mem_append_right _ List.mem_cons_self) hno (fun hst => ?_)
        (fun _ => rfl) (by omega)
      obtain ⟨s₀, hs₀, -⟩ := hc hst
      exact hno _ hs₀ rfl
  | @last _ next l _ s rest hj hp hready hdue =>
    obtain ⟨s₀, hs₀, -⟩ := hb
    exact absurd rfl (Rota.name_ne_of_nodup ((hx.joins hj).passes hp).nodup _ hs₀)

/-- When `b` is worked on again, `c` has had its share. -/
theorem Balance.share {k : Nat} {x y : Standing} (h : Balance b c steady k x) (hx : x.Sound)
    (hm : Standing.Moves (.worked b) x y) (hb : ReadyOn b x.circle) (hbc : c ≠ b)
    (hc : steady → ReadyOn c x.circle) :
    k * due c.priority + 1 ≤ due b.priority + due c.priority ∧
      (steady → due b.priority < (k + 1) * due c.priority) := by
  have hserial : ∀ {n}, ReadyOn n x.circle → n.serial < x.next :=
    fun ⟨s, hs, _⟩ => (hx.fits _ hs).1
  obtain ⟨next, l, s, rest, hj, hp, hdue⟩ : ∃ next l s rest,
      Standing.Joins x ⟨next, l⟩ ∧ Rota.Passes l ((b, s) :: rest) ∧ due s.level = 1 := by
    cases hm with
    | worked hj hp _ hdue => exact ⟨_, _, _, _, hj, hp, hdue⟩
    | last hj hp _ hdue => exact ⟨_, _, _, _, hj, hp, hdue⟩
  have hj' := hx.joins hj
  have hx' := hj'.passes hp
  have hfresh := Rota.name_ne_of_nodup hx'.nodup
  have hbal := (h.joins hx hj).passes hj' ((readyOn_joins hj (hserial hb)).mpr hb)
    (fun hst => (readyOn_joins hj (hserial (hc hst))).mpr (hc hst)) hp
  cases hbal with
  | @behind sb sc hsub hl =>
    -- Nobody is visited before the head.
    rcases List.cons_sublist_cons'.mp hsub with hrest | ⟨heq, -⟩
    · exact absurd rfl (hfresh (b, sb) (hrest.subset (by simp)))
    · exact absurd (congrArg Prod.fst heq) hbc
  | @ahead sb sc hsub hl =>
    rcases List.cons_sublist_cons'.mp hsub with hrest | ⟨heq, -⟩
    · exact absurd rfl (hfresh (b, sb) (hrest.subset (by simp)))
    · obtain ⟨-, rfl⟩ := Prod.mk.inj heq
      have hle := (hx'.fits (c, sc) (hsub.subset (by simp))).2.2
      have hone := Rota.one_le_due sc.level
      have hatMost := hl.atMost
      rw [hdue] at hatMost
      simp only at hle
      refine ⟨by omega, fun hst => ?_⟩
      have hatLeast := hl.atLeast hst
      rw [hdue] at hatLeast
      rw [Nat.add_mul, Nat.one_mul]
      omega
  | absent _ _ hsteady _ hk => exact ⟨hk, fun hst => absurd hst hsteady⟩

/-! ## Along a history -/

theorem ready_iff {m : Roster} {n : TaskName} : m.Ready n ↔ ReadyOn n m.standing.circle := by
  constructor
  · rintro ⟨s, hs, hr⟩
    exact ⟨s, List.mem_rotate.mpr hs, hr⟩
  · rintro ⟨s, hs, hr⟩
    exact ⟨s, List.mem_rotate.mp hs, hr⟩

theorem quanta_cons (n : TaskName) (m : Roster) (e : ScheduleEvent) (log : Log) :
    quanta n ((m, e) :: log) = (if e = .worked n then 1 else 0) + quanta n log := by
  unfold quanta works
  cases e with
  | change => simp [ScheduleEvent.task?]
  | idle => simp [ScheduleEvent.task?]
  | worked n' =>
    by_cases h : n' = n
    · subst h
      simp [ScheduleEvent.task?, Nat.add_comm]
    · simp [ScheduleEvent.task?, h]

/-- A log starts with the roster that the history starts with. -/
theorem Run.head_eq {m m' : Roster} {x : Roster × ScheduleEvent} {log : Log}
    (h : Run m (x :: log) m') : x.1 = m := by
  cases h
  rfl

/-- A task that is ready at all times of a log is ready at the start. -/
theorem ready_of_log {m m' : Roster} {mid : Log} {x : Roster × ScheduleEvent} {n : TaskName}
    (hr : Run m (mid ++ [x]) m') (hn : ∀ y ∈ mid ++ [x], y.1.Ready n) :
    ReadyOn n m.standing.circle := by
  obtain ⟨y, rest, hy⟩ : ∃ y rest, mid ++ [x] = y :: rest := by
    cases mid with
    | nil => exact ⟨_, _, rfl⟩
    | cons y mid => exact ⟨_, _, rfl⟩
  have hready := hn y (hy ▸ List.mem_cons_self)
  rw [hy] at hr
  rw [hr.head_eq] at hready
  exact ready_iff.mp hready

/-- **What a whole history preserves**, up to the next quantum of `b`. -/
theorem share_of_run {k : Nat} {m m₁ m' : Roster} {mid : Log} (h : Sound m)
    (hbal : Balance b c steady k m.standing) (hbc : c ≠ b)
    (hr : Run m (mid ++ [(m₁, .worked b)]) m') (hnone : ∀ x ∈ mid, x.2 ≠ .worked b)
    (hb : ∀ x ∈ mid ++ [(m₁, .worked b)], x.1.Ready b)
    (hc : steady → ∀ x ∈ mid ++ [(m₁, ScheduleEvent.worked b)], x.1.Ready c) :
    (k + quanta c mid) * due c.priority + 1 ≤ due b.priority + due c.priority ∧
      (steady → due b.priority < (k + quanta c mid + 1) * due c.priority) := by
  induction mid generalizing m k with
  | nil =>
    cases hr with
    | cons hs _ =>
      have hshare := hbal.share h.stands (moves_of_step h hs).2
        (ready_iff.mp (hb _ List.mem_cons_self)) hbc
        (fun hst => ready_iff.mp (hc hst _ List.mem_cons_self))
      simpa [quanta, works] using hshare
  | cons x mid ih =>
    have hready := fun {n} hn => ready_of_log (n := n) hr hn
    cases hr with
    | @cons _ m₂ _ e _ hs hr =>
      obtain ⟨h₂, hm⟩ := moves_of_step h hs
      have hb₂ : ∀ y ∈ mid ++ [(m₁, .worked b)], y.1.Ready b :=
        fun y hy => hb y (List.mem_cons_of_mem _ hy)
      have hc₂ : steady → ∀ y ∈ mid ++ [(m₁, ScheduleEvent.worked b)], y.1.Ready c :=
        fun hst y hy => hc hst y (List.mem_cons_of_mem _ hy)
      have hnext := hbal.moves h.stands hm (hnone _ List.mem_cons_self) (hready hb)
        (ready_of_log hr hb₂) (fun hst => ⟨hready (hc hst), ready_of_log hr (hc₂ hst)⟩)
      have hall := ih h₂ hnext hr (fun y hy => hnone y (List.mem_cons_of_mem _ hy)) hb₂ hc₂
      rw [quanta_cons, ← Nat.add_assoc]
      exact hall

/-- The share of `c` between two quanta of `b`. -/
theorem quanta_between {m m₀ m₁ m' : Roster} {mid : Log} (h : Sound m) (hbc : c ≠ b)
    (hr : Run m ((m₀, .worked b) :: (mid ++ [(m₁, .worked b)])) m')
    (hnone : ∀ x ∈ mid, x.2 ≠ .worked b)
    (hb : ∀ x ∈ mid ++ [(m₁, .worked b)], x.1.Ready b) :
    quanta c mid ≤ due b.priority ⌈/⌉ due c.priority ∧
      ((∀ x ∈ mid ++ [(m₁, ScheduleEvent.worked b)], x.1.Ready c) →
        due b.priority / due c.priority ≤ quanta c mid) := by
  cases hr with
  | @cons _ m₂ _ _ _ hs hr =>
    obtain ⟨h₂, hm⟩ := moves_of_step h hs
    have hpos : 0 < due c.priority := Rota.one_le_due _
    have hbal : Balance b c (∀ x ∈ mid ++ [(m₁, ScheduleEvent.worked b)], x.1.Ready c) 0
        m₂.standing :=
      balance_of_worked h.stands hm (ready_of_log hr hb) hbc (ready_of_log hr)
    obtain ⟨hatMost, hatLeast⟩ := share_of_run h₂ hbal hbc hr hnone hb id
    rw [Nat.zero_add] at hatMost hatLeast
    refine ⟨?_, fun hst => ?_⟩
    · rw [Nat.ceilDiv_eq_add_pred_div, Nat.le_div_iff_mul_le hpos]
      omega
    · have hlt := (Nat.div_lt_iff_lt_mul hpos).mpr (hatLeast hst)
      omega

/-! ## Taking turns -/

/-- A tick works on a task that is ready. -/
theorem ready_of_worked {m m' : Roster} {n : TaskName} (h : Sound m) (hs : Step m (.worked n) m') :
    m.enrolAll.Ready n ∧ m'.next = m.enrolAll.next := by
  obtain ⟨hall, -⟩ := joins_enrolAll h
  have hready : ∀ {i r}, m.enrolAll.sch.rota.choose = some (i, r) →
      m.enrolAll.names[i]? = some n → m.enrolAll.Ready n := by
    intro i r hc hn
    obtain ⟨s, rest, hp, hr, -⟩ := circle_of_work hall hc hn
    exact ready_iff.mpr ((readyOn_passes hp).mp ⟨s, List.mem_cons_self, hr⟩)
  cases hs with
  | ran _ hc hn => exact ⟨hready hc hn, rfl⟩
  | finished _ hc hn => exact ⟨hready hc hn, rfl⟩

theorem not_ready_of_idle {m m' : Roster} {n : TaskName} (h : Sound m) (hs : Step m .idle m') :
    ¬ m.enrolAll.Ready n := by
  rintro ⟨s, hmem, hr⟩
  cases hs with
  | idle htick =>
    have hnot := (enrolled_of_idle h htick).2 s (List.of_mem_zip hmem).2
    simp [hr] at hnot

/-- While some tasks are ready, every tick works on one of them. -/
theorem works_of_run {S : Finset TaskName} (hS : S.Nonempty) {m m' : Roster} {log : Log}
    (h : Sound m) (hr : Run m log m') (hset : ∀ x ∈ log, ∀ n, x.1.enrolAll.Ready n ↔ n ∈ S) :
    (∀ n ∈ works log, n ∈ S) ∧ (works log).length = ticks log := by
  induction hr with
  | nil => exact ⟨by simp [works], rfl⟩
  | @cons m m₁ m' e log hs hr ih =>
    obtain ⟨h₁, -⟩ := moves_of_step h hs
    obtain ⟨hmem, hlen⟩ := ih h₁ fun x hx => hset x (List.mem_cons_of_mem _ hx)
    cases e with
    | change => exact ⟨by simpa [works, ScheduleEvent.task?] using hmem,
        by simpa [works, ticks, ScheduleEvent.task?] using hlen⟩
    | idle =>
      obtain ⟨n, hn⟩ := hS
      exact absurd ((hset _ List.mem_cons_self n).mpr hn) (not_ready_of_idle h hs)
    | worked n =>
      have hn := (hset _ List.mem_cons_self n).mp (ready_of_worked h hs).1
      refine ⟨?_, ?_⟩
      · intro n' hn'
        simp only [works, ScheduleEvent.task?, List.filterMap_cons, List.mem_cons] at hn'
        rcases hn' with rfl | hn'
        · exact hn
        · exact hmem n' hn'
      · simpa [works, ticks, ScheduleEvent.task?] using hlen

theorem mem_works {n : TaskName} {log : Log} : n ∈ works log ↔ ∃ x ∈ log, x.2 = .worked n := by
  unfold works
  rw [List.mem_filterMap]
  refine exists_congr fun x => and_congr_right fun _ => ?_
  cases x.2 <;> simp [ScheduleEvent.task?]

/-- If a task was worked on twice, then it was so for the first time and for the second. -/
theorem exists_consecutive {log : Log} (h : ¬ (works log).Nodup) :
    ∃ pre m₀ n mid m₁ post,
      log = pre ++ (m₀, .worked n) :: (mid ++ [(m₁, .worked n)]) ++ post ∧
        ∀ x ∈ mid, x.2 ≠ .worked n := by
  induction log with
  | nil => exact absurd List.nodup_nil h
  | cons x log ih =>
    by_cases htail : (works log).Nodup
    · obtain ⟨m₀, e⟩ := x
      cases e with
      | change => exact absurd (by simpa [works, ScheduleEvent.task?] using htail) h
      | idle => exact absurd (by simpa [works, ScheduleEvent.task?] using htail) h
      | worked n =>
        have hmem : n ∈ works log := by
          by_contra hno
          refine h ?_
          have hcons : works ((m₀, .worked n) :: log) = n :: works log := rfl
          rw [hcons]
          exact List.nodup_cons.mpr ⟨hno, htail⟩
        obtain ⟨y, hy, hworked⟩ := mem_works.mp hmem
        have hfind : ScheduleEvent.worked n ∈ log.map Prod.snd := hworked ▸ List.mem_map_of_mem hy
        obtain ⟨as, bs, hsplit, hfirst⟩ := List.eq_append_cons_of_mem hfind
        obtain ⟨mid, rest, rfl, rfl, hrest⟩ := List.map_eq_append_iff.mp hsplit
        obtain ⟨⟨m₁, e⟩, post, rfl, he, rfl⟩ := List.map_eq_cons_iff.mp hrest
        obtain rfl : e = .worked n := he
        refine ⟨[], m₀, n, mid, m₁, post, by simp, fun x hx heq => ?_⟩
        exact hfirst (heq ▸ List.mem_map_of_mem hx)
    · obtain ⟨pre, m₀, n, mid, m₁, post, rfl, hfirst⟩ := ih htail
      exact ⟨x :: pre, m₀, n, mid, m₁, post, rfl, hfirst⟩

/-- Who was known before others joined is ready afterwards only if it was so before. -/
theorem ready_of_enrolAll {m : Roster} {n : TaskName} (h : Sound m) (hn : n.serial < m.next)
    (hr : m.enrolAll.Ready n) : m.Ready n :=
  ready_iff.mpr ((readyOn_joins (joins_enrolAll h).2 hn).mp (ready_iff.mp hr))

/-- Between two quanta of one task there is one for each of the others. -/
theorem works_nodup {S : Finset TaskName} {p : Int32} {m m' : Roster} {log : Log} (h : Sound m)
    (hr : Run m log m') (hpriority : ∀ n ∈ S, n.priority = p)
    (hset : ∀ x ∈ log, ∀ n, x.1.enrolAll.Ready n ↔ n ∈ S) (hticks : ticks log = S.card) :
    (works log).Nodup := by
  by_contra hdup
  obtain ⟨pre, m₀, s, mid, m₁, post, rfl, hfirst⟩ := exists_consecutive hdup
  obtain ⟨m₂, hpre, hrest⟩ := Run.of_append (List.append_assoc pre _ post ▸ hr)
  obtain ⟨m₃, hwindow, -⟩ := Run.of_append hrest
  have h₂ := sound_of_run h hpre
  obtain rfl : m₀ = m₂ := hwindow.head_eq
  have hin : ∀ x ∈ (m₀, ScheduleEvent.worked s) :: (mid ++ [(m₁, .worked s)]),
      x ∈ pre ++ (m₀, ScheduleEvent.worked s) :: (mid ++ [(m₁, .worked s)]) ++ post :=
    fun x hx => List.mem_append_left _ (List.mem_append_right _ hx)
  -- The tasks in question are known from the first of the two quanta on.
  have hready : ∀ n ∈ S, ∀ x ∈ mid ++ [(m₁, ScheduleEvent.worked s)], x.1.Ready n := by
    intro n hn x hx
    have hnow := (hset _ (hin _ List.mem_cons_self) n).mpr hn
    obtain ⟨s₀, hs₀, -⟩ := ready_iff.mp hnow
    have hserial := ((joins_enrolAll h₂).1.stands.fits _ hs₀).1
    cases hwindow with
    | @cons _ m₄ _ _ _ hstep hrun =>
      obtain ⟨hsound, hle⟩ := sound_of_mem_log (moves_of_step h₂ hstep).1 hrun hx
      have hnext := (ready_of_worked h₂ hstep).2
      refine ready_of_enrolAll hsound ?_
        ((hset _ (hin _ (List.mem_cons_of_mem _ hx)) n).mpr hn)
      rw [hnext] at hle
      exact Nat.lt_of_lt_of_le hserial hle
  have hs : s ∈ S := by
    cases hwindow with
    | cons hstep _ => exact (hset _ (hin _ List.mem_cons_self) s).mp (ready_of_worked h₂ hstep).1
  have hothers : S.erase s ⊆ (works mid).toFinset := by
    intro n hn
    obtain ⟨hne, hn⟩ := Finset.mem_erase.mp hn
    have hshare := (quanta_between h₂ hne hwindow hfirst (hready s hs)).2 (hready n hn)
    rw [hpriority n hn, hpriority s hs, Nat.div_self (Rota.one_le_due p)] at hshare
    exact List.mem_toFinset.mpr (List.count_pos_iff.mp hshare)
  have hcard := (Finset.card_le_card hothers).trans (List.toFinset_card_le _)
  have hlen := (works_of_run ⟨s, hs⟩ h hr hset).2
  rw [Finset.card_erase_of_mem hs] at hcard
  rw [hticks] at hlen
  simp only [works, List.filterMap_append, List.filterMap_cons, ScheduleEvent.task?,
    List.length_append, List.length_cons, List.filterMap_nil, List.length_nil] at hlen hcard
  omega

/-- **Proportional fairness.**  Between two consecutive quanta of a task `b` that stays ready,
another task gets at most its proportional share of quanta, rounded up; and at least that
share, rounded down, if it is ready all the time.  In particular, if the set of ready tasks
does not change and they have one priority, then in as many ticks as there are of them each
is worked on once. -/
theorem proportional_fairness {m m' : Roster} {log : Log} (hm : Reachable m)
    (hr : Run m log m') :
    (∀ pre m₀ b mid m₁ post,
      log = pre ++ (m₀, .worked b) :: (mid ++ [(m₁, .worked b)]) ++ post →
      (∀ x ∈ mid, x.2 ≠ .worked b) →
      (∀ x ∈ mid ++ [(m₁, ScheduleEvent.worked b)], x.1.Ready b) →
      ∀ c, c ≠ b →
        quanta c mid ≤ due b.priority ⌈/⌉ due c.priority ∧
          ((∀ x ∈ mid ++ [(m₁, ScheduleEvent.worked b)], x.1.Ready c) →
            due b.priority / due c.priority ≤ quanta c mid)) ∧
      ∀ (S : Finset TaskName) (p : Int32), (∀ n ∈ S, n.priority = p) →
        (∀ x ∈ log, ∀ n, x.1.enrolAll.Ready n ↔ n ∈ S) → ticks log = S.card →
        ∀ n ∈ S, quanta n log = 1 := by
  refine ⟨?_, fun S p hpriority hset hticks n hn => ?_⟩
  · rintro pre m₀ b mid m₁ post rfl hfirst hb c hbc
    obtain ⟨m₂, hpre, hrest⟩ := Run.of_append (List.append_assoc pre _ post ▸ hr)
    obtain ⟨m₃, hwindow, -⟩ := Run.of_append hrest
    exact quanta_between (sound_of_run hm.sound hpre) hbc hwindow hfirst hb
  · have hnodup := works_nodup hm.sound hr hpriority hset hticks
    obtain ⟨hmem, hlen⟩ := works_of_run ⟨n, hn⟩ hm.sound hr hset
    -- As many different tasks as there are in the set, and all of them from it.
    have hall : (works log).toFinset = S := by
      refine Finset.eq_of_subset_of_card_le (fun x hx => hmem x (List.mem_toFinset.mp hx)) ?_
      rw [List.toFinset_card_of_nodup hnodup, hlen, hticks]
    refine List.count_eq_one_of_mem hnodup (List.mem_toFinset.mp ?_)
    rw [hall]
    exact hn

/-- A task that does nothing for a few steps. -/
def pause : Task := .machine (.load { code := #[0, 0, 0, 0], data := #[], entry := 0 } 1)

/-- Two such tasks of equal priority, with one step a tick. -/
def twoPauses : Roster :=
  { sch := (((Scheduler.new { quantum := 1 }).spawn pause 0).2.spawn pause 0).2
    names := [⟨0, Rota.idlePriority⟩, ⟨1, 0⟩, ⟨2, 0⟩]
    next := 3 }

/-- The roster after a tick without hooks, if the task that is chosen goes on. -/
def ticked (m : Roster) : Roster :=
  match Scheduler.tick 0 ({} : Hooks Unit) m.sch () {} with
  | some (((_, sch), _), _) => { m.enrolAll with sch }
  | none => m

theorem proportional_fairness_of_pauses :
    (quanta ⟨2, 0⟩ [(ticked twoPauses, .worked ⟨2, 0⟩)] ≤ due 0 ⌈/⌉ due 0 ∧
      due 0 / due 0 ≤ quanta ⟨2, 0⟩ [(ticked twoPauses, .worked ⟨2, 0⟩)]) ∧
      ∀ n ∈ ({⟨1, 0⟩, ⟨2, 0⟩} : Finset TaskName),
        quanta n [(twoPauses, .worked ⟨1, 0⟩), (ticked twoPauses, .worked ⟨2, 0⟩)] = 1 := by
  have hreach : Reachable twoPauses :=
    ⟨{ quantum := 1 }, [(_, .change), (_, .change)],
      .cons (.spawn _ pause 0) (.cons (.spawn _ pause 0) (.nil _))⟩
  have htick₁ : Scheduler.tick 0 ({} : Hooks Unit) twoPauses.sch () {} =
      some (((.ran 1, (ticked twoPauses).sch), ()), {}) := rfl
  have htick₂ : Scheduler.tick 0 ({} : Hooks Unit) (ticked twoPauses).sch () {} =
      some (((.ran 2, (ticked (ticked twoPauses)).sch), ()), {}) := rfl
  have htick₃ : Scheduler.tick 0 ({} : Hooks Unit) (ticked (ticked twoPauses)).sch () {} =
      some (((.ran 1, (ticked (ticked (ticked twoPauses))).sch), ()), {}) := rfl
  have hstep₁ : Step twoPauses (.worked ⟨1, 0⟩) (ticked twoPauses) :=
    .ran (i := 1) htick₁ rfl rfl
  have hstep₂ : Step (ticked twoPauses) (.worked ⟨2, 0⟩) (ticked (ticked twoPauses)) :=
    .ran (i := 2) htick₂ rfl rfl
  have hstep₃ : Step (ticked (ticked twoPauses)) (.worked ⟨1, 0⟩)
      (ticked (ticked (ticked twoPauses))) :=
    .ran (i := 1) htick₃ rfl rfl
  have hready : ∀ m ∈ [twoPauses, ticked twoPauses, ticked (ticked twoPauses)], ∀ n,
      (m.Ready n ↔ n ∈ ({⟨1, 0⟩, ⟨2, 0⟩} : Finset TaskName)) ∧
        (m.enrolAll.Ready n ↔ n ∈ ({⟨1, 0⟩, ⟨2, 0⟩} : Finset TaskName)) := by
    intro m hm n
    have hnames : m.readyNames = [⟨1, 0⟩, ⟨2, 0⟩] ∧ m.enrolAll.readyNames = [⟨1, 0⟩, ⟨2, 0⟩] := by
      simp only [List.mem_cons, List.not_mem_nil, or_false] at hm
      rcases hm with rfl | rfl | rfl <;> exact ⟨rfl, rfl⟩
    rw [← mem_readyNames, ← mem_readyNames, hnames.1, hnames.2]
    simp
  constructor
  · refine (proportional_fairness hreach (.cons hstep₁ (.cons hstep₂ (.cons hstep₃ (.nil _))))).1
      [] twoPauses ⟨1, 0⟩ [(ticked twoPauses, .worked ⟨2, 0⟩)] (ticked (ticked twoPauses)) []
      rfl ?_ ?_ ⟨2, 0⟩ (by decide) |>.imp_right fun h => h ?_
    · simp
    · simp [hready]
    · simp [hready]
  · refine (proportional_fairness hreach (.cons hstep₁ (.cons hstep₂ (.nil _)))).2
      {⟨1, 0⟩, ⟨2, 0⟩} 0 ?_ ?_ rfl
    · simp
    · intro x hx n
      simp only [List.mem_cons, List.not_mem_nil, or_false] at hx
      rcases hx with rfl | rfl
      · exact (hready _ (by simp) n).2
      · exact (hready _ (by simp) n).2

end Roster

end LispEngines
