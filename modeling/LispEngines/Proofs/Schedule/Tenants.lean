import LispEngines.Proofs.Engines.Upkeep
import LispEngines.Proofs.Schedule.Apart

/-!
# Tasks that share a store

A task that has a store for itself can move into a store where others live: what it refers to
gets new addresses there, and nothing that was there changes.  The evaluator and its constants
are loaded once, so the lists at the beginning of the store may be common to several tasks.  The
evaluator leaves them alone as long as it can count what its lists hold, and so a quantum must not
have left a list too long for that.

* `Solo`, `Solo.Begins`: a task with a store of its own, and how such tasks begin.
* `Solo.MovesIn`: the task moves into a store.
* `Tenant`, `Tenant.Lives`: a task in a shared store is what it would be alone, renamed.
* `Household`: no two tasks in a store have anything in common but the lists at its beginning.
* `Household.work`: while one of them is worked on, all others stay what they are.
-/

namespace LispEngines

/-! ## Tasks with a store of their own -/

/-- A task with a store of its own.  The first lists of the store are constants of programs, and
may be common to several tasks. -/
structure Solo where
  store : Store
  task : Task
  shared : Nat

/-- How tasks begin: an expression is evaluated by one of the three engines, or a machine is
started on a program of its own, which shares nothing. -/
inductive Solo.Begins : Solo → Prop
  | idle : Begins ⟨{}, .idle, 0⟩
  | classic {st : Store} {x : Value} {s : ScopeRef} {limit shared : Nat} (ht : st.Tidy false)
      (hx : x.Within false st) (hs : s.index < st.scopes.size) :
      Begins ⟨st, .classic x s limit 0 none, shared⟩
  | frame {st : Store} {x : Value} {s : ScopeRef} {shared : Nat} (ht : st.Tidy false)
      (hx : x.Within false st) (hs : s.index < st.scopes.size) :
      Begins ⟨st, .frame (.start x s), shared⟩
  | evaluator {st : Store} {p : Program} {size shared : Nat} {x : Value} {s : ScopeRef}
      {m : Machine} (h : Machine.Evaluator.Started p size x s st m) :
      Begins ⟨st, .machine m, shared⟩
  | machine {st st' : Store} {p : Program} {args : List Value} {size : Nat} {m : Machine}
      (hp : ∀ v ∈ p.data, v.Within false st) (ha : ∀ v ∈ args, v.Within false st)
      (hm : Machine.start p args size st = (.ok m, st')) : Begins ⟨st', .machine m, 0⟩

namespace Solo.Begins

variable {o : Solo} {q k fuel : Nat} {t t' : Task} {st st' : Store} {r : Except Failure Unit}

/-- The evaluator is a machine that has been started. -/
theorem within_evaluator {p : Program} {size : Nat} {x : Value} {s : ScopeRef} {m : Machine}
    (h : Machine.Evaluator.Started p size x s st m) : m.Within st ∧ m.finished = false := by
  have hp := h.serves.data_within
  have ha : ∀ v ∈ [x, .scope s], v.Within false st := by
    intro v hv
    simp only [List.mem_cons, List.not_mem_nil, or_false] at hv
    rcases hv with rfl | rfl
    · exact h.within.below.within
    · exact Value.within_scope h.scope_lt
  obtain ⟨hm, hf, -⟩ := Machine.within_start hp ha h.loaded
  exact ⟨hm, hf⟩

/-- What is known of a task that begins. -/
theorem facts (h : o.Begins) :
    o.task.Within o.store ∧ o.task.Rests o.store ∧ o.task.value? = none := by
  cases h with
  | idle => exact ⟨trivial, trivial, rfl⟩
  | classic ht hx hs => exact ⟨⟨hx, hs, nofun⟩, trivial, rfl⟩
  | frame ht hx hs =>
    have hm := FrameStack.sound_start ht hx hs
    exact ⟨hm.within, ⟨hm, .enter rfl rfl rfl⟩, rfl⟩
  | evaluator h =>
    obtain ⟨hm, hf⟩ := within_evaluator h
    exact ⟨hm, trivial, by rw [Task.value?, hf]; rfl⟩
  | machine hp ha hm =>
    obtain ⟨hm, hf, rfl⟩ := Machine.within_start hp ha hm
    exact ⟨hm, trivial, by rw [Task.value?, hf]; rfl⟩

/-- A quantum leaves the shared lists alone. -/
theorem items_eq (h : o.Begins) (hl : o.shared ≤ o.store.lists.size)
    (hw : Task.Worked q o.task o.store k t st) (hwork : Task.work fuel q t st = some ((r, t'), st'))
    (hfit : st'.Fits) (hkeeps : t.isMachine = false → st.KeepsLists st') {c : ListRef}
    (hc : c.index < o.shared) (hc' : c.index < st.lists.size) : st'.items c = st.items c := by
  have hkeep (hm : o.task.isMachine = false) : st'.items c = st.items c :=
    (hkeeps ((Task.isMachine_of_worked hw).trans hm)).items_eq c hc'
  cases h with
  | idle | machine => exact absurd hc (Nat.not_lt_zero _)
  | classic | frame => exact hkeep rfl
  | @evaluator base _ _ _ _ _ m h =>
    obtain ⟨-, hf⟩ := within_evaluator h
    obtain ⟨m₁, rfl, -, hadv⟩ := Task.worked_machine hf hw
    have hg := Machine.goes_of_advances hadv
    have hbefore : Machine.storeAfter (k * q) m base = st := hg.storeAfter 0
    have hnow : Machine.storeAfter (k * q + q) m base = st' := by
      rw [hg.storeAfter]
      cases hwork
      rfl
    have hkept {n : Nat} (hn : (Machine.storeAfter n m base).Fits) :
        (Machine.storeAfter n m base).items c = base.items c :=
      (h.kept hn).2.lists.items_eq c (Nat.lt_of_lt_of_le hc hl)
    rw [← hnow] at hfit ⊢
    rw [hkept hfit, ← hkept (hbefore ▸ hg.fits (Nat.le_add_right ..) hfit), hbefore]

end Solo.Begins

/-- A task moves into a store: it is renamed, and what it refers to is new there, but for the
lists at the beginning, which it shares with others.  What was there before has not changed. -/
structure Solo.MovesIn (base : Store) (o : Solo) (st : Store) (ρ : Renaming) (st' : Store) :
    Prop where
  begins : o.Begins
  paired : Paired .apart ρ o.store st'
  shared_le : o.shared ≤ base.lists.size
  shared_le_lists : o.shared ≤ o.store.lists.size
  lists_le : st.lists.size ≤ st'.lists.size
  scopes_le : st.scopes.size ≤ st'.scopes.size
  items_eq : ∀ r : ListRef, r.index < st.lists.size → st'.items r = st.items r
  scopes_eq : ∀ s : ScopeRef, s.index < st.scopes.size → st'.scopeAt s = st.scopeAt s
  home : ∀ r : ListRef, r.index < o.shared → ρ.list r = r
  list_new : ∀ r : ListRef, o.shared ≤ r.index → r.index < o.store.lists.size →
    st.lists.size ≤ (ρ.list r).index
  scope_new : ∀ s : ScopeRef, s.index < o.store.scopes.size → st.scopes.size ≤ (ρ.scope s).index

theorem Solo.MovesIn.keepsLists {base st st' : Store} {o : Solo} {ρ : Renaming}
    (hm : o.MovesIn base st ρ st') : st.KeepsLists st' :=
  ⟨hm.lists_le, hm.items_eq⟩

/-- Who lives in the store does not notice. -/
theorem Solo.MovesIn.undisturbed {base st st' own : Store} {o : Solo} {ρ ρ' : Renaming}
    (hm : o.MovesIn base st ρ st') (h : Paired .apart ρ' own st) : Paired .apart ρ' own st' :=
  h.of_right hm.lists_le hm.scopes_le (fun c hc => hm.items_eq _ (h.list_lt c hc))
    (fun s hs => hm.scopes_eq _ (h.scope_lt s hs)) ⟨h.sink.1, hm.paired.sink.2⟩

/-! ## Tasks in a shared store -/

/-- A task in a shared store: what it was when it began, what has become of it in a store of its
own after some quanta, and how it is renamed in the shared store. -/
structure Tenant where
  origin : Solo
  quanta : Nat
  own : Store
  task : Task
  addr : Renaming

namespace Tenant

/-- The task as it is in the shared store, and the number of its quanta. -/
def load (g : Tenant) : Task × Nat := (g.task.rename g.addr, g.quanta)

/-- In the shared store the task is what it would be alone.  Beside the lists that it shares it
has nothing of what was there in the beginning. -/
structure Lives (q : Nat) (base st : Store) (g : Tenant) : Prop where
  begins : g.origin.Begins
  worked : Task.Worked q g.origin.task g.origin.store g.quanta g.task g.own
  paired : Paired .apart g.addr g.own st
  within : g.task.Within g.own
  rests : g.task.Rests g.own
  shared_le : g.origin.shared ≤ base.lists.size
  shared_le_origin : g.origin.shared ≤ g.origin.store.lists.size
  shared_le_own : g.origin.shared ≤ g.own.lists.size
  home : ∀ r : ListRef, r.index < g.origin.shared → g.addr.list r = r
  away : ∀ r : ListRef, g.origin.shared ≤ r.index → r.index < g.own.lists.size →
    base.lists.size ≤ (g.addr.list r).index
  scope_away : ∀ s : ScopeRef, s.index < g.own.scopes.size →
    base.scopes.size ≤ (g.addr.scope s).index

/-- Two tasks have nothing in common but shared lists. -/
structure Apart (g g' : Tenant) : Prop where
  lists : ∀ r r' : ListRef, g.origin.shared ≤ r.index → r.index < g.own.lists.size →
    g'.origin.shared ≤ r'.index → r'.index < g'.own.lists.size →
    g.addr.list r ≠ g'.addr.list r'
  scopes : ∀ s s' : ScopeRef, s.index < g.own.scopes.size → s'.index < g'.own.scopes.size →
    g.addr.scope s ≠ g'.addr.scope s'

variable {g g' : Tenant} {q fuel : Nat} {base st st' : Store} {r : Except Failure Unit} {t' : Task}

theorem Apart.symm (h : Apart g g') : Apart g' g where
  lists r r' hr hl hr' hl' he := h.lists r' r hr' hl' hr hl he.symm
  scopes s s' hs hs' he := h.scopes s' s hs' hs he.symm

/-- What a quantum of a tenant is: a quantum of the task alone, renamed.  It changes nothing in the
shared store but what the tenant refers to and does not share. -/
structure Works (q : Nat) (base : Store) (fuel : Nat) (g : Tenant) (st : Store)
    (r : Except Failure Unit) (t' : Task)
    (st' : Store) (g' : Tenant) : Prop where
  origin : g'.origin = g.origin
  quanta : g'.quanta = g.quanta + 1
  alone : Task.work fuel q g.task g.own = some ((r, g'.task), g'.own)
  renamed : t' = g'.task.rename g'.addr
  paired : Paired .apart g'.addr g'.own st'
  moves : Moves g.addr g.own st g'.addr g'.own st'
  within : g'.task.Within g'.own
  base_eq : ∀ c : ListRef, c.index < base.lists.size → st'.items c = st.items c

/-- In a shared store, a quantum of a tenant is a quantum of the task alone. -/
theorem Lives.works (h : g.Lives q base st) (hbase : Paired .apart .id base st)
    (hw : Task.work fuel q (g.task.rename g.addr) st = some ((r, t'), st')) (hfit : st'.Fits) :
    ∃ g' : Tenant, g.Works q base fuel st r t' st' g' := by
  have hf := Task.follows_work h.paired h.within h.rests fuel q
  rw [hw] at hf
  generalize hout : Task.work fuel q g.task g.own = out at hf
  -- the shared lists stay as they are, and so does what else was there
  have hkept {ρ : Renaming} {own : Store} {u : Except Failure Unit} {t : Task}
      (hwork : Task.work fuel q g.task g.own = some ((u, t), own)) (hp : Paired .apart ρ own st')
      (hx : g.task.Leaves g.addr g.own st ρ own st') (c : ListRef)
      (hc : c.index < base.lists.size) :
      st'.items c = st.items c := by
    by_cases hs : c.index < g.origin.shared
    · have hown := Nat.lt_of_lt_of_le hs h.shared_le_own
      have hsame :=
        h.begins.items_eq h.shared_le_origin h.worked hwork (hp.fits hfit) hx.keeps hs hown
      have hnow := hp.items c (Nat.lt_of_lt_of_le hown hx.lists_le)
      have hbefore := h.paired.items c hown
      rw [hx.agree.list c hown, h.home c hs, hsame,
        hx.agree.map_rename fun v hv => h.paired.sealed.items c v hv] at hnow
      rw [h.home c hs] at hbefore
      exact hnow.trans hbefore.symm
    · refine hx.items_eq c (hbase.list_lt c hc) fun r hr he => ?_
      by_cases hr' : r.index < g.origin.shared
      · exact hs ((h.home r hr').symm.trans he ▸ hr')
      · have haway := h.away r (Nat.le_of_not_lt hr') hr
        rw [he] at haway
        exact Nat.not_lt_of_le haway hc
  cases hf with
  | some hf =>
    cases hf with
    | @ok ρ own _ t _ _ _ hp hx ht _ =>
      obtain ⟨ht, rfl⟩ := ht
      exact ⟨⟨g.origin, g.quanta + 1, own, t, ρ⟩, rfl, rfl, hout, rfl, hp, hx.toMoves, ht,
        hkept hout hp hx⟩
    | @error ρ own _ t _ e hp hx ht =>
      obtain ⟨ht, rfl⟩ := ht
      exact ⟨⟨g.origin, g.quanta + 1, own, t, ρ⟩, rfl, rfl, hout, rfl, hp, hx.toMoves, ht,
        hkept hout hp hx⟩

namespace Works

variable {g₁ : Tenant}

/-- What is new for the tenant is new in the shared store. -/
theorem list_new (h : g.Works q base fuel st r t' st' g₁) {c : ListRef}
    (hc : g.own.lists.size ≤ c.index) (hc' : c.index < g₁.own.lists.size) :
    st.lists.size ≤ (g₁.addr.list c).index := by
  rcases h.moves.list_fresh c hc hc' with hnew | ⟨d, hd, he⟩
  · exact hnew
  · rw [← h.moves.agree.list d hd] at he
    have hd' := Nat.lt_of_lt_of_le hd h.moves.lists_le
    obtain rfl := (h.paired.list_inj c d hc' hd' he).resolve_right nofun
    exact absurd hd (Nat.not_lt_of_le hc)

/-- The task that was worked on goes on living where it lives. -/
theorem lives (h : g.Works q base fuel st r t' st' g₁) (hg : g.Lives q base st)
    (hbase : Paired .apart .id base st) (ho : Scheduler.outcome? t' r = none) :
    g₁.Lives q base st' := by
  have hgoes : Scheduler.outcome? g₁.task r = none := by
    rw [h.renamed, Task.outcome?_rename] at ho
    exact Option.map_eq_none_iff.mp ho
  have hagree := h.moves.agree
  exact
    { begins := h.origin ▸ hg.begins
      worked := by
        rw [h.origin, h.quanta]
        exact .quantum hg.worked h.alone hgoes
      paired := h.paired
      within := h.within
      rests := Task.rests_of_work hg.rests h.alone hgoes
      shared_le := h.origin ▸ hg.shared_le
      shared_le_origin := h.origin ▸ hg.shared_le_origin
      shared_le_own := h.origin ▸ Nat.le_trans hg.shared_le_own h.moves.lists_le
      home := fun c hc => by
        rw [h.origin] at hc
        rw [hagree.list c (Nat.lt_of_lt_of_le hc hg.shared_le_own)]
        exact hg.home c hc
      away := fun c hc hc' => by
        rw [h.origin] at hc
        by_cases hl : c.index < g.own.lists.size
        · rw [hagree.list c hl]
          exact hg.away c hc hl
        · exact Nat.le_trans hbase.lists_le (h.list_new (Nat.le_of_not_lt hl) hc')
      scope_away := fun s hs => by
        by_cases hl : s.index < g.own.scopes.size
        · rw [hagree.scope s hl]
          exact hg.scope_away s hl
        · exact Nat.le_trans hbase.scopes_le (h.moves.scope_fresh s (Nat.le_of_not_lt hl) hs) }

/-- What was there in the beginning is as it was. -/
theorem keeps_base (h : g.Works q base fuel st r t' st' g₁) (hg : g.Lives q base st)
    (hbase : Paired .apart .id base st) : Paired .apart .id base st' := by
  refine hbase.of_right h.moves.lists_le' h.moves.scopes_le' (fun c hc => h.base_eq c hc)
    (fun s hs => h.moves.scopes_eq s (hbase.scope_lt s hs) fun t ht he => ?_)
    ⟨hbase.sink.1, h.paired.sink.2⟩
  have haway := hg.scope_away t ht
  rw [he] at haway
  exact Nat.not_lt_of_le haway hs

/-- It has nothing in common with the others, -/
theorem apart (h : g.Works q base fuel st r t' st' g₁) (hg' : g'.Lives q base st)
    (ha : g.Apart g') : g₁.Apart g' where
  lists c d hc hc' hd hd' he := by
    rw [h.origin] at hc
    by_cases hl : c.index < g.own.lists.size
    · rw [h.moves.agree.list c hl] at he
      exact ha.lists c d hc hl hd hd' he
    · have hnew := h.list_new (Nat.le_of_not_lt hl) hc'
      rw [he] at hnew
      exact Nat.not_lt_of_le hnew (hg'.paired.list_lt d hd')
  scopes s t hs ht he := by
    by_cases hl : s.index < g.own.scopes.size
    · rw [h.moves.agree.scope s hl] at he
      exact ha.scopes s t hl ht he
    · have hnew := h.moves.scope_fresh s (Nat.le_of_not_lt hl) hs
      rw [he] at hnew
      exact Nat.not_lt_of_le hnew (hg'.paired.scope_lt t ht)

/-- and the others do not notice. -/
theorem undisturbed (h : g.Works q base fuel st r t' st' g₁) (hg : g.Lives q base st)
    (hg' : g'.Lives q base st) (ha : g.Apart g') : g'.Lives q base st' := by
  suffices hp : Paired .apart g'.addr g'.own st' from { hg' with paired := hp }
  refine hg'.paired.of_right h.moves.lists_le' h.moves.scopes_le' (fun c hc => ?_)
    (fun s hs => ?_) ⟨hg'.paired.sink.1, h.paired.sink.2⟩
  · by_cases hs : c.index < g'.origin.shared
    · rw [hg'.home c hs]
      exact h.base_eq c (Nat.lt_of_lt_of_le hs hg'.shared_le)
    · refine h.moves.items_eq _ (hg'.paired.list_lt c hc) fun d hd he => ?_
      have haway := hg'.away c (Nat.le_of_not_lt hs) hc
      by_cases hd' : d.index < g.origin.shared
      · rw [← he, hg.home d hd'] at haway
        exact Nat.not_lt_of_le haway (Nat.lt_of_lt_of_le hd' hg.shared_le)
      · exact ha.lists d c (Nat.le_of_not_lt hd') hd (Nat.le_of_not_lt hs) hc he
  · exact h.moves.scopes_eq _ (hg'.paired.scope_lt s hs) fun t ht he => ha.scopes t s ht hs he

end Works

end Tenant

/-! ## All tasks of a store -/

/-- The tasks that live in a store.  Each has a part of it for itself. -/
structure Household (q : Nat) (base st : Store) (gs : List Tenant) : Prop where
  kept : Paired .apart .id base st
  lives : ∀ g ∈ gs, g.Lives q base st
  apart : gs.Pairwise Tenant.Apart

/-- A task that has moved in. -/
def Solo.tenant (o : Solo) (ρ : Renaming) : Tenant := ⟨o, 0, o.store, o.task, ρ⟩

namespace Household

variable {q fuel : Nat} {base st st' : Store} {g g₁ : Tenant} {gs gs' : List Tenant}
  {r : Except Failure Unit} {t' : Task}

theorem perm (h : Household q base st gs) (hp : gs.Perm gs') : Household q base st gs' where
  kept := h.kept
  lives g hg := h.lives g (hp.mem_iff.mpr hg)
  apart := (hp.pairwise_iff Tenant.Apart.symm).mp h.apart

/-- Somebody leaves. -/
theorem leave (h : Household q base st (g :: gs)) : Household q base st gs where
  kept := h.kept
  lives g hg := h.lives g (List.mem_cons_of_mem _ hg)
  apart := h.apart.of_cons

/-- Somebody moves in. -/
theorem join {o : Solo} {ρ : Renaming} (h : Household q base st gs)
    (hm : o.MovesIn base st ρ st') : Household q base st' (o.tenant ρ :: gs) := by
  have hnew : (o.tenant ρ).Lives q base st' := by
    obtain ⟨hwithin, hrests, -⟩ := hm.begins.facts
    exact
      { begins := hm.begins
        worked := .refl
        paired := hm.paired
        within := hwithin
        rests := hrests
        shared_le := hm.shared_le
        shared_le_origin := hm.shared_le_lists
        shared_le_own := hm.shared_le_lists
        home := hm.home
        away := fun c hc hc' => Nat.le_trans h.kept.lists_le (hm.list_new c hc hc')
        scope_away := fun s hs => Nat.le_trans h.kept.scopes_le (hm.scope_new s hs) }
  refine ⟨hm.undisturbed h.kept, fun g hg => ?_, .cons (fun g hg => ?_) h.apart⟩
  · rcases List.mem_cons.mp hg with rfl | hg
    · exact hnew
    · have hlives := h.lives g hg
      exact { hlives with paired := hm.undisturbed hlives.paired }
  · have hlives := h.lives g hg
    refine ⟨fun c d hc hc' _ hd he => ?_, fun s t hs ht he => ?_⟩
    · have hle : st.lists.size ≤ (ρ.list c).index := hm.list_new c hc hc'
      have hlt := hlives.paired.list_lt d hd
      rw [← he] at hlt
      exact Nat.not_lt_of_le hle hlt
    · have hle : st.scopes.size ≤ (ρ.scope s).index := hm.scope_new s hs
      have hlt := hlives.paired.scope_lt t ht
      rw [← he] at hlt
      exact Nat.not_lt_of_le hle hlt

/-- **Tasks do not interfere.**  While one of them is worked on, the others live on undisturbed,
and so does this one unless the quantum ends it. -/
theorem work (h : Household q base st (g :: gs)) (hw : g.Works q base fuel st r t' st' g₁) :
    Household q base st' gs ∧
      (Scheduler.outcome? t' r = none → Household q base st' (g₁ :: gs)) := by
  have hg := h.lives g (List.mem_cons_self ..)
  have hbase := hw.keeps_base hg h.kept
  have hothers : ∀ g' ∈ gs, g'.Lives q base st' := fun g' hg' =>
    hw.undisturbed hg (h.lives g' (List.mem_cons_of_mem _ hg'))
      (List.rel_of_pairwise_cons h.apart hg')
  refine ⟨⟨hbase, hothers, h.apart.of_cons⟩, fun ho => ⟨hbase, fun g' hg' => ?_, ?_⟩⟩
  · rcases List.mem_cons.mp hg' with rfl | hg'
    · exact hw.lives hg h.kept ho
    · exact hothers g' hg'
  · refine .cons (fun g' hg' => ?_) h.apart.of_cons
    exact hw.apart (h.lives g' (List.mem_cons_of_mem _ hg')) (List.rel_of_pairwise_cons h.apart hg')

end Household

end LispEngines
