import LispEngines.Proofs.Machine.Assembled
import LispEngines.Proofs.Machine.Following
import LispEngines.Proofs.Machine.Image

/-!
# Runs of the evaluator

The machine follows each step of the course, so it follows the course as far as the course
goes.  There are three ways for it to stop: it leaves with the value that the course has come
to, it refuses what the course fails at, or its stack has no room left.

On the way the machine writes to its lists.  A list that it fills with arguments is private:
it stands for nothing, and a list to which anything in the store refers stands for something.
So the two kinds of lists never meet, however long the machine runs (`Tracks`).

The evaluator counts the elements of a list in a signed word.  So it follows the course up to the
moment when some list has become too long for that.  Lists only get longer, so what fits at one
moment has fitted all the way to it, and nothing need be known of what comes after (`Runs.upTo`).

* `Store.Lengthens`: no list gets lost or loses elements.
* `storeAfter`: the store after a number of instructions, or fewer if the machine stops.
* `Store.Mentions`: something in the store refers to a list.
* `Runs`: the machine has followed the course for some time, or has come to its end.
* `Serves`: the program is the evaluator, ready to evaluate something.
-/

namespace LispEngines

/-- A list or a scope of the store holds a value that refers to the list: the list itself, or a
procedure that it defines. -/
def Store.Mentions (st : Store) (q : ListRef) : Prop :=
  (∃ r, ∃ v ∈ st.items r, v.list? = some q) ∨
    ∃ s, ∃ b ∈ (st.scopeAt s).bindings, b.2.list? = some q

/-- The lists of the first store are lists of the second, and have as many elements or more. -/
structure Store.Lengthens (st st' : Store) : Prop where
  size_le : st.lists.size ≤ st'.lists.size
  length_le : ∀ r, (st.items r).length ≤ (st'.items r).length

namespace Store.Lengthens

variable {st st₁ st₂ : Store}

theorem refl (st : Store) : st.Lengthens st := ⟨Nat.le_refl _, fun _ => Nat.le_refl _⟩

theorem trans (h : st.Lengthens st₁) (h' : st₁.Lengthens st₂) : st.Lengthens st₂ :=
  ⟨Nat.le_trans h.size_le h'.size_le, fun r => Nat.le_trans (h.length_le r) (h'.length_le r)⟩

theorem fits (h : st.Lengthens st₁) (hfit : st₁.Fits) : st.Fits := fun r =>
  Nat.lt_of_le_of_lt (h.length_le r) (hfit r)

end Store.Lengthens

namespace Machine

/-- An instruction takes nothing out of a list. -/
theorem lengthens_step (m : Machine) (st : Store) : st.Lengthens (step m st).2 where
  size_le := (extends_step m st).size_le
  length_le r := by
    by_cases hr : r.index < st.lists.size
    · rw [(extends_step m st).items r hr, List.length_append]
      exact Nat.le_add_right ..
    · rw [Store.items_of_le (Nat.le_of_not_lt hr)]
      exact Nat.zero_le _

/-! ## The store after some instructions -/

/-- The store after a number of instructions, or fewer if the machine stops. -/
def storeAfter (n : Nat) (m : Machine) (st : Store) : Store := (runFor n m st).2

section

variable {m m₁ m₂ : Machine} {st st₁ st₂ : Store} {i k n : Nat}

@[simp] theorem storeAfter_zero (m : Machine) (st : Store) : storeAfter 0 m st = st := rfl

theorem storeAfter_finished (n : Nat) (hf : m.finished = true) (st : Store) :
    storeAfter n m st = st := by
  cases n with
  | zero => rfl
  | succ n => rw [storeAfter, runFor, Step.get_bind, if_pos hf]; rfl

theorem storeAfter_ok (n : Nat) (hf : m.finished = false)
    (hs : step m st = ((.ok (), m₁), st₁)) : storeAfter (n + 1) m st = storeAfter n m₁ st₁ := by
  rw [storeAfter, runFor, Step.get_bind, if_neg (by simp [hf]), Step.bind_ok hs]
  rfl

theorem storeAfter_error (n : Nat) (hf : m.finished = false) {e : Failure}
    (hs : step m st = ((.error e, m₁), st₁)) : storeAfter (n + 1) m st = st₁ := by
  rw [storeAfter, runFor, Step.get_bind, if_neg (by simp [hf]), Step.bind_error hs]

theorem Goes.storeAfter (h : Goes k m st m₁ st₁) (n : Nat) :
    storeAfter (k + n) m st = Machine.storeAfter n m₁ st₁ := by
  induction h with
  | refl => rw [Nat.zero_add]
  | head hf hs _ ih => rw [Nat.add_right_comm, storeAfter_ok _ hf hs, ih]

/-- A way may be cut after any number of its instructions. -/
theorem Goes.cut (h : Goes k m st m₁ st₁) (hn : n ≤ k) : ∃ m' st', Goes n m st m' st' := by
  induction n generalizing k m st with
  | zero => exact ⟨m, st, .refl⟩
  | succ n ih =>
    cases h with
    | refl => exact absurd hn (Nat.not_succ_le_zero n)
    | head hf hs h =>
      obtain ⟨m', st', h'⟩ := ih h (Nat.le_of_succ_le_succ hn)
      exact ⟨m', st', .head hf hs h'⟩

theorem Passes.storeAfter {Kept : Store → Prop} (h : Passes Kept k m st m₁ st₁) (hn : n ≤ k) :
    Kept (storeAfter n m st) := by
  obtain ⟨m', st', h'⟩ := h.goes.cut hn
  have he := h'.storeAfter 0
  rw [Nat.add_zero, storeAfter_zero] at he
  rw [he]
  exact h.kept hn h'

/-- The machine has stopped, so these are all stores that there will be. -/
theorem Passes.storeAfter_of_stop {Kept : Store → Prop} (h : Passes Kept k m st m₁ st₁)
    (hs : ∀ n, Kept (Machine.storeAfter n m₁ st₁)) (n : Nat) : Kept (Machine.storeAfter n m st) := by
  rcases Nat.le_total n k with hn | hn
  · exact h.storeAfter hn
  · obtain ⟨i, rfl⟩ := Nat.exists_eq_add_of_le hn
    rw [h.goes.storeAfter]
    exact hs i

theorem FailsIn.storeAfter {op : Opcode} {e : Failure} (h : FailsIn m st op e st₁) :
    ∀ n, Machine.storeAfter n m st = st ∨ Machine.storeAfter n m st = st₁
  | 0 => .inl rfl
  | n + 1 => by
    obtain ⟨m', hm⟩ := h.fails
    exact .inr (storeAfter_error n h.running hm)

/-- Nor do several instructions. -/
theorem lengthens_storeAfter (hn : n ≤ k) (m : Machine) (st : Store) :
    (storeAfter n m st).Lengthens (storeAfter k m st) := by
  induction k generalizing n m st with
  | zero =>
    obtain rfl := Nat.le_zero.mp hn
    exact .refl _
  | succ k ih =>
    rcases hf : m.finished with _ | _
    · have hstep := lengthens_step m st
      rcases hs : step m st with ⟨⟨e | u, m₁⟩, st₁⟩ <;> rw [hs] at hstep
      · rw [storeAfter_error k hf hs]
        cases n with
        | zero => exact hstep
        | succ n =>
          rw [storeAfter_error n hf hs]
          exact .refl _
      · rw [storeAfter_ok k hf hs]
        cases n with
        | zero => exact hstep.trans (ih (Nat.zero_le k) m₁ st₁)
        | succ n =>
          rw [storeAfter_ok n hf hs]
          exact ih (Nat.le_of_succ_le_succ hn) m₁ st₁
    · rw [storeAfter_finished _ hf, storeAfter_finished _ hf]
      exact .refl _

/-- What fits at some moment has fitted before. -/
theorem Goes.fits (h : Goes i m st m₁ st₁) (hi : i ≤ n) (hfit : (Machine.storeAfter n m st).Fits) :
    st₁.Fits := by
  have he : Machine.storeAfter i m st = st₁ := h.storeAfter 0
  exact he ▸ (lengthens_storeAfter hi m st).fits hfit

/-- Once a run has ended, its last store is the store for good. -/
theorem storeAfter_of_run {fuel : Nat} {r : Except Failure Value} {m' : Machine} {st' : Store}
    (h : run fuel m st = some ((r, m'), st')) : ∃ k, ∀ n, storeAfter (k + n) m st = st' := by
  obtain ⟨k, m₁, st₁, hg, ⟨hf, -, -, rfl⟩ | ⟨hf, e, -, hs⟩⟩ := goes_of_run fuel h
  · exact ⟨k, fun n => (hg.storeAfter n).trans (storeAfter_finished n hf _)⟩
  · refine ⟨k + 1, fun n => ?_⟩
    rw [Nat.add_right_comm, Nat.add_assoc, hg.storeAfter, storeAfter_error n hf hs]

/-- What fits at the end of a run fits at every moment. -/
theorem fits_of_run {fuel : Nat} {r : Except Failure Value} {m' : Machine} {st' : Store}
    (h : run fuel m st = some ((r, m'), st')) (hfit : st'.Fits) (n : Nat) :
    (storeAfter n m st).Fits := by
  obtain ⟨k, hk⟩ := storeAfter_of_run h
  exact (lengthens_storeAfter (Nat.le_add_left n k) m st).fits ((hk n).symm ▸ hfit)

end

namespace Evaluator

open Course (Leads)

variable {empty : ListRef} {size : Nat} {ρ ρ₁ ρ₂ : Renaming} {st st' st₁ st₂ last mid : Store}
  {c c₁ : Course} {m m₁ : Machine} {v : View} {a b k n : Nat} {q : ListRef}

/-! ## Lists that are filled, and lists that are referred to -/

/-- What is referred to stands for something. -/
theorem Twins.mentioned (h : Twins empty ρ st st') (hq : st'.Mentions q) :
    ∃ r : ListRef, r.index < st.lists.size ∧ ρ.list r = q := by
  have hv {w : Value} (hw : ∃ v : Value, v.Within true st ∧ w = v.rename ρ)
      (hl : w.list? = some q) : ∃ r : ListRef, r.index < st.lists.size ∧ ρ.list r = q := by
    obtain ⟨v, hv, rfl⟩ := hw
    rw [Value.list?_rename] at hl
    obtain ⟨r, hr, he⟩ := Option.map_eq_some_iff.mp hl
    exact ⟨r, hv.below.list r hr, he⟩
  rcases hq with ⟨r, w, hw, hl⟩ | ⟨s, b, hb, hl⟩
  · exact hv (h.covered.items r w hw) hl
  · exact hv (h.covered.bindings s b hb) hl

/-- What stands for something still does. -/
theorem Pursues.standing {st₁' : Store} (h : Pursues empty ρ st st' ρ₁ st₁ st₁') {r : ListRef}
    (hr : r.index < st.lists.size) : r.index < st₁.lists.size ∧ ρ₁.list r = ρ.list r :=
  ⟨Nat.lt_of_lt_of_le hr h.carries.lists_le, h.carries.agree.list r hr⟩

/-- A list that stands for another one has the elements that it had. -/
theorem Pursues.items_eq {st₁' : Store} (ht : Twins empty ρ st st')
    (h : Pursues empty ρ st st' ρ₁ st₁ st₁') {r : ListRef} (hr : r.index < st.lists.size) :
    st₁'.items (ρ.list r) = st'.items (ρ.list r) := by
  obtain ⟨hr₁, he⟩ := h.standing hr
  rw [← he, h.twins.paired.items r hr₁, h.grows.lists.items_eq r hr, he, ht.paired.items r hr,
    h.carries.agree.map_rename (ht.paired.sealed.items r)]

namespace Between

/-- Every store on the way is the second one of twins. -/
theorem pursues (h : Between empty ρ st st' last mid) (hp : Pursues empty ρ st st' ρ₁ st₁ last) :
    ∃ ρ₂ st₂, Pursues empty ρ st st' ρ₂ st₂ mid := by
  rcases h.pursued with rfl | ⟨sink, h⟩
  · exact ⟨ρ₁, st₁, hp⟩
  · exact ⟨ρ, _, h⟩

/-- A list that changes on the way has been there before, and stands for nothing. -/
theorem filled (h : Between empty ρ st st' last mid) (ht : Twins empty ρ st st')
    (hp : Pursues empty ρ st st' ρ₁ st₁ last) (hq : q.index < st'.lists.size)
    (hn : mid.items q ≠ st'.items q) : Private ρ₁ st₁ last q := by
  refine Private.mono ⟨hq, fun r hr he => hn ?_⟩ hp.carries
  obtain ⟨ρ₂, st₂, hp₂⟩ := h.pursues hp
  rw [← he]
  exact hp₂.items_eq ht hr

/-- What is referred to on the way will stand for something. -/
theorem mentioned (h : Between empty ρ st st' last mid) (hp : Pursues empty ρ st st' ρ₁ st₁ last)
    (hq : mid.Mentions q) : ∃ r : ListRef, r.index < st₁.lists.size ∧ ρ₁.list r = q := by
  rcases h.pursued with rfl | ⟨sink, h⟩
  · exact hp.twins.mentioned hq
  · obtain ⟨r, hr, rfl⟩ := h.twins.mentioned hq
    obtain ⟨hr₁, he⟩ := hp.standing hr
    exact ⟨r, hr₁, he⟩

end Between

/-- What is known of all stores after `k` instructions at most: what has been filled is private
in the end, and what has been referred to is not. -/
structure Tracks (empty : ListRef) (ρ : Renaming) (st st' : Store) (m : Machine) (k : Nat)
    (ρ₁ : Renaming) (st₁ last : Store) : Prop where
  pursues : Pursues empty ρ st st' ρ₁ st₁ last
  kept : ∀ {n}, n ≤ k → ∃ ρ₂ st₂, Pursues empty ρ st st' ρ₂ st₂ (storeAfter n m st')
  filled : ∀ {i j q}, i ≤ j → j ≤ k → q.index < (storeAfter i m st').lists.size →
    (storeAfter j m st').items q ≠ (storeAfter i m st').items q → Private ρ₁ st₁ last q
  mentioned : ∀ {n q}, n ≤ k → (storeAfter n m st').Mentions q →
    ∃ r : ListRef, r.index < st₁.lists.size ∧ ρ₁.list r = q

namespace Tracks

theorem here (h : Twins empty ρ st st') (m : Machine) : Tracks empty ρ st st' m 0 ρ st st' where
  pursues := .refl h
  kept hn := by
    obtain rfl := Nat.le_zero.mp hn
    exact ⟨ρ, st, .refl h⟩
  filled hi hj _ hne := by
    obtain rfl := Nat.le_zero.mp hj
    obtain rfl := Nat.le_zero.mp hi
    exact absurd rfl hne
  mentioned hn hq := by
    obtain rfl := Nat.le_zero.mp hn
    exact h.mentioned hq

theorem of_le (h : Tracks empty ρ st st' m k ρ₁ st₁ last) (hn : n ≤ k) :
    Tracks empty ρ st st' m n ρ₁ st₁ last where
  pursues := h.pursues
  kept hi := h.kept (Nat.le_trans hi hn)
  filled hij hj := h.filled hij (Nat.le_trans hj hn)
  mentioned hi := h.mentioned (Nat.le_trans hi hn)

/-- The machine takes some instructions more, on the way to another pair of twins. -/
theorem extend (h : Tracks empty ρ st st' m k ρ₁ st₁ mid) (hg : Goes k m st' m₁ mid)
    (hp : Pursues empty ρ₁ st₁ mid ρ₂ st₂ last)
    (hb : ∀ i, i ≤ n → Between empty ρ₁ st₁ mid last (storeAfter i m₁ mid)) :
    Tracks empty ρ st st' m (k + n) ρ₂ st₂ last := by
  have ht := h.pursues.twins
  have hk : storeAfter k m st' = mid := hg.storeAfter 0
  refine ⟨h.pursues.trans hp, fun {i} hi => ?_, fun {i j q} hij hj hq hne => ?_,
    fun {i q} hi hq => ?_⟩
  · rcases Nat.le_total i k with hik | hik
    · exact h.kept hik
    · obtain ⟨i, rfl⟩ := Nat.exists_eq_add_of_le hik
      obtain ⟨ρ₃, st₃, hp₃⟩ := (hb i (by omega)).pursues hp
      exact ⟨ρ₃, st₃, hg.storeAfter i ▸ h.pursues.trans hp₃⟩
  · rcases Nat.le_total j k with hjk | hkj
    · exact (h.filled hij hjk hq hne).mono hp.carries
    obtain ⟨j, rfl⟩ := Nat.exists_eq_add_of_le hkj
    rcases Nat.le_total i k with hik | hki
    · -- the list has changed before the machine was there, or after that
      rw [hg.storeAfter] at hne
      by_cases he : mid.items q = (storeAfter i m st').items q
      · refine (hb j (by omega)).filled ht hp ?_ (by rwa [he])
        exact hk ▸ Nat.lt_of_lt_of_le hq (lengthens_storeAfter hik m st').size_le
      · exact (h.filled hik (Nat.le_refl k) hq (by rwa [hk])).mono hp.carries
    · obtain ⟨i, rfl⟩ := Nat.exists_eq_add_of_le hki
      have hle := (lengthens_storeAfter (Nat.le_of_add_le_add_left hij) m₁ mid).size_le
      rw [hg.storeAfter] at hq hne
      rw [hg.storeAfter] at hne
      have hbi := hb i (by omega)
      have hbj := hb j (by omega)
      by_cases hnew : mid.lists.size ≤ q.index
      · exact absurd ((hbj.fresh q hnew (Nat.lt_of_lt_of_le hq hle)).trans
          (hbi.fresh q hnew hq).symm) hne
      · have hold := Nat.lt_of_not_le hnew
        by_cases he : (storeAfter i m₁ mid).items q = mid.items q
        · exact hbj.filled ht hp hold (by rwa [← he])
        · exact hbi.filled ht hp hold he
  · rcases Nat.le_total i k with hik | hik
    · obtain ⟨r, hr, rfl⟩ := h.mentioned hik hq
      obtain ⟨hr₁, he⟩ := hp.standing hr
      exact ⟨r, hr₁, he⟩
    · obtain ⟨i, rfl⟩ := Nat.exists_eq_add_of_le hik
      rw [hg.storeAfter] at hq
      exact (hb i (by omega)).mentioned hp hq

/-- The machine stops after some instructions more, so what is known then is known for good. -/
theorem extend_stop (h : Tracks empty ρ st st' m k ρ₁ st₁ mid) (hg : Goes k m st' m₁ mid)
    (hp : Pursues empty ρ₁ st₁ mid ρ₂ st₂ last)
    (hb : ∀ i, Between empty ρ₁ st₁ mid last (storeAfter i m₁ mid)) (n : Nat) :
    Tracks empty ρ st st' m n ρ₂ st₂ last :=
  (h.extend (n := n) hg hp fun i _ => hb i).of_le (Nat.le_add_left n k)

end Tracks

/-! ## Runs -/

/-- How far a machine that is where the course is gets.  The course has gone on for at least `a`
steps and the machine for at least `b`, or the machine has come to a stop before: it exits with the
value of the course, it refuses what the course fails at, or its stack is too small for the depth
of the course. -/
inductive Runs (empty : ListRef) (size : Nat) (ρ : Renaming) (st st' : Store) (c : Course)
    (m : Machine) (a b : Nat) : Prop
  | on {d j k : Nat} {c₁ : Course} {v₁ : View} {m₁ : Machine} {ρ₁ : Renaming} {st₁ st₁' : Store}
      (hj : a ≤ j) (hk : b ≤ k) (hl : Leads .afterValue d j c st c₁ st₁)
      (hg : Goes k m st' m₁ st₁') (ha : At size ρ₁ st₁ st₁' c₁ v₁)
      (hs : Shows (program empty) size m₁ v₁) (ht : Tracks empty ρ st st' m k ρ₁ st₁ st₁')
  | exits {d j k : Nat} {z : Value} {m₁ : Machine} {ρ₁ : Renaming} {st₁ st₁' : Store}
      (hl : Leads .afterValue d j c st ⟨.value z, []⟩ st₁) (hg : Goes k m st' m₁ st₁')
      (hx : Exits size (z.rename ρ₁) m₁) (hw : z.Within true st₁)
      (ht : ∀ i, Tracks empty ρ st st' m i ρ₁ st₁ st₁')
  | refuses {d j k : Nat} {c₁ : Course} {e : Failure} {m₁ : Machine} {ρ₁ : Renaming}
      {st₁ st₂ mid last : Store} (hl : Leads .afterValue d j c st c₁ st₁)
      (hs : c₁.step .afterValue st₁ = (.error e, st₂)) (hg : Goes k m st' m₁ mid)
      (hr : Refuses e last m₁ mid) (ht : ∀ i, Tracks empty ρ st st' m i ρ₁ st₂ last)
  | overflows {d j k : Nat} {c₁ : Course} {op : Opcode} {m₁ : Machine} {ρ₁ : Renaming}
      {st₁ st₂ mid last : Store} (hl : Leads .afterValue d j c st c₁ st₁)
      (hd : size < 10 * c₁.depth + 4) (hg : Goes k m st' m₁ mid)
      (hf : FailsIn m₁ mid op (.fault .stackOverflow) mid) (ho : op.grows = true)
      (ht : ∀ i, Tracks empty ρ st st' m i ρ₁ st₂ last)

/-- The last instruction of a machine that refuses something leads to the last store. -/
theorem Refuses.keeps {Kept : Store → Prop} {e : Failure} (h : Refuses e last m mid)
    (hmid : Kept mid) (hlast : Kept last) (n : Nat) : Kept (storeAfter n m mid) := by
  have ho {op : Opcode} {e : Failure} (hf : FailsIn m mid op e last) :
      Kept (storeAfter n m mid) := by
    rcases hf.storeAfter n with he | he <;> rw [he]
    · exact hmid
    · exact hlast
  cases h with
  | fails _ hf => exact ho hf
  | closed _ _ hf => exact ho hf
  | halts _ hh => rwa [storeAfter_finished n hh.finished mid]

section

variable {d j : Nat} (hl : Leads .afterValue d j c st c₁ st₁) (hg : Goes k m st' m₁ mid)
  (ht : Tracks empty ρ st st' m k ρ₁ st₁ mid)
include hl hg ht

/-- The course has come to its end, and the machine leaves with the value. -/
theorem Runs.exit {z : Value} (hz : c₁.value? = some z) (ha : At size ρ₁ st₁ mid c₁ v)
    (hs : Shows (program empty) size m₁ v) : Runs empty size ρ st st' c m a b := by
  cases ha with
  | eval => cases hz
  | value h hw =>
    cases h with
    | level => cases hz
    | main hb =>
      have hk : Between empty ρ₁ st₁ mid mid mid := .ended
      have hready : Ready (stretch empty size 0 ρ₁ st₁ mid mid) empty 4 mid :=
        ⟨rfl, Nat.le_refl 4, hk⟩
      obtain ⟨i, m₂, _, -, hp, rfl, hx⟩ | ⟨hn, -⟩ := mainValue hready hb m₁ hs
      · refine .exits hl (hg.trans hp.goes) hx hw
          (ht.extend_stop hg (.refl ht.pursues.twins) (hp.storeAfter_of_stop fun j => ?_))
        rw [storeAfter_finished j hx.finished]
        exact hk
      · have hsize := hs.length_le
        simp only [returned, List.length_cons, hb] at hsize
        exact absurd hn (by simp; omega)

/-- The course takes a step, and the machine follows it. -/
theorem Runs.follow (hfit : st₁.Fits) (hz : c₁.value? = none) (ha : At size ρ₁ st₁ mid c₁ v)
    (hs : Shows (program empty) size m₁ v) (hj : a ≤ j) (hk : b ≤ k) :
    Runs empty size ρ st st' c m (a + 1) (b + 1) := by
  have hstuck {ρ₂ : Renaming} {st₂ last : Store} {c₂ : Course} {j d : Nat} {st₃ : Store}
      (hp : Pursues empty ρ₁ st₁ mid ρ₂ st₂ last) (hl : Leads .afterValue d j c st c₂ st₃)
      (hd : size < 10 * c₂.depth + 4)
      (ho : Overflows (Between empty ρ₁ st₁ mid last) m₁ mid) :
      Runs empty size ρ st st' c m (a + 1) (b + 1) := by
    obtain ⟨i, m₂, mid₂, op, hpass, hf, hgrow⟩ := ho
    refine .overflows hl hd (hg.trans hpass.goes) hf hgrow
      (ht.extend_stop hg hp (hpass.storeAfter_of_stop fun i => ?_))
    rw [(hf.storeAfter i).elim (·) (·)]
    exact hpass.kept (Nat.le_refl _) hpass.goes
  cases follows ht.pursues.twins hfit ha hz with
  | @goes _ c₂ _ _ _ hl' hp hr =>
    obtain ⟨i, m₂, _, hi, hpass, rfl, w, ha', hs'⟩ | ⟨hn, ho⟩ := hr m₁ hs
    · exact .on (by omega) (by omega) ((hl.mono (Nat.le_max_left d _)).trans
        (hl'.mono (Nat.le_max_right d _))) (hg.trans hpass.goes) ha' hs'
        (ht.extend hg hp fun _ => hpass.storeAfter)
    · simp only [stretch] at hn ho
      rcases Nat.le_total c₁.depth c₂.depth with hle | hle
      · rw [Nat.max_eq_right hle] at hn
        exact hstuck hp ((hl.mono (Nat.le_max_left d _)).trans (hl'.mono (Nat.le_max_right d _)))
          hn ho
      · rw [Nat.max_eq_left hle] at hn
        exact hstuck hp hl hn ho
  | fails he hp hr =>
    obtain ⟨i, m₂, mid₂, -, hpass, hrefuse⟩ | ⟨hn, ho⟩ := hr m₁ hs
    · exact .refuses hl he (hg.trans hpass.goes) hrefuse
        (ht.extend_stop hg hp (hpass.storeAfter_of_stop
          (hrefuse.keeps (hpass.kept (Nat.le_refl _) hpass.goes) .ended)))
    · exact hstuck hp hl hn ho

end

/-- A machine that is loaded with what stands for an expression and a scope gets to where it
evaluates them. -/
theorem Runs.start {x : Value} {s : ScopeRef} (ht : Twins empty ρ st st')
    (hx : x.Within true st) (hs : s.index < st.scopes.size)
    (hm : Shows (program empty) size m
      ⟨Block.main.start, 2, [.scope (ρ.scope s), x.rename ρ, .number 0], .number 0⟩) :
    Runs empty size ρ st st' (.start x s) m 0 0 := by
  have hready : Ready (stretch empty size 1 ρ st st' st') empty 14 st' :=
    ⟨rfl, Nat.le_refl 14, .ended⟩
  have hstart : (stretch empty size 1 ρ st st' st').Reaches 1
      ⟨Block.main.start, 2, [.scope (ρ.scope s), x.rename ρ, .number 0], .number 0⟩ st'
      (Arrives empty size ρ st st' (.start x s)) := by
    intro m hm
    have hst (link : Value) : Stacked size ρ st st' st'.lists.size [] Block.mainValue.start 0
        [link, .scope (ρ.scope s), x.rename ρ, .number 0] := .main rfl
    have hroom (link : Value) : Ready (stretch empty size 1 ρ st st' st') empty
        ([link, .scope (ρ.scope s), x.rename ρ, .number 0].length + 10) st' := hready
    obtain ⟨j, m₁, _, hj, hp, rfl, link, hm₁⟩ | ho := main hready m hm
    · obtain ⟨k, m₂, _, -, hp', rfl, f, a, hfs, hfx, hret, hm₂⟩ | ⟨hn, ho⟩ :=
        entered (hroom link) (hst link).pc_lt m₁ hm₁
      · exact .inl ⟨j + k, m₂, _, Nat.le_add_right_of_le hj, hp.trans hp', rfl, _,
          .eval (hst link) hret hfx hfs hx hs, hm₂⟩
      · obtain ⟨i, m₂, st₂, op, hp', ho⟩ := ho
        exact .inr ⟨hn, j + i, m₂, st₂, op, hp.trans hp', ho⟩
    · exact .inr ho
  obtain ⟨k, m₁, _, -, hp, rfl, v, ha, hs⟩ | ⟨hn, k, m₁, mid, op, hp, hf, ho⟩ := hstart m hm
  · exact .on (Nat.zero_le 0) (Nat.zero_le k) (.refl (Nat.le_refl _)) hp.goes ha hs
      (Nat.zero_add k ▸ (Tracks.here ht m).extend .refl (.refl ht) fun _ => hp.storeAfter)
  · refine .overflows (.refl (Nat.le_refl _)) hn hp.goes hf ho
      ((Tracks.here ht m).extend_stop .refl (.refl ht) (hp.storeAfter_of_stop fun i => ?_))
    rw [(hf.storeAfter i).elim (·) (·)]
    exact hp.kept (Nat.le_refl _) hp.goes

/-- The machine follows the course for one more step, if the lists that the course has come to are
not too long for the machine to count.  That need not be known once the machine is far on. -/
theorem Runs.next (h : Runs empty size ρ st st' c m a b) (near : Nat → Prop)
    (hfit : ∀ {d j k c₁ m₁ ρ₁ st₁ st₁'}, near k → Leads .afterValue d j c st c₁ st₁ →
      Goes k m st' m₁ st₁' → Twins empty ρ₁ st₁ st₁' → st₁.Fits) :
    Runs empty size ρ st st' c m (a + 1) (b + 1) ∨
      ∃ k, ¬ near k ∧ ∀ i ≤ k, Runs empty size ρ st st' c m a i := by
  cases h with
  | @on _ _ k c₁ _ _ _ _ _ hj hk hl hg ha hs ht =>
    rcases hz : c₁.value? with _ | z
    · by_cases hn : near k
      · exact .inl (.follow hl hg ht (hfit hn hl hg ht.pursues.twins) hz ha hs hj hk)
      · exact .inr ⟨k, hn, fun i hi => .on hj hi hl hg ha hs ht⟩
    · exact .inl (.exit hl hg ht hz ha hs)
  | exits hl hg hx hw ht => exact .inl (.exits hl hg hx hw ht)
  | refuses hl he hg hr ht => exact .inl (.refuses hl he hg hr ht)
  | overflows hl hd hg hf ho ht => exact .inl (.overflows hl hd hg hf ho ht)

/-- The machine follows the course as far as there is one. -/
theorem Runs.all (h : Runs empty size ρ st st' c m 0 0)
    (hfit : ∀ {d j c₁ st₁}, Leads .afterValue d j c st c₁ st₁ → st₁.Fits) (n : Nat) :
    Runs empty size ρ st st' c m n n := by
  induction n with
  | zero => exact h
  | succ n ih =>
    obtain hnext | ⟨k, hno, -⟩ := ih.next (fun _ => True) fun _ hl _ _ => hfit hl
    · exact hnext
    · exact absurd trivial hno

/-- It follows the course until, after `n` instructions, some list gets too long. -/
theorem Runs.upTo (h : Runs empty size ρ st st' c m 0 0) (hfit : (storeAfter n m st').Fits) :
    ∃ a, Runs empty size ρ st st' c m a (n + 1) := by
  have hsteps : ∀ i, Runs empty size ρ st st' c m i i ∨
      ∃ a, Runs empty size ρ st st' c m a (n + 1) := by
    intro i
    induction i with
    | zero => exact .inl h
    | succ i ih =>
      obtain ih | hfar := ih
      · obtain hnext | ⟨k, hk, hfar⟩ := ih.next (· ≤ n) fun hk _ hg ht =>
          ht.paired.fits (hg.fits hk hfit)
        · exact .inl hnext
        · exact .inr ⟨i, hfar (n + 1) (Nat.lt_of_not_le hk)⟩
      · exact .inr hfar
  obtain hruns | hfar := hsteps (n + 1)
  · exact ⟨n + 1, hruns⟩
  · exact hfar

/-- The program is the evaluator, assembled before, and its empty list is in the store and
still empty. -/
def Serves (p : Program) (st : Store) : Prop :=
  ∃ st₀, (Assembler.assemble evaluatorText "main" st₀).1 = .ok p ∧
    st₀.lists.size < st.lists.size ∧ st.items ⟨st₀.lists.size⟩ = []

theorem Serves.program {p : Program} (h : Serves p st) :
    ∃ empty, p = program empty ∧ empty.index < st.lists.size ∧ st.items empty = [] := by
  obtain ⟨st₀, ha, hl, hi⟩ := h
  rw [assemble_evaluatorText] at ha
  exact ⟨_, (Except.ok.inj ha).symm, hl, hi⟩

/-- A machine that has been loaded runs. -/
theorem runs_of_loaded {x : Value} {s : ScopeRef} (ht : Twins empty ρ st st')
    (hx : x.Within true st) (hs : s.index < st.scopes.size) (hsize : size < 2 ^ 63)
    (hm : Engine.loaded (program empty) size (x.rename ρ) (ρ.scope s) st' = (.ok m, st')) :
    Runs empty size ρ st st' (.start x s) m 0 0 := by
  obtain ⟨m', hm', hshows⟩ | ⟨-, hf⟩ :=
    start_shows (program empty) [x.rename ρ, .scope (ρ.scope s)] hsize st'
  · cases hm.symm.trans hm'
    exact .start ht hx hs hshows
  · cases hm.symm.trans hf

/-- A machine can be loaded if its stack has room for the first evaluation. -/
theorem loaded_of_room (p : Program) (x : Value) (s : ScopeRef) (st : Store)
    (hsize : size < 2 ^ 63) (hr : 3 ≤ size) : ∃ m, Engine.loaded p size x s st = (.ok m, st) := by
  obtain ⟨m, hm, -⟩ | ⟨hl, -⟩ := start_shows p [x, .scope s] hsize st
  · exact ⟨m, hm⟩
  · exact absurd hr (Nat.not_le_of_lt hl)

end Evaluator

end Machine

end LispEngines
