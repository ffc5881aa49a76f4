import LispEngines.Proofs.Engines.Ends
import LispEngines.Proofs.Machine.Boundary

/-!
# How a machine ends

A machine ends by finishing, with a value or with a message that makes it fail, or by failing in an
instruction.  Which it is, and what becomes of the store, may be said of any machine on the way
there (`EndsAs.of_goes`, `EndsAs.after`).  The engine ends as the machine does that it has loaded
(`Engine.machine_ends_iff`), and that is the machine about to enter the first call of `eval`
(`Evaluator.exists_called`, `Evaluator.endsAs_mainValue_iff`).
-/

namespace LispEngines.Machine

variable {m m₁ : Machine} {st st₁ st' : Store} {r : Except Failure Value} {k : Nat}

/-- The machine runs to its end, with this result and this store. -/
inductive EndsAs (m : Machine) (st : Store) : Except Failure Value → Store → Prop
  | finished {k : Nat} {m₁ : Machine} {st' : Store} (hg : Goes k m st m₁ st')
      (hf : m₁.finished = true) : EndsAs m st (Engine.outcome m₁ m₁.a) st'
  | fails {k : Nat} {m₁ m₂ : Machine} {st₁ st' : Store} {e : Failure} (hg : Goes k m st m₁ st₁)
      (hf : m₁.finished = false) (hs : step m₁ st₁ = ((.error e, m₂), st')) :
      EndsAs m st (.error e) st'

/-- No way leads past the end. -/
theorem Goes.le_of_end {i : Nat} {m₂ : Machine} {st₂ : Store} (h : Goes i m st m₁ st₁)
    (hg : Goes k m st m₂ st₂)
    (hn : m₂.finished = true ∨ ∃ e m' st', step m₂ st₂ = ((.error e, m'), st')) : i ≤ k := by
  rcases Nat.le_total i k with hle | hle
  · exact hle
  · exact Nat.le_of_eq (hg.stop h hle hn).1

namespace EndsAs

theorem of_goes (hg : Goes k m st m₁ st₁) (h : EndsAs m₁ st₁ r st') : EndsAs m st r st' := by
  cases h with
  | finished hg' hf => exact .finished (hg.trans hg') hf
  | fails hg' hf hs => exact .fails (hg.trans hg') hf hs

/-- A machine that comes to an end comes to it from everywhere on its way. -/
theorem after (hg : Goes k m st m₁ st₁) (h : EndsAs m st r st') : EndsAs m₁ st₁ r st' := by
  cases h with
  | finished hg' hf =>
    obtain ⟨n, rfl⟩ := Nat.exists_eq_add_of_le (hg.le_of_end hg' (.inl hf))
    exact .finished (hg.split hg') hf
  | fails hg' hf hs =>
    obtain ⟨n, rfl⟩ := Nat.exists_eq_add_of_le (hg.le_of_end hg' (.inr ⟨_, _, _, hs⟩))
    exact .fails (hg.split hg') hf hs

/-- A machine that has finished is at its end. -/
theorem of_finished (h : EndsAs m st r st') (hf : m.finished = true) :
    r = Engine.outcome m m.a ∧ st' = st := by
  cases h with
  | finished hg _ =>
    cases hg with
    | refl => exact ⟨rfl, rfl⟩
    | head hf' =>
      rw [hf] at hf'
      cases hf'
  | fails hg hf' =>
    cases hg with
    | refl =>
      rw [hf] at hf'
      cases hf'
    | head hf' =>
      rw [hf] at hf'
      cases hf'

end EndsAs

end Machine

namespace Engine

open Machine (EndsAs)

variable {m : Machine} {st st' : Store} {r : Except Failure Value} {p : Program} {size n : Nat}
  {x : Value} {s : ScopeRef}

theorem machine_ends_iff_run (hm : loaded p size x s st = (.ok m, st)) :
    Ends (.machine p size n) x s st r st' ↔
      ∃ fuel r₀ m₁, Machine.run fuel m st = some ((r₀, m₁), st') ∧ r = r₀.bind (outcome m₁) := by
  have hrun (fuel : Nat) : evaluate fuel x s (.machine p size n) st = (Machine.run fuel m st).map
      fun out => ((out.1.1.bind (outcome out.1.2), .machine p size (n + out.1.2.steps)), out.2) := by
    simp only [evaluate, hm]
    rcases Machine.run fuel m st with _ | ⟨⟨r₀, m₁⟩, st₁⟩ <;> rfl
  constructor
  · rintro ⟨fuel, engine, h⟩
    rw [hrun] at h
    obtain ⟨⟨⟨r₀, m₁⟩, st₁⟩, hx, he⟩ := Option.map_eq_some_iff.mp h
    cases he
    exact ⟨fuel, r₀, m₁, hx, rfl⟩
  · rintro ⟨fuel, r₀, m₁, hx, rfl⟩
    exact ⟨fuel, .machine p size (n + m₁.steps), by rw [hrun, hx]; rfl⟩

/-- The engine ends as the machine does. -/
theorem machine_ends_iff (hm : loaded p size x s st = (.ok m, st)) :
    Ends (.machine p size n) x s st r st' ↔ EndsAs m st r st' := by
  rw [machine_ends_iff_run hm]
  constructor
  · rintro ⟨fuel, r₀, m₁, hx, rfl⟩
    obtain ⟨k, m₂, st₂, hg, ⟨hf, rfl, rfl, rfl⟩ | ⟨hf, e, rfl, hs⟩⟩ := Machine.goes_of_run fuel hx
    · exact .finished hg hf
    · exact .fails hg hf hs
  · rintro (@⟨k, m₁, _, hg, hf⟩ | @⟨k, m₁, m₂, st₁, _, e, hg, hf, hs⟩)
    · exact ⟨1 + k, .ok m₁.a, m₁, by rw [hg.run, Machine.run_finished _ hf], rfl⟩
    · exact ⟨1 + k, .error e, m₂, by rw [hg.run, Machine.run_step _ hf, hs], rfl⟩

end Engine

namespace Machine.Evaluator

variable {empty : ListRef} {size n : Nat} {x : Value} {s : ScopeRef} {m : Machine}
  {st st' : Store} {r : Except Failure Value}

/-- Whatever is known, nothing is asked of the stores on the way. -/
def unchecked (empty : ListRef) (size need : Nat) : Setting := ⟨program empty, size, need, fun _ => True⟩

theorem ready_unchecked (empty : ListRef) {size need height : Nat} (h : height ≤ need) (st : Store) :
    Ready (unchecked empty size need) empty height st :=
  ⟨rfl, h, trivial⟩

/-- With enough room a machine gets to where it is said to get. -/
theorem goes_of_reaches {need least : Nat} {v : View} {P : Machine → Store → Prop}
    (h : (unchecked empty size need).Reaches least v st P) (hn : need ≤ size)
    (hm : Shows (program empty) size m v) : ∃ k m' st', Goes k m st m' st' ∧ P m' st' := by
  obtain ⟨k, m', st', -, hg, hp⟩ | ⟨hlt, -⟩ := h m hm
  · exact ⟨k, m', st', hg.goes, hp⟩
  · exact absurd hn (Nat.not_le_of_lt hlt)

theorem goes_of_comes {need : Nat} {v w : View} (h : (unchecked empty size need).Comes v st w st')
    (hn : need ≤ size) (hm : Shows (program empty) size m v) :
    ∃ k m', Goes k m st m' st' ∧ Shows (program empty) size m' w := by
  obtain ⟨k, m', _, hg, hs, rfl⟩ := goes_of_reaches h hn hm
  exact ⟨k, m', hg, hs⟩

/-- A machine that has been loaded is soon about to enter the evaluation of its expression. -/
theorem exists_called (empty : ListRef) (hsize : size < 2 ^ 63) (hroom : 14 ≤ size) (x : Value)
    (s : ScopeRef) (st : Store) : ∃ m k m₁ link,
      Engine.loaded (program empty) size x s st = (.ok m, st) ∧ Goes k m st m₁ st ∧
        Shows (program empty) size m₁
          (called Block.mainValue.start 0 (.scope s) x [link, .scope s, x, .number 0]) := by
  obtain ⟨m, hm, hs⟩ | ⟨hl, -⟩ := start_shows (program empty) [x, .scope s] hsize st
  · obtain ⟨k, m₁, _, hg, rfl, link, hs₁⟩ := goes_of_reaches
      (main (ready_unchecked empty (Nat.le_refl 14) st)) hroom hs
    exact ⟨m, k, m₁, link, hm, hg, hs₁⟩
  · exact absurd hroom (by simp only [List.length_cons, List.length_nil] at hl; omega)

/-- Back in the main part the value is the result. -/
theorem endsAs_mainValue_iff {below : List Value} {t y v : Value} (hl : below.length = 4)
    (hroom : 4 ≤ size)
    (hm : Shows (program empty) size m (returned Block.mainValue.start 0 t y below v)) :
    EndsAs m st r st' ↔ r = .ok v ∧ st' = st := by
  obtain ⟨k, m₁, _, hg, rfl, hx⟩ := goes_of_reaches
    (mainValue (ready_unchecked empty (Nat.le_refl 4) st) hl) hroom hm
  have hresult : Engine.outcome m₁ m₁.a = .ok v := by rw [Engine.outcome, hx.silent, hx.a]
  constructor
  · intro h
    rw [← hresult]
    exact (h.after hg).of_finished hx.finished
  · rintro ⟨rfl, rfl⟩
    exact hresult ▸ .finished hg hx.finished

end LispEngines.Machine.Evaluator
