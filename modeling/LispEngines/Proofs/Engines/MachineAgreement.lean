import LispEngines.Proofs.Course.Checking
import LispEngines.Proofs.Engines.Depth
import LispEngines.Proofs.Machine.Safety
import Mathlib.Data.Nat.Find

/-!
# The evaluator and the recursive engine

When the recursive engine ends, its course does, and the machine follows the course with the
evaluator program.  Ten slots of the stack for each level of nesting are enough, and four
more, so the evaluator comes to the same end: with what stands for the value, with the same
failure, and with what stands for the same bindings.

The evaluator says more in one case.  Before it stops on a form that it rejects, it writes its
message to the output.

* `Engine.machine_agrees_with_classic`: the two engines come to the same end.
-/

namespace LispEngines

open Course (Leads EndsIn AvoidsBadBinding)

namespace Course

variable {check : Classic.NameCheck} {bound k : Nat} {c c₁ : Course} {st st₁ : Store}
  {r : Except Failure Value} {levels : List Level}

theorem Leads.keepsLists (h : Leads check bound k c st c₁ st₁) : st.KeepsLists st₁ := by
  induction h with
  | refl => exact .refl _
  | @head _ c _ _ st _ _ _ _ hs _ ih =>
    have hk := (plain_step check c).keepsLists st
    rw [hs] at hk
    exact hk.trans ih

theorem EndsIn.keepsLists (h : EndsIn check bound levels k c st r st₁) : st.KeepsLists st₁ := by
  cases h with
  | value hl => exact hl.keepsLists
  | failure hl hf =>
    rename_i c' st₂ _
    have hk := (plain_step check c').keepsLists st₂
    rw [hf] at hk
    exact hl.keepsLists.trans hk

theorem EndsIn.depth_le (h : EndsIn check bound levels k c st r st₁) : c.depth ≤ bound := by
  cases h with
  | value hl => exact hl.depth_le
  | failure hl _ => exact hl.depth_le

/-- A course that ends, but not within a bound, exceeds the bound. -/
theorem EndsIn.outgrows {x : Value} {s : ScopeRef} {d : Nat}
    (h : EndsIn check bound [] k (start x s) st r st₁)
    (hn : ¬ Ends check d (start x s) st r st₁) : ∃ j st', Outgrows check d j (start x s) st st' := by
  cases d with
  | zero => exact ⟨0, st, .here rfl⟩
  | succ d => exact (h.bounded (Nat.succ_le_succ (Nat.zero_le d))).resolve_left fun h => hn ⟨_, h⟩

/-- A course that fails in its next step ends so. -/
theorem EndsIn.of_error {e : Failure} (h : EndsIn check bound [] k c st r st₁) {st₂ : Store}
    (hs : c.step check st = (.error e, st₂)) : r = .error e ∧ st₁ = st₂ := by
  obtain ⟨-, ⟨e', he, rfl⟩ | ⟨_, _, _, -, he, -⟩⟩ := h.cases_head (value?_of_error hs)
  · cases hs.symm.trans he
    exact ⟨rfl, rfl⟩
  · cases hs.symm.trans he

end Course

namespace Machine.Evaluator

variable {empty : ListRef} {size depth k : Nat} {ρ : Renaming} {st st' st₁ : Store} {c : Course}
  {m : Machine} {r : Except Failure Value}

/-- How a machine ends that has followed a course to its end: with what stands for the same
value, or with the same failure, or with a message that rejects a form. -/
inductive EndsLike (r : Except Failure Value) (ρ₁ : Renaming) (last : Store) (m : Machine)
    (st' : Store) : Prop
  | value {k : Nat} {m₁ : Machine} {v : Value} (hg : Goes k m st' m₁ last)
      (hf : m₁.finished = true) (hs : m₁.haltMessage = none) (hr : r = .ok v)
      (ha : m₁.a = v.rename ρ₁)
  | failure {k : Nat} {m₁ : Machine} {mid : Store} {op : Opcode} {e : Failure}
      (hg : Goes k m st' m₁ mid) (hr : r = .error e) (hf : FailsIn m₁ mid op e last)
  | message {k : Nat} {m₁ : Machine} {mid : Store} {detail : String} (hg : Goes k m st' m₁ mid)
      (hr : r = .error (.malformed detail)) (hh : Halts (Failure.malformedHalt ++ detail) last m₁ mid)

/-- If the course ends and there is room for it, the machine ends like it. -/
theorem endsLike_of_endsIn (hr : ∀ n, Runs empty size ρ st st' c m n n)
    (he : EndsIn .afterValue depth [] k c st r st₁) (hroom : 10 * depth + 4 ≤ size)
    (hsink : st.sink.limit = none) :
    ∃ ρ₁ last, Pursues empty ρ st st' ρ₁ st₁ last ∧ EndsLike r ρ₁ last m st' := by
  cases hr (k + 1) with
  | on hj _ hl =>
    obtain ⟨j, hk, -⟩ := he.after hl
    omega
  | exits hl hg hx hw ht =>
    obtain ⟨j, -, hj⟩ := he.after hl
    obtain ⟨rfl, rfl⟩ := hj.of_value
    exact ⟨_, _, (ht 0).pursues, .value hg hx.finished hx.silent rfl hx.a⟩
  | refuses hl hs hg hrefuse ht =>
    obtain ⟨j, -, hj⟩ := he.after hl
    obtain ⟨rfl, rfl⟩ := hj.of_error hs
    refine ⟨_, _, (ht 0).pursues, ?_⟩
    obtain ⟨op, -, hf⟩ | ⟨detail, rfl, hh⟩ :=
      hrefuse.of_unlimited (unlimited_of_failure hl hs (ht 0).pursues hsink)
    · exact .failure hg rfl hf
    · exact .message hg rfl hh
  | overflows hl hd =>
    obtain ⟨j, -, hj⟩ := he.after hl
    have hle := hj.depth_le
    omega

end Machine.Evaluator

namespace Engine

open Machine.Evaluator (Serves Twins EndsLike endsLike_of_endsIn callStore started_on_call)

variable {x : Value} {s : ScopeRef} {st st' : Store} {r : Except Failure Value} {p : Program}
  {m : Machine} {size n : Nat} {ρ : Renaming} {last : Store}

/-- The evaluator ends like an engine that ends with this result and this store: with what
stands for the result, in a store that differs in addresses only.  If it rejects a form with a
message, it has written the message on a line of its own. -/
def MachineEnds (p : Program) (size n : Nat) (x : Value) (s : ScopeRef) (st : Store)
    (r : Except Failure Value) (st' : Store) : Prop :=
  ∃ ρ last, Renaming.id.Agree st ρ ∧ Paired (.same true) ρ st' last ∧
    (Ends (.machine p size n) x s st (r.map (Value.rename ρ)) last ∨
      ∃ detail sink, r = .error (.malformed detail) ∧
        last.sink.write? (Failure.malformedHalt ++ detail ++ "\n") = some sink ∧
        Ends (.machine p size n) x s st r { last with sink })

/-- The machine as an engine ends as it has ended as a machine. -/
theorem ends_of_endsLike (hm : loaded p size x s st = (.ok m, st)) (h : EndsLike r ρ last m st) :
    Ends (.machine p size n) x s st (r.map (Value.rename ρ)) last ∨
      ∃ detail sink, r = .error (.malformed detail) ∧
        last.sink.write? (Failure.malformedHalt ++ detail ++ "\n") = some sink ∧
        Ends (.machine p size n) x s st r { last with sink } := by
  have hrun {fuel : Nat} {r' : Except Failure Value} {m' : Machine} {st₁ : Store}
      (h : Machine.run fuel m st = some ((r', m'), st₁)) :
      Ends (.machine p size n) x s st (r'.bind (outcome m')) st₁ :=
    ⟨fuel, .machine p size (n + m'.steps), by simp [evaluate, hm, h]⟩
  cases h with
  | @value _ _ v hg hf hs hr ha =>
    have h := hrun ((hg.run 1).trans (Machine.run_finished 0 hf))
    rw [ha, Except.bind, outcome, hs] at h
    exact .inl (hr ▸ h)
  | failure hg hr hf =>
    obtain ⟨m', hm'⟩ := hf.fails
    have h := hrun ((hg.run 1).trans (by rw [Machine.run_step 0 hf.running, hm']))
    exact .inl (hr ▸ h)
  | @message _ _ _ detail hg hr hh =>
    obtain ⟨sink, hw, rfl⟩ := hh.sink
    have h := hrun ((hg.run 1).trans (Machine.run_finished 0 hh.finished))
    rw [Except.bind, outcome, hh.message] at h
    dsimp only at h
    rw [Failure.ofHalt_append] at h
    exact .inr ⟨detail, sink, hr, hw, hr ▸ h⟩

/-- If the course ends, and the stack has room for its depth, the evaluator ends like it. -/
theorem machineEnds_of_course {depth k : Nat} (hp : Serves p st) (ht : st.Tidy true)
    (hx : x.Within true st) (hs : s.index < st.scopes.size) (hsink : st.sink.limit = none)
    (hfit : st'.Fits) (he : EndsIn .afterValue depth [] k (.start x s) st r st')
    (hsize : 10 * depth + 4 ≤ size) (hsmall : size < 2 ^ 63) :
    MachineEnds p size n x s st r st' := by
  obtain ⟨empty, rfl, hl, hi⟩ := hp.program
  have htwins := Twins.refl ht hl hi
  obtain ⟨m, hm⟩ := Machine.Evaluator.loaded_of_room (Machine.Evaluator.program empty) x s st
    hsmall (by omega)
  have hruns := (Machine.Evaluator.runs_of_loaded htwins hx hs hsmall
    (by rwa [Value.rename_id])).all fun {_ _ _ _} hl => by
      obtain ⟨_, -, hj⟩ := he.after hl
      exact hfit.of_keepsLists hj.keepsLists
  obtain ⟨ρ, last, hp, hend⟩ := endsLike_of_endsIn hruns he hsize hsink
  exact ⟨ρ, last, hp.carries.agree, hp.twins.paired, ends_of_endsLike hm hend⟩

/-- The recursive engine ends, and not for the sake of its depth limit, without having come to
a definition or an assignment with bad operands.  Then there is a depth that it has reached, so
that every limit from there on is as good and it hits every smaller one.  With ten slots of the
stack for each level of this depth, and four more, the evaluator ends like it. -/
theorem machine_agrees_with_classic {limit k : Nat} (hp : Serves p st) (ht : st.Tidy true)
    (hx : x.Within true st) (hs : s.index < st.scopes.size) (hsink : st.sink.limit = none)
    (hfit : st'.Fits) (hb : (Course.start x s).AvoidsBadBinding st)
    (h : Ends (.classic limit k) x s st r st') (hr : r ≠ .error (.tooDeep limit)) :
    ∃ depth ≤ limit,
      (∀ d n, depth ≤ d → Ends (.classic d n) x s st r st') ∧
      (∀ d n, d < depth → ∃ st₁, Ends (.classic d n) x s st (.error (.tooDeep d)) st₁) ∧
      ∀ size n, 10 * depth + 4 ≤ size → size < 2 ^ 63 → MachineEnds p size n x s st r st' := by
  classical
  have hc := course_of_classic h hr
  have hex : ∃ depth, Course.Ends .beforeValue depth (.start x s) st r st' := ⟨limit, hc⟩
  obtain ⟨j, hj⟩ := Nat.find_spec hex
  refine ⟨Nat.find hex, Nat.find_min' hex hc, fun d n hd => ?_, fun d n hd => ?_,
    fun size n hsize hsmall => ?_⟩
  · exact classic_of_course ⟨j, hj⟩ hd
  · obtain ⟨i, st₁, ho⟩ := hj.outgrows (Nat.find_min hex hd)
    exact ⟨st₁, classic_tooDeep_iff.mpr ⟨i, ho⟩⟩
  · exact machineEnds_of_course hp ht hx hs hsink hfit (Course.endsIn_afterValue hj hb) hsize hsmall

/-- The recursive engine has the value of `(list 1)` with two levels of nesting, and the evaluator
with 24 slots of the stack. -/
theorem machine_agrees_with_classic_in_call :
    Ends (.classic 2 0) (.list ⟨1⟩) ⟨0⟩ callStore (.ok (.list ⟨2⟩))
        (callStore.newList [.number 1]).2 ∧
      ∃ (ρ : Renaming) (last : Store), last.items (ρ.list ⟨2⟩) = [.number 1] ∧
        Ends (.machine (Machine.Evaluator.program ⟨0⟩) 24 0) (.list ⟨1⟩) ⟨0⟩ callStore
          (.ok (.list (ρ.list ⟨2⟩))) last := by
  have hc : Ends (.classic 2 0) (.list ⟨1⟩) ⟨0⟩ callStore (.ok (.list ⟨2⟩))
      (callStore.newList [.number 1]).2 := ⟨5, .classic 2 3, rfl⟩
  have hfit : (callStore.newList [.number 1]).2.Fits := Store.fits_of_all (by decide +kernel)
  have hb : (Course.start (.list ⟨1⟩) ⟨0⟩).AvoidsBadBinding callStore :=
    Course.avoidsBadBinding_of_noForm (by decide : Course.holdsUntilEnd .beforeValue
      Course.evaluatesNoForm 9 (.start (.list ⟨1⟩) ⟨0⟩) callStore = true)
  obtain ⟨m, -, -, hm, -⟩ := started_on_call
  obtain ⟨depth, hle, -, -, h⟩ := machine_agrees_with_classic hm.serves hm.tidy hm.within hm.scope_lt
    rfl hfit hb hc (by simp)
  obtain ⟨ρ, last, -, hp, hend | ⟨_, _, he, -⟩⟩ := h 24 0 (by omega) (by decide)
  · exact ⟨hc, ρ, last, hp.items ⟨2⟩ (by decide), hend⟩
  · cases he

end Engine

end LispEngines
