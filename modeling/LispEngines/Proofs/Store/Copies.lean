import LispEngines.Proofs.Store.Reading

/-!
# Ends that differ in addresses only

Two evaluations that begin in the same store and do the same may end in different stores: each has
lists that the other one has no use for, and what both have made is at different addresses.  Such
stores are copies of a third one, in which there is what both have made (`Copied`).  `SameEnd` says
so of two ends, results included.

Nobody can tell such ends apart: they have the same output (`SameEnd.sink_eq`), the same failure
(`SameEnd.error_iff`), values with the same text (`SameEnd.shown_eq`), and what was there at the
beginning has the same names bound to values with the same text (`SameEnd.shown_lookup?`).
-/

namespace LispEngines

variable {ε : Type} {st mid last last' : Store} {ρ ρ' : Renaming} {r r' : Except ε Value}

/-- Two stores are copies of a third one, up to addresses, with the same output; what there was in
an earlier store has kept its address. -/
structure Copied (st mid : Store) (ρ ρ' : Renaming) (last last' : Store) : Prop where
  left : Paired (Link.same false).lone ρ mid last
  right : Paired (Link.same false).lone ρ' mid last'
  left_agree : Renaming.id.Agree st ρ
  right_agree : Renaming.id.Agree st ρ'
  scopes_le : st.scopes.size ≤ mid.scopes.size

/-- Two values are one, or both are empty lists. -/
def Value.Alike (st : Store) (v w : Value) : Prop :=
  v = w ∨ ∃ r q, v = .list r ∧ w = .list q ∧ st.items r = [] ∧ st.items q = []

/-- Two evaluations that have begun in a store end alike, up to addresses. -/
inductive SameEnd (st : Store) : Except ε Value → Store → Except ε Value → Store → Prop
  | value {mid last last' : Store} {ρ ρ' : Renaming} {v w : Value}
      (h : Copied st mid ρ ρ' last last') (hv : v.Within false mid) (hw : w.Within false mid)
      (hvw : v.Alike mid w) : SameEnd st (.ok (v.rename ρ)) last (.ok (w.rename ρ')) last'
  | error {mid last last' : Store} {ρ ρ' : Renaming} {e : ε} (h : Copied st mid ρ ρ' last last') :
      SameEnd st (.error e) last (.error e) last'

/-- A result of the third store, copied twice. -/
theorem Copied.sameEnd (h : Copied st mid ρ ρ' last last')
    (hr : ∀ v, r = .ok v → v.Within false mid) :
    SameEnd st (r.map (Value.rename ρ)) last (r.map (Value.rename ρ')) last' := by
  rcases r with e | v
  · exact .error h
  · exact .value h (hr v rfl) (hr v rfl) (.inl rfl)

/-- All empty lists have the same text. -/
theorem Value.shown_of_items {q : ListRef} (hq : st.items q = []) : (Value.list q).shown st = "()" := by
  have hends : endsWithin st 1 (.list q) = true := by rw [endsWithin, nested, hq]; rfl
  rw [shown_eq hends, showWithin, hq]
  rfl

theorem Value.Alike.shown_eq {v w : Value} (h : v.Alike st w) : v.shown st = w.shown st := by
  rcases h with rfl | ⟨r, q, rfl, rfl, hr, hq⟩
  · rfl
  · rw [shown_of_items hr, shown_of_items hq]

namespace SameEnd

variable (h : SameEnd st r last r' last')
include h

theorem exists_copied : ∃ mid ρ ρ', Copied st mid ρ ρ' last last' := by
  cases h with
  | value h | error h => exact ⟨_, _, _, h⟩

/-- The output is the same. -/
theorem sink_eq : last'.sink = last.sink := by
  obtain ⟨mid, ρ, ρ', h⟩ := h.exists_copied
  exact Eq.trans h.right.sink (Eq.symm h.left.sink)

theorem mapError {δ : Type} (f : ε → δ) : SameEnd st (r.mapError f) last (r'.mapError f) last' := by
  cases h with
  | value h hv hw hvw => exact .value h hv hw hvw
  | error h => exact .error h

theorem error_iff (e : ε) : r = .error e ↔ r' = .error e := by
  cases h with
  | value => exact ⟨nofun, nofun⟩
  | error => exact Iff.rfl

/-- If one is a value then so is the other one, and they have the same text. -/
theorem shown_eq {v : Value} (hv : r = .ok v) : ∃ v', r' = .ok v' ∧ v'.shown last' = v.shown last := by
  cases h with
  | error => cases hv
  | value h hw hw' hsame =>
    cases hv
    exact ⟨_, rfl, by
      rw [h.right.shown_rename hw', h.left.shown_rename hw, hsame.shown_eq]⟩

/-- In the scopes that were there at the beginning the same names are bound, to values with the same
text. -/
theorem shown_lookup? {s : ScopeRef} (hs : s.index < st.scopes.size) (key : String) :
    (last'.lookup? s key).map (·.shown last') = (last.lookup? s key).map (·.shown last) := by
  obtain ⟨mid, ρ, ρ', h⟩ := h.exists_copied
  have hs₁ : s.index < mid.scopes.size := Nat.lt_of_lt_of_le hs h.scopes_le
  have hleft : last.lookup? s key = (mid.lookup? s key).map (Value.rename ρ) := by
    rw [← h.left.lookup?_rename hs₁, h.left_agree.scope s hs]
    rfl
  have hright : last'.lookup? s key = (mid.lookup? s key).map (Value.rename ρ') := by
    rw [← h.right.lookup?_rename hs₁, h.right_agree.scope s hs]
    rfl
  rw [hleft, hright]
  rcases hv : mid.lookup? s key with _ | v
  · rfl
  · have hw := h.left.lookup?_within hv
    simp only [Option.map_some]
    rw [h.left.shown_rename hw, h.right.shown_rename hw]

end SameEnd

end LispEngines
