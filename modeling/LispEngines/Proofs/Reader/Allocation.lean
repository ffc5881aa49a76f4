import LispEngines.Proofs.Effects
import LispEngines.Proofs.Reader.Writing
import LispEngines.Proofs.Store.Texts

/-!
# The values of forms

A form gets its place in a store by `Form.build`, every list of it a new one.  `Holds` says that a
value of a store has the structure of a form; what is allocated later does not change that.

The printed text of such a value is a layout of the lexemes of the form in the sense of `Laid`, with
a blank between the items of a list and strings written bare (`shown_build`).  So the texts that are
read back are the printed ones, up to their layout and to the way in which strings are written.
-/

namespace LispEngines.Reader

variable {st st' : Store} {v : Value}

/-! ## Structure -/

mutual

/-- The value has the structure of the form. -/
def Holds (st : Store) : Form → Value → Prop
  | .number n, v => v = .number n
  | .symbol s, v => v = .symbol s
  | .text s, v => v = .text s
  | .list items, v => ∃ r, v = .list r ∧ r.index < st.lists.size ∧ HoldsAll st items (st.items r)

/-- The values have the structures of the forms, one by one. -/
def HoldsAll (st : Store) : List Form → List Value → Prop
  | [], vs => vs = []
  | f :: fs, vs => ∃ v vs', vs = v :: vs' ∧ Holds st f v ∧ HoldsAll st fs vs'

end

mutual

/-- A value keeps its structure while the lists are kept. -/
theorem holds_of_keeps (h : st.KeepsLists st') :
    ∀ (f : Form) {v : Value}, Holds st f v → Holds st' f v
  | .number _, _, hv => hv
  | .symbol _, _, hv => hv
  | .text _, _, hv => hv
  | .list items, _, ⟨r, hv, hr, hi⟩ =>
    ⟨r, hv, Nat.lt_of_lt_of_le hr h.size_le, by
      rw [h.items_eq r hr]; exact holdsAll_of_keeps h items hi⟩

theorem holdsAll_of_keeps (h : st.KeepsLists st') :
    ∀ (fs : List Form) {vs : List Value}, HoldsAll st fs vs → HoldsAll st' fs vs
  | [], _, hv => hv
  | f :: fs, _, ⟨v, vs, hvs, hf, hfs⟩ =>
    ⟨v, vs, hvs, holds_of_keeps h f hf, holdsAll_of_keeps h fs hfs⟩

end

/-! ## Allocation -/

/-- Lists have been added to a store, and nothing else. -/
structure AddsLists (st st' : Store) : Prop extends st.KeepsLists st' where
  scopes_eq : st'.scopes = st.scopes
  sink_eq : st'.sink = st.sink

theorem AddsLists.refl (st : Store) : AddsLists st st := ⟨.refl st, rfl, rfl⟩

theorem AddsLists.trans {st'' : Store} (h : AddsLists st st') (h' : AddsLists st' st'') :
    AddsLists st st'' :=
  ⟨h.toKeepsLists.trans h'.toKeepsLists, h'.scopes_eq.trans h.scopes_eq, h'.sink_eq.trans h.sink_eq⟩

theorem AddsLists.newList (st : Store) (vs : List Value) : AddsLists st (st.newList vs).2 :=
  ⟨.newList st vs, rfl, rfl⟩

/-- What the allocation of a form does: the value has its structure, and lists are added. -/
structure Builds (f : Form) (st : Store) (r : Value × Store) : Prop where
  holds : Holds r.2 f r.1
  adds : AddsLists st r.2

structure BuildsAll (fs : List Form) (st : Store) (r : List Value × Store) : Prop where
  holds : HoldsAll r.2 fs r.1
  adds : AddsLists st r.2

theorem build_list (items : List Form) (st : Store) : Form.build (.list items) st =
    (.list ⟨(Form.buildAll items st).2.lists.size⟩,
      ((Form.buildAll items st).2.newList (Form.buildAll items st).1).2) := by
  rw [Form.build]
  rfl

theorem buildAll_cons (f : Form) (fs : List Form) (st : Store) : Form.buildAll (f :: fs) st =
    ((f.build st).1 :: (Form.buildAll fs (f.build st).2).1,
      (Form.buildAll fs (f.build st).2).2) := by
  rw [Form.buildAll]
  rfl

mutual

theorem builds : ∀ (f : Form) (st : Store), Builds f st (f.build st)
  | .number _, st => by rw [Form.build]; exact ⟨rfl, .refl st⟩
  | .symbol _, st => by rw [Form.build]; exact ⟨rfl, .refl st⟩
  | .text _, st => by rw [Form.build]; exact ⟨rfl, .refl st⟩
  | .list items, st => by
    obtain ⟨hholds, hadds⟩ := buildsAll items st
    rw [build_list]
    generalize Form.buildAll items st = r at hholds hadds ⊢
    have hnew := AddsLists.newList r.2 r.1
    have hsize : (r.2.newList r.1).2.lists.size = r.2.lists.size + 1 := Array.size_push ..
    have hitems : (r.2.newList r.1).2.items ⟨r.2.lists.size⟩ = r.1 := Store.items_newList_self r.2 r.1
    constructor
    · refine ⟨_, rfl, ?_, ?_⟩
      · rw [hsize]
        exact Nat.lt_succ_self _
      · rw [hitems]
        exact holdsAll_of_keeps hnew.toKeepsLists items hholds
    · exact hadds.trans hnew

theorem buildsAll : ∀ (fs : List Form) (st : Store), BuildsAll fs st (Form.buildAll fs st)
  | [], st => by rw [Form.buildAll]; exact ⟨rfl, .refl st⟩
  | f :: fs, st => by
    obtain ⟨hf, hadds⟩ := builds f st
    obtain ⟨hfs, hadds'⟩ := buildsAll fs (f.build st).2
    rw [buildAll_cons]
    exact ⟨⟨_, _, rfl, holds_of_keeps hadds'.toKeepsLists f hf, hfs⟩, hadds.trans hadds'⟩

end

/-! ## Printed texts -/

mutual

/-- How many lists stand inside one another in a form. -/
def depthOf : Form → Nat
  | .list items => depthOfAll items + 1
  | _ => 0

/-- How many lists stand inside one another in some of the forms. -/
def depthOfAll : List Form → Nat
  | [] => 0
  | f :: fs => max (depthOf f) (depthOfAll fs)

end

mutual

/-- The text of the value of a form ends where the form does. -/
theorem endsWithin_depthOf : ∀ (f : Form) {v : Value} {fuel : Nat}, Holds st f v →
    depthOf f ≤ fuel → Value.endsWithin st fuel v = true
  | .number n, v, fuel, hv, _ => by
    obtain rfl : v = .number n := hv
    exact Value.endsWithin_mono (n := 0) rfl (Nat.zero_le _)
  | .symbol s, v, fuel, hv, _ => by
    obtain rfl : v = .symbol s := hv
    exact Value.endsWithin_mono (n := 0) rfl (Nat.zero_le _)
  | .text s, v, fuel, hv, _ => by
    obtain rfl : v = .text s := hv
    exact Value.endsWithin_mono (n := 0) rfl (Nat.zero_le _)
  | .list items, v, fuel, hv, hd => by
    rw [Holds] at hv
    obtain ⟨r, rfl, -, hi⟩ := hv
    rw [depthOf] at hd
    obtain ⟨fuel, rfl⟩ : ∃ k, fuel = k + 1 := ⟨fuel - 1, by omega⟩
    exact Value.endsWithin_succ.mpr (endsWithin_depthOfAll items hi (by omega))

theorem endsWithin_depthOfAll : ∀ (fs : List Form) {vs : List Value} {fuel : Nat},
    HoldsAll st fs vs → depthOfAll fs ≤ fuel → ∀ v ∈ vs, Value.endsWithin st fuel v = true
  | [], vs, _, hv, _ => by
    obtain rfl : vs = [] := hv
    exact nofun
  | f :: fs, vs, _, hv, hd => by
    rw [HoldsAll] at hv
    obtain ⟨v, vs, rfl, hf, hfs⟩ := hv
    rw [depthOfAll] at hd
    exact List.forall_mem_cons.mpr
      ⟨endsWithin_depthOf f hf (by omega), endsWithin_depthOfAll fs hfs (by omega)⟩

end

/-- A blank stands before each text but the first. -/
theorem toList_spaced_cons (t : String) (ts : List String) :
    (Value.spaced (t :: ts)).toList =
      t.toList ++ if ts = [] then [] else ' ' :: (Value.spaced ts).toList := by
  unfold Value.spaced
  split
  · rename_i hts
    rw [hts, String.intercalate_singleton, List.append_nil]
  · rename_i hts
    rw [String.intercalate_cons_of_ne_nil hts, String.toList_append, String.toList_append,
      List.append_assoc]
    rfl

mutual

/-- With a bound above the depth of a form, the printed text of its value is a layout of its
lexemes. -/
theorem laid_showWithin : ∀ (f : Form) {v : Value} {fuel : Nat} {afterWord : Bool}
    {gap cs : List Char} {ls : List Lexeme}, Holds st f v → depthOf f ≤ fuel → Gap gap →
    (afterWord = true → gap ≠ []) → (∀ b, Laid id b ls cs) →
    Laid id afterWord (lexemesOf f ++ ls) (gap ++ ((v.showWithin st fuel).toList ++ cs))
  | .number n, v, fuel, _, _, _, _, hv, _, hg, hne, h => by
    obtain rfl : v = .number n := hv
    rw [Value.showWithin]
    exact .cons hg (fun ha _ => hne ha) (h true)
  | .symbol s, v, fuel, _, _, _, _, hv, _, hg, hne, h => by
    obtain rfl : v = .symbol s := hv
    rw [Value.showWithin]
    exact .cons hg (fun ha _ => hne ha) (h true)
  | .text s, v, fuel, _, _, _, _, hv, _, hg, hne, h => by
    obtain rfl : v = .text s := hv
    rw [Value.showWithin]
    exact .cons hg (fun ha _ => hne ha) (h false)
  | .list items, v, fuel, _, _, cs, ls, hv, hd, hg, hne, h => by
    rw [Holds] at hv
    obtain ⟨r, rfl, -, hi⟩ := hv
    rw [depthOf] at hd
    obtain ⟨fuel, rfl⟩ : ∃ k, fuel = k + 1 := ⟨fuel - 1, by omega⟩
    have hclose : ∀ b gap, Gap gap → Laid id b (.closing :: ls) (gap ++ ')' :: cs) :=
      fun b gap hg => .cons hg nofun (h false)
    have hitems := @laid_spaced items _ fuel false _ _ _ hi (by omega) .nil nofun hclose
    have hopen : Laid id _ (.opening :: _) (_ ++ '(' :: _) := .cons hg (fun ha _ => hne ha) hitems
    rw [Value.showWithin, lexemesOf, String.toList_append, String.toList_append, List.cons_append,
      List.append_assoc, List.append_assoc, List.append_assoc]
    exact hopen

theorem laid_spaced : ∀ (fs : List Form) {vs : List Value} {fuel : Nat} {afterWord : Bool}
    {gap cs : List Char} {ls : List Lexeme}, HoldsAll st fs vs → depthOfAll fs ≤ fuel → Gap gap →
    (afterWord = true → gap ≠ []) → (∀ b gap, Gap gap → Laid id b ls (gap ++ cs)) →
    Laid id afterWord (lexemesOfAll fs ++ ls)
      (gap ++ ((Value.spaced (vs.map (Value.showWithin st fuel))).toList ++ cs))
  | [], vs, _, _, _, _, _, hv, _, hg, hne, h => by
    obtain rfl : vs = [] := hv
    exact h _ _ hg
  | f :: fs, vs, fuel, _, _, cs, ls, hv, hd, hg, hne, h => by
    rw [HoldsAll] at hv
    obtain ⟨v, vs, rfl, hf, hfs⟩ := hv
    rw [depthOfAll] at hd
    rw [lexemesOfAll, List.append_assoc, List.map_cons, toList_spaced_cons, List.append_assoc]
    refine laid_showWithin f hf (by omega) hg hne fun b => ?_
    cases vs with
    | nil =>
      cases fs with
      | nil => exact h b [] .nil
      | cons g fs =>
        rw [HoldsAll] at hfs
        obtain ⟨_, _, ⟨⟩, -⟩ := hfs
    | cons w vs =>
      exact @laid_spaced fs _ _ _ [' '] _ _ hfs (by omega) (.blank rfl .nil) (fun _ => nofun) h

end

/-- The printed text of the value of a form is a layout of its lexemes. -/
theorem shown_build (f : Form) (st : Store) :
    Laid id false (lexemesOf f) ((f.build st).1.shown (f.build st).2).toList := by
  have h := (builds f st).holds
  have hend : ∀ b, Laid id b [] [] := fun _ => .nil .nil
  have hl := @laid_showWithin _ f _ _ false _ _ _ h (Nat.le_refl _) .nil nofun hend
  rwa [List.append_nil, List.append_nil, ← Value.shown_eq (endsWithin_depthOf f h (Nat.le_refl _))]
    at hl

end LispEngines.Reader
