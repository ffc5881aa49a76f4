import LispEngines.Proofs.Assembly.Statement
import Mathlib.Data.Set.Function

/-!
# The assembler in two passes

Put plainly, a program is assembled in two passes.  The first one gathers the names: a label is the
number of words before it, and a definition has the value that its operand has there.  The second
one writes one word for each statement that emits one, and makes an entry for each constant and
each use of a name for a constant.

`Assembler.IsReference` says this statement by statement, and whatever the assembler accepts comes
out so (`Assembler.isReference_of_assemble`), although the assembler reads the text once, resolves
names late and makes the entries for the names of constants after all others.
-/

namespace LispEngines

/-! ## Counting in lists -/

section

variable {α β : Type} {p : α → Bool} {l : List α} {i j k : Nat} {a : α}

theorem take_succ_of_getElem? (hi : l[i]? = some a) : l.take (i + 1) = l.take i ++ [a] := by
  rw [List.take_add_one, hi]
  rfl

/-- Past an element that counts, the count is higher. -/
theorem countP_take_lt (hi : l[i]? = some a) (ha : p a = true) (hij : i < j) :
    (l.take i).countP p < (l.take j).countP p := by
  have hs : (l.take (i + 1)).countP p = (l.take i).countP p + 1 := by
    rw [take_succ_of_getElem? hi, List.countP_append, List.countP_singleton, if_pos ha]
  have hle : (l.take (i + 1)).countP p ≤ (l.take j).countP p :=
    (List.take_sublist_take_left (Nat.succ_le_of_lt hij)).countP_le
  omega

theorem countP_take_lt_countP (hi : l[i]? = some a) (ha : p a = true) :
    (l.take i).countP p < l.countP p := by
  have h := countP_take_lt hi ha (List.getElem?_eq_some_iff.mp hi).1
  rwa [List.take_length] at h

/-- Every count is that of an element. -/
theorem exists_countP_take_eq : ∀ {l : List α} {k : Nat}, k < l.countP p →
    ∃ i a, l[i]? = some a ∧ p a = true ∧ (l.take i).countP p = k
  | [], k, h => absurd h (Nat.not_lt_zero k)
  | a :: l, k, h => by
    by_cases ha : p a = true
    · rcases k with _ | k
      · exact ⟨0, a, rfl, ha, rfl⟩
      · rw [List.countP_cons_of_pos ha] at h
        obtain ⟨i, b, hi, hb, hk⟩ := exists_countP_take_eq (Nat.lt_of_succ_lt_succ h)
        exact ⟨i + 1, b, hi, hb, by rw [List.take_succ_cons, List.countP_cons_of_pos ha, hk]⟩
    · rw [List.countP_cons_of_neg ha] at h
      obtain ⟨i, b, hi, hb, hk⟩ := exists_countP_take_eq h
      exact ⟨i + 1, b, hi, hb, by rw [List.take_succ_cons, List.countP_cons_of_neg ha, hk]⟩

/-- What an element gives stands behind what the elements before it give. -/
theorem getElem?_filterMap {f : α → Option β} {b : β} (hi : l[i]? = some a) (ha : f a = some b) :
    (l.filterMap f)[(l.take i).countP fun a => (f a).isSome]? = some b := by
  obtain ⟨hl, hs⟩ := List.getElem?_eq_some_iff.mp hi
  have he : l = l.take i ++ a :: l.drop (i + 1) := by
    rw [← hs, ← List.drop_eq_getElem_cons hl, List.take_append_drop]
  have hf : l.filterMap f = (l.take i).filterMap f ++ b :: (l.drop (i + 1)).filterMap f := by
    conv_lhs => rw [he]
    rw [List.filterMap_append, List.filterMap_cons_some ha]
  rw [hf, ← List.length_filterMap_eq_countP, List.getElem?_append_right (Nat.le_refl _),
    Nat.sub_self]
  rfl

end

/-! ## Putting in the values of names -/

/-- The constant for which a slot makes an entry. -/
def Slot.constant? (ls : Labels) : Slot → Option Value
  | .word _ => none
  | .delayed name => ls.constant? name

namespace Assembler

variable {asm asm' : Assembler} {name : String} {v : Value}

theorem resolve_delayed (name : String) (asm : Assembler) :
    resolve (.delayed name) asm =
      match asm.labels.get? name with
      | some (.fixed n) => (.ok n, asm)
      | some (.data v) => (.ok (Int64.ofNat asm.data.size), { asm with data := asm.data.push v })
      | none => (.error (.labelNotFound name), asm) := by
  show (match asm.labels.get? name with
    | some (.fixed n) => (pure n : Assembling Int64)
    | some (.data v) => addData v
    | none => throw (AssembleError.labelNotFound name)) asm = _
  rcases asm.labels.get? name with _ | (n | v) <;> rfl

/-- The word for a name whose value is known, given how many entries there are already. -/
def wordOf (entries : Nat) : Label → Int64
  | .fixed n => n
  | .data _ => Int64.ofNat entries

theorem resolve_ok {s : Slot} {w : Int64} (h : resolve s asm = (.ok w, asm')) :
    asm'.labels = asm.labels ∧
      asm'.data.toList = asm.data.toList ++ (s.constant? asm.labels).toList ∧
      (∀ n, s = .word n → w = n) ∧
      ∀ name, s = .delayed name →
        ∃ l, asm.labels.get? name = some l ∧ w = wordOf asm.data.size l := by
  cases s with
  | word n =>
    cases h
    exact ⟨rfl, (List.append_nil _).symm, fun n hn => by cases hn; rfl, nofun⟩
  | delayed name =>
    rw [resolve_delayed] at h
    rw [Slot.constant?, Labels.constant?]
    rcases hg : asm.labels.get? name with _ | (n | v) <;> rw [hg] at h <;> cases h
    · refine ⟨rfl, (List.append_nil _).symm, nofun, fun name' hn => ?_⟩
      cases hn
      exact ⟨.fixed _, hg, rfl⟩
    · refine ⟨rfl, Array.toList_push, nofun, fun name' hn => ?_⟩
      cases hn
      exact ⟨.data v, hg, rfl⟩

/-- All slots are resolved with the same names.  The entries that are made for names of constants
come after all others, in the order of the uses. -/
theorem resolve_all : ∀ {ss : List Slot} {asm asm' : Assembler} {ws : List Int64},
    ss.mapM resolve asm = (.ok ws, asm') →
      asm'.labels = asm.labels ∧
      asm'.data.toList = asm.data.toList ++ ss.filterMap (Slot.constant? asm.labels) ∧
      ws.length = ss.length ∧
      (∀ (k : Nat) n, ss[k]? = some (.word n) → ws[k]? = some n) ∧
      ∀ (k : Nat) name, ss[k]? = some (.delayed name) →
        ∃ l, asm.labels.get? name = some l ∧ ws[k]? = some (wordOf
          (asm.data.size + (ss.take k).countP fun s => (s.constant? asm.labels).isSome) l)
  | [], asm, asm', ws, h => by
    cases h
    exact ⟨rfl, (List.append_nil _).symm, rfl, nofun, nofun⟩
  | s :: ss, asm, asm', ws, h => by
    rw [List.mapM_cons] at h
    obtain ⟨w, asm₁, hs, h⟩ := Assembly.bind_eq_ok h
    obtain ⟨ws', asm₂, hss, h⟩ := Assembly.bind_eq_ok h
    cases h
    obtain ⟨hl, hd, hw, hn⟩ := resolve_ok hs
    obtain ⟨hl', hd', hlen, hw', hn'⟩ := resolve_all hss
    rw [hl] at hl' hd' hn'
    have hsize : asm₁.data.size = asm.data.size +
        if (s.constant? asm.labels).isSome then 1 else 0 := by
      rw [← Array.length_toList, hd, List.length_append, Array.length_toList]
      cases s.constant? asm.labels <;> rfl
    refine ⟨hl', ?_, congrArg Nat.succ hlen, fun k n hk => ?_, fun k name hk => ?_⟩
    · rw [hd', hd, List.append_assoc]
      rw [List.filterMap_cons]
      cases s.constant? asm.labels <;> rfl
    · cases k with
      | zero => exact congrArg some (hw n (Option.some.inj hk))
      | succ k => exact hw' k n hk
    · cases k with
      | zero =>
        obtain ⟨l, hg, rfl⟩ := hn name (Option.some.inj hk)
        exact ⟨l, hg, rfl⟩
      | succ k =>
        obtain ⟨l, hg, hk⟩ := hn' k name hk
        refine ⟨l, hg, hk.trans ?_⟩
        rw [hsize, List.take_succ_cons, List.countP_cons, Nat.add_assoc,
          Nat.add_comm (List.countP _ _)]

/-- Finishing comes to a program if all places get their values, and the entry name stands for a
position. -/
theorem finish_eq_ok_iff {entry : String} {p : Program} :
    finish entry asm = (.ok p, asm') ↔
      ∃ code n pc, asm.slots.mapM resolve asm = (.ok code, asm') ∧
        asm'.labels.get? entry = some (.fixed n) ∧ Opcode.position? n = some pc ∧
        p = { code, data := asm'.data, entry := pc } := by
  constructor
  · intro h
    change (asm.slots.mapM resolve >>= fun _ => _ : Assembling Program) asm = _ at h
    obtain ⟨code, asm₁, hm, h⟩ := Assembly.bind_eq_ok h
    obtain ⟨asm₂, asm₃, hg, h⟩ := Assembly.bind_eq_ok h
    cases hg
    rcases hf : asm₁.labels.get? entry with _ | (n | v) <;> rw [hf] at h
    · cases h
    · dsimp only at h
      rcases ho : Opcode.position? n with _ | pc <;> rw [ho] at h <;> cases h
      exact ⟨code, n, pc, hm, hf, ho, rfl⟩
    · cases h
  · rintro ⟨code, n, pc, hm, hf, ho, rfl⟩
    show (asm.slots.mapM resolve >>= fun _ => _ : Assembling Program) asm = _
    rw [Assembly.bind_ok hm, Assembly.bind_ok (rfl : (get : Assembling Assembler) asm' = _), hf]
    dsimp only
    rw [ho]
    rfl

/-- What comes of finishing a program: its code and its data, and where it is entered. -/
theorem finish_ok {entry : String} {p : Program} (h : finish entry asm = (.ok p, asm')) :
    p.code.size = asm.slots.size ∧
      p.data.toList = asm.data.toList ++ asm.slots.toList.filterMap (Slot.constant? asm.labels) ∧
      (∀ (k : Nat) n, asm.slots.toList[k]? = some (.word n) → p.code[k]? = some n) ∧
      (∀ (k : Nat) name, asm.slots.toList[k]? = some (.delayed name) →
        ∃ l, asm.labels.get? name = some l ∧ p.code[k]? = some (wordOf (asm.data.size +
          (asm.slots.toList.take k).countP fun s => (s.constant? asm.labels).isSome) l)) ∧
      ∃ n, asm.labels.get? entry = some (.fixed n) ∧ Opcode.position? n = some p.entry := by
  obtain ⟨code, n, pc, hm, hf, ho, rfl⟩ := finish_eq_ok_iff.mp h
  rw [Array.mapM_eq_mapM_toList, map_eq_pure_bind] at hm
  obtain ⟨ws, asm₂, hm, hc⟩ := Assembly.bind_eq_ok hm
  cases hc
  obtain ⟨hl, hd, hlen, hw, hn⟩ := resolve_all hm
  refine ⟨by simpa using hlen, hd, fun k n hk => by simpa using hw k n hk,
    fun k name hk => ?_, n, hl ▸ hf, ho⟩
  obtain ⟨l, hg, hk⟩ := hn k name hk
  exact ⟨l, hg, by simpa using hk⟩

/-- Every use of a name for a constant makes an entry for that same constant. -/
theorem constant_of_finish {entry : String} {p : Program} (h : finish entry asm = (.ok p, asm'))
    {k : Nat} (hk : asm.slots.toList[k]? = some (.delayed name))
    (hl : asm.labels.get? name = some (.data v)) :
    ∃ j, j = asm.data.size +
        ((asm.slots.toList.take k).countP fun s => (s.constant? asm.labels).isSome) ∧
      p.code[k]? = some (Int64.ofNat j) ∧ p.data[j]? = some v := by
  obtain ⟨-, hdata, -, hname, -⟩ := finish_ok h
  obtain ⟨l, hl', hw⟩ := hname k name hk
  cases hl.symm.trans hl'
  have hconst : Slot.constant? asm.labels (.delayed name) = some v := by
    rw [Slot.constant?, Labels.constant?, hl]
  refine ⟨_, rfl, hw, ?_⟩
  rw [← Array.getElem?_toList, hdata, List.getElem?_append_right (by simp),
    Array.length_toList, Nat.add_sub_cancel_left]
  exact getElem?_filterMap hk hconst

end Assembler

/-! ## The two passes -/

namespace Assembly

variable (base : Labels) (ss : List Statement)

/-- The names that are known before a statement. -/
def namesBefore (i : Nat) : Labels := namesAfter base 0 (ss.take i)

/-- The names that are known in the end. -/
def allNames : Labels := namesAfter base 0 ss

/-- The number of words before a statement. -/
def wordsBefore (i : Nat) : Nat := (ss.take i).countP Statement.emits

/-- A statement owns an entry, for this constant. -/
inductive Owns (i : Nat) : Value → Prop
  | text {s : String} (hs : ss[i]? = some (.text s)) : Owns i (.text s)
  | constant {payload : String} {n : Int64} (hs : ss[i]? = some (.constant payload))
      (hn : (namesBefore base ss i).integer? payload = some n) : Owns i (.number n)
  | reference {name : String} {v : Value} (hs : ss[i]? = some (.reference name))
      (hv : (allNames base ss).get? name = some (.data v)) : Owns i v

/-- A program is what the two passes make of its statements. -/
structure IsReference (entry : String) (p : Program) : Prop where
  /-- There is one word for each statement that emits one. -/
  size : p.code.size = ss.countP Statement.emits
  literal : ∀ i n, ss[i]? = some (.literal n) → p.code[wordsBefore ss i]? = some n
  /-- Wherever a name is used, it has the value that it has in the end. -/
  reference : ∀ i name, ss[i]? = some (.reference name) →
    ∃ l, (allNames base ss).get? name = some l ∧
      ∀ n, l = .fixed n → p.code[wordsBefore ss i]? = some n
  /-- An integer constant is known where it is used. -/
  constant : ∀ i payload, ss[i]? = some (.constant payload) →
    ∃ n, (namesBefore base ss i).integer? payload = some n
  label : ∀ i name, ss[i]? = some (.label name) →
    (allNames base ss).get? name = some (.fixed (Int64.ofNat (wordsBefore ss i)))
  /-- A definition has the value that its operand has where it stands. -/
  definition : ∀ i name value, ss[i]? = some (.definition name value) →
    ∃ l, (namesBefore base ss i).denoted? value = some l ∧ (allNames base ss).get? name = some l
  /-- Statements own the entries one to one; their words are the indices, and the entries hold
  their constants. -/
  entries : ∃ place : Nat → Nat,
    Set.BijOn place {i | ∃ v, Owns base ss i v} {j | j < p.data.size} ∧
    ∀ i v, Owns base ss i v →
      p.code[wordsBefore ss i]? = some (Int64.ofNat (place i)) ∧ p.data[place i]? = some v
  /-- A name that is known keeps its value. -/
  unchanged : ∀ i name l, (namesBefore base ss i).get? name = some l →
    (allNames base ss).get? name = some l
  entry : ∃ n, (allNames base ss).get? entry = some (.fixed n) ∧
    Opcode.position? n = some p.entry

end Assembly

namespace Assembler

open Assembly

variable {base : Labels} {ss : List Statement} {asm asm' : Assembler} {i : Nat}

/-- The place of the entry of a statement: constants have theirs in order, and after them come the
uses of names for constants. -/
def place (base : Labels) (ss : List Statement) (i : Nat) : Nat :=
  if (ss[i]?.any Statement.isConstant) = true then (ss.take i).countP Statement.isConstant
  else ss.countP Statement.isConstant + (ss.take i).countP (Statement.sharesConstant (allNames base ss))

theorem place_of_isConstant {s : Statement} (hi : ss[i]? = some s) (hs : s.isConstant = true) :
    place base ss i = (ss.take i).countP Statement.isConstant := by
  rw [place, hi, if_pos (by simpa using hs)]

theorem place_of_reference {name : String} (hi : ss[i]? = some (.reference name)) :
    place base ss i =
      ss.countP Statement.isConstant + (ss.take i).countP (Statement.sharesConstant (allNames base ss)) := by
  rw [place, hi, if_neg (by simp [Statement.isConstant])]

/-- A statement that owns an entry is a constant, or the use of a name for a constant. -/
theorem owns_cases {v : Value} (h : Owns base ss i v) :
    (∃ s, ss[i]? = some s ∧ s.isConstant = true ∧
      place base ss i = (ss.take i).countP Statement.isConstant) ∨
    ∃ s, ss[i]? = some s ∧ s.sharesConstant (allNames base ss) = true ∧
      place base ss i =
        ss.countP Statement.isConstant + (ss.take i).countP (Statement.sharesConstant (allNames base ss)) := by
  cases h with
  | text hs => exact .inl ⟨_, hs, rfl, place_of_isConstant hs rfl⟩
  | constant hs hn => exact .inl ⟨_, hs, rfl, place_of_isConstant hs rfl⟩
  | reference hs hv =>
    refine .inr ⟨_, hs, ?_, place_of_reference hs⟩
    rw [Statement.sharesConstant, Labels.constant?, hv]
    rfl

/-- No two statements own the same entry. -/
theorem injOn_place : Set.InjOn (place base ss) {i | ∃ v, Owns base ss i v} := by
  have hlt {i j : Nat} {v w : Value} (hi : Owns base ss i v) (hj : Owns base ss j w) (hij : i < j) :
      place base ss i ≠ place base ss j := by
    rcases owns_cases hi with ⟨s, hs, hc, hp⟩ | ⟨s, hs, hc, hp⟩ <;>
      rcases owns_cases hj with ⟨t, ht, hd, hq⟩ | ⟨t, ht, hd, hq⟩ <;> rw [hp, hq]
    · exact Nat.ne_of_lt (countP_take_lt hs hc hij)
    · have h := countP_take_lt_countP hs hc
      omega
    · have h := countP_take_lt_countP ht hd
      omega
    · have h := countP_take_lt hs hc hij
      omega
  rintro i ⟨v, hi⟩ j ⟨w, hj⟩ hij
  rcases Nat.lt_trichotomy i j with h | h | h
  · exact absurd hij (hlt hi hj h)
  · exact h
  · exact absurd hij.symm (hlt hj hi h)

section

variable {s : Statement} {p : Program} {asm₁ : Assembler} {entry : String}

/-- The names of a moment are those before its statement, and its slots are the words. -/
theorem namesBefore_of_moment (h : Feeds { labels := base } (ss.take i) asm) :
    asm.labels = namesBefore base ss i ∧ asm.slots.size = wordsBefore ss i ∧
      asm.data.size = (ss.take i).countP Statement.isConstant := by
  refine ⟨h.labels_eq, ?_, ?_⟩
  · rw [h.slots_size, Array.size_empty, Nat.zero_add]
    rfl
  · rw [h.data_size, Array.size_empty, Nat.zero_add]

/-- The slot that a statement has made stays behind those of the statements before it. -/
theorem slot_of_moment {slot : Slot} {b : Assembler} (h : Feeds { labels := base } (ss.take i) asm)
    (hs : b.slots = asm.slots.push slot) (he : Extends b asm') :
    asm'.slots.toList[wordsBefore ss i]? = some slot ∧
      asm'.slots.toList.take (wordsBefore ss i) = asm.slots.toList := by
  obtain ⟨-, hsize, -⟩ := namesBefore_of_moment h
  obtain ⟨rest, hrest⟩ := he.slots
  rw [hs, Array.toList_push, List.append_assoc] at hrest
  have hlen : asm.slots.toList.length = wordsBefore ss i := by rw [Array.length_toList, hsize]
  rw [← hrest, ← hlen]
  exact ⟨by simp, List.take_left⟩

/-- So does the entry that a statement has made. -/
theorem entry_of_moment {v : Value} {b : Assembler} (h : Feeds { labels := base } (ss.take i) asm)
    (hs : b.data = asm.data.push v) (he : Extends b asm') (hp : asm'.data.toList <+: p.data.toList) :
    p.data[(ss.take i).countP Statement.isConstant]? = some v := by
  obtain ⟨-, -, hsize⟩ := namesBefore_of_moment h
  obtain ⟨rest, hrest⟩ := he.data.trans hp
  rw [hs, Array.toList_push, List.append_assoc] at hrest
  rw [← hsize, ← Array.getElem?_toList, ← hrest, ← Array.length_toList]
  simp

/-- An integer constant is known where it is used. -/
theorem integer_of_feeds (h : Feeds { labels := base } ss asm) {payload : String}
    (hi : ss[i]? = some (.constant payload)) :
    ∃ n, (namesBefore base ss i).integer? payload = some n := by
  obtain ⟨b, b', hb, ht, -⟩ := h.moment hi
  cases ht with
  | @constant _ n _ hn => exact ⟨n, by rw [← (namesBefore_of_moment hb).1, hn]⟩

/-- The owner of an entry has the index of the entry as its word, and the entry holds the
constant. -/
theorem entry_of_owns {v : Value} (hf : Feeds { labels := base } ss asm)
    (h : finish entry asm = (.ok p, asm')) (ho : Owns base ss i v) :
    p.code[wordsBefore ss i]? = some (Int64.ofNat (place base ss i)) ∧
      p.data[place base ss i]? = some v := by
  obtain ⟨-, hdata, hword, -⟩ := finish_ok h
  have hpre : asm.data.toList <+: p.data.toList := ⟨_, hdata.symm⟩
  cases ho with
  | @text s hs =>
    obtain ⟨b, b', hb, ht, he⟩ := hf.moment hs
    rw [place_of_isConstant hs rfl, ← (namesBefore_of_moment hb).2.2]
    cases ht with
    | text =>
      refine ⟨hword _ _ (slot_of_moment hb rfl he).1, ?_⟩
      rw [(namesBefore_of_moment hb).2.2]
      exact entry_of_moment hb rfl he hpre
  | @constant payload n hs hn =>
    obtain ⟨b, b', hb, ht, he⟩ := hf.moment hs
    rw [place_of_isConstant hs rfl, ← (namesBefore_of_moment hb).2.2]
    cases ht with
    | constant hn' =>
      rw [(namesBefore_of_moment hb).1] at hn'
      cases hn'.symm.trans hn
      refine ⟨hword _ _ (slot_of_moment hb rfl he).1, ?_⟩
      rw [(namesBefore_of_moment hb).2.2]
      exact entry_of_moment hb rfl he hpre
  | @reference name v hs hv =>
    obtain ⟨b, b', hb, ht, he⟩ := hf.moment hs
    cases ht with
    | reference =>
      have hlabels : asm.labels = allNames base ss := hf.labels_eq
      obtain ⟨hslot, htake⟩ := slot_of_moment hb rfl he
      have hcount : ((asm.slots.toList.take (wordsBefore ss i)).countP fun s =>
          (s.constant? asm.labels).isSome) =
          (ss.take i).countP (Statement.sharesConstant (allNames base ss)) := by
        rw [htake, hlabels, hb.countP_slots (allNames base ss) (fun _ => rfl) (fun _ => rfl)]
        exact Nat.zero_add _
      obtain ⟨j, hj, hcode⟩ := constant_of_finish h hslot (by rwa [hlabels])
      have hplace : place base ss i = j := by
        rw [hj, place_of_reference hs, hcount, hf.data_size, Array.size_empty, Nat.zero_add]
      rw [hplace]
      exact hcode

/-- There are no other entries. -/
theorem surjOn_place (hf : Feeds { labels := base } ss asm)
    (h : finish entry asm = (.ok p, asm')) :
    Set.SurjOn (place base ss) {i | ∃ v, Owns base ss i v} {j | j < p.data.size} := by
  obtain ⟨-, hdata, -⟩ := finish_ok h
  have hlabels : asm.labels = allNames base ss := hf.labels_eq
  have hsize : p.data.size = ss.countP Statement.isConstant +
      ss.countP (Statement.sharesConstant (allNames base ss)) := by
    rw [← Array.length_toList, hdata, List.length_append, List.length_filterMap_eq_countP,
      Array.length_toList, hf.data_size, Array.size_empty, Nat.zero_add, hlabels,
      hf.countP_slots (allNames base ss) (fun _ => rfl) (fun _ => rfl)]
    exact congrArg _ (Nat.zero_add _)
  intro j (hj : j < p.data.size)
  rw [hsize] at hj
  by_cases hc : j < ss.countP Statement.isConstant
  · obtain ⟨i, s, hi, hs, hk⟩ := exists_countP_take_eq hc
    refine ⟨i, ?_, (place_of_isConstant hi hs).trans hk⟩
    cases s with
    | text t => exact ⟨_, .text hi⟩
    | constant payload =>
      obtain ⟨n, hn⟩ := integer_of_feeds hf hi
      exact ⟨_, .constant hi hn⟩
    | _ => cases hs
  · have hj' : j - ss.countP Statement.isConstant <
        ss.countP (Statement.sharesConstant (allNames base ss)) := by omega
    obtain ⟨i, s, hi, hs, hk⟩ := exists_countP_take_eq hj'
    cases s with
    | reference name =>
      refine ⟨i, ?_, by rw [place_of_reference hi, hk]; omega⟩
      rw [Statement.sharesConstant, Labels.constant?] at hs
      rcases hg : (allNames base ss).get? name with _ | (n | v) <;> rw [hg] at hs
      · cases hs
      · cases hs
      · exact ⟨v, .reference hi hg⟩
    | _ => cases hs

/-- What has been fed and finished is what the two passes make of it. -/
theorem isReference_of_feeds (hf : Feeds { labels := base } ss asm)
    (h : finish entry asm = (.ok p, asm')) : IsReference base ss entry p := by
  obtain ⟨hsize, hdata, hword, hname, hentry⟩ := finish_ok h
  have hlabels : asm.labels = allNames base ss := hf.labels_eq
  have hkept {b : Assembler} {name : String} {l : Label}
      (he : Extends b asm) (hl : b.labels.get? name = some l) :
      (allNames base ss).get? name = some l := hlabels ▸ he.labels name l hl
  constructor
  case size => rw [hsize, hf.slots_size, Array.size_empty, Nat.zero_add]
  case literal =>
    intro i n hi
    obtain ⟨b, b', hb, ht, he⟩ := hf.moment hi
    cases ht with
    | literal => exact hword _ _ (slot_of_moment hb rfl he).1
  case reference =>
    intro i name hi
    obtain ⟨b, b', hb, ht, he⟩ := hf.moment hi
    cases ht with
    | reference =>
      obtain ⟨l, hl, hw⟩ := hname _ _ (slot_of_moment hb rfl he).1
      refine ⟨l, hlabels ▸ hl, fun n hn => ?_⟩
      rw [hw, hn]
      rfl
  case constant => exact fun i payload hi => integer_of_feeds hf hi
  case label =>
    intro i name hi
    obtain ⟨b, b', hb, ht, he⟩ := hf.moment hi
    cases ht with
    | label hfresh =>
      refine hkept he ?_
      rw [Labels.get?_cons, if_pos rfl, (namesBefore_of_moment hb).2.1]
  case definition =>
    intro i name value hi
    obtain ⟨b, b', hb, ht, he⟩ := hf.moment hi
    cases ht with
    | @definition _ _ l _ hfresh hv =>
      refine ⟨l, by rw [← (namesBefore_of_moment hb).1, hv], hkept he ?_⟩
      rw [Labels.get?_cons, if_pos rfl]
  case entries =>
    refine ⟨place base ss, ⟨?_, injOn_place, surjOn_place hf h⟩, fun i v ho => entry_of_owns hf h ho⟩
    rintro i ⟨v, ho⟩
    exact (Array.getElem?_eq_some_iff.mp (entry_of_owns hf h ho).2).1
  case unchanged =>
    intro i name l hl
    rw [← List.take_append_drop i ss] at hf
    obtain ⟨b, hb, hrest⟩ := hf.split
    rw [← (namesBefore_of_moment hb).1] at hl
    exact hkept hrest.extends hl
  case entry => rwa [hlabels] at hentry

end

/-- Whatever the assembler accepts comes out as the two passes have it. -/
theorem isReference_of_assemble {source entry : String} {st : Store} {p : Program}
    (h : (assemble source entry st).1 = .ok p) :
    ∃ ts ss, tokens source.toList = .ok ts ∧ statements ts = some ss ∧
      IsReference (predefined ⟨st.lists.size⟩) ss entry p := by
  change ((do feed source; finish entry : Assembling Program)
    { labels := predefined ⟨st.lists.size⟩ }).1 = .ok p at h
  rcases hr : (do feed source; finish entry : Assembling Program)
    { labels := predefined ⟨st.lists.size⟩ } with ⟨r, asm'⟩
  rw [hr] at h
  obtain rfl : r = .ok p := h
  obtain ⟨_, asm, hfeed, hfinish⟩ := bind_eq_ok hr
  obtain ⟨ts, ss, ht, hs, hf⟩ := feeds_of_feed hfeed
  exact ⟨ts, ss, ht, hs, isReference_of_feeds hf hfinish⟩

/-- A name is used before it is declared, and there are two names for a constant. -/
theorem isReference_of_forward_use : ∃ p ts ss,
    (assemble "!define one 1 main: DATA later DATA $one !define Void Nil Void Nil later: \"x\""
      "main" {}).1 = .ok p ∧
    statements ts = some ss ∧
    ss = [.definition "one" "1", .label "main", .reference "DATA", .reference "later",
      .reference "DATA", .constant "one", .definition "Void" "Nil", .reference "Void",
      .reference "Nil", .label "later", .text "x"] ∧
    IsReference (predefined ⟨0⟩) ss "main" p := by
  have hsome : (assemble
      "!define one 1 main: DATA later DATA $one !define Void Nil Void Nil later: \"x\""
      "main" {}).1.toOption.isSome = true := by decide +kernel
  have hss : (tokens
      "!define one 1 main: DATA later DATA $one !define Void Nil Void Nil later: \"x\"".toList
      ).toOption.bind statements =
      some [.definition "one" "1", .label "main", .reference "DATA", .reference "later",
        .reference "DATA", .constant "one", .definition "Void" "Nil", .reference "Void",
        .reference "Nil", .label "later", .text "x"] := by decide +kernel
  rcases hp : (assemble
      "!define one 1 main: DATA later DATA $one !define Void Nil Void Nil later: \"x\""
      "main" {}).1 with e | p
  · rw [hp] at hsome
    cases hsome
  · obtain ⟨ts, ss, ht, hs, h⟩ := isReference_of_assemble hp
    rw [ht] at hss
    exact ⟨p, ts, ss, rfl, hs, Option.some.inj (hs.symm.trans hss), h⟩

end Assembler

end LispEngines
