import LispEngines.Proofs.Reader.Division
import LispEngines.Reader.Form
import Mathlib.Algebra.Group.Int.Defs
import Mathlib.Data.List.Count

/-!
# What lexemes spell

`Reads` gives lexemes their forms: one form for a word, one for a string, and one for a pair of
parentheses with what stands between them.  Lexemes can fail to spell forms for two reasons only.
Their parentheses do not match (`Unbalanced`), or some numeral among them is out of range
(`OutOfRange`).

The forms are unique (`Reads.unique`), the stack of open lists finds them (`Reads.ofLexemes_eq`),
and where neither reason holds they exist (`exists_reads`).
-/

namespace LispEngines.Reader

variable {ls pre : List Lexeme} {fs : List Form} {w : String} {d e : Nat}

/-! ## Numerals -/

/-- A numeral whose number does not fit into 64 bits. -/
def OutOfRange (w : String) : Prop :=
  Form.isNumeral w.toList = true ∧
    ∃ i, Text.integer? w = some i ∧ ¬(-(2 ^ 63) ≤ i ∧ i < 2 ^ 63)

/-- Digits and the number they denote. -/
theorem digits?_eq_some_iff {cs : List Char} {n : Nat} : Text.digits? cs = some n ↔
    cs ≠ [] ∧ cs.all Char.isDigit = true ∧
      cs.foldl (fun n c => 10 * n + (c.toNat - '0'.toNat)) 0 = n := by
  rw [Text.digits?]
  by_cases hne : cs = []
  · simp [hne]
  · by_cases hall : cs.all Char.isDigit = true
    · simp [hne, hall]
    · simp [hall]

/-- Digits have a number. -/
theorem digits?_isSome {cs : List Char} (h : (!cs.isEmpty && cs.all Char.isDigit) = true) :
    ∃ n, Text.digits? cs = some n := by
  rw [Bool.and_eq_true, Bool.not_eq_true', List.isEmpty_eq_false_iff] at h
  exact ⟨_, digits?_eq_some_iff.mpr ⟨h.1, h.2, rfl⟩⟩

/-- A numeral has a number. -/
theorem exists_integer (h : Form.isNumeral w.toList = true) : ∃ i, Text.integer? w = some i := by
  unfold Form.isNumeral at h
  unfold Text.integer?
  split at h
  · obtain ⟨n, hn⟩ := digits?_isSome h
    rename_i cs hcs
    rw [hcs]
    show ∃ i, (Text.digits? cs).map (fun n => -(n : Int)) = some i
    rw [hn]
    exact ⟨-n, rfl⟩
  · obtain ⟨n, hn⟩ := digits?_isSome h
    rename_i hminus
    split
    · exact absurd ‹_› (hminus _)
    · -- a plus sign is no digit
      rename_i cs hcs
      rw [hcs] at h
      cases h
    · exact ⟨n, by rw [hn]; rfl⟩

theorem signed64?_toInt (n : Int64) : Text.signed64? n.toInt = some n := by
  unfold Text.signed64?
  rw [if_pos ⟨n.le_toInt, n.toInt_lt⟩, Int64.ofInt_toInt]

/-- A word is a symbol, or a number, or out of range. -/
theorem word_cases (w : String) : Form.isNumeral w.toList = false ∨
    (Form.isNumeral w.toList = true ∧ ∃ n : Int64, Text.integer? w = some n.toInt) ∨
    OutOfRange w := by
  by_cases h : Form.isNumeral w.toList = true
  · obtain ⟨i, hi⟩ := exists_integer h
    by_cases hb : -(2 ^ 63) ≤ i ∧ i < 2 ^ 63
    · refine .inr (.inl ⟨h, Int64.ofInt i, hi.trans (congrArg some ?_)⟩)
      exact (Int64.toInt_ofInt_of_le hb.1 hb.2).symm
    · exact .inr (.inr ⟨h, i, hi, hb⟩)
  · exact .inl (by simpa using h)

theorem ofWord_symbol (h : Form.isNumeral w.toList = false) :
    Form.ofWord w = .ok (.symbol w) := by
  rw [Form.ofWord, if_neg (by simp [h])]

theorem ofWord_number {n : Int64} (h : Form.isNumeral w.toList = true)
    (hn : Text.integer? w = some n.toInt) : Form.ofWord w = .ok (.number n) := by
  rw [Form.ofWord, if_pos h, Text.int64?, hn, Option.bind_some, signed64?_toInt]

theorem ofWord_outOfRange (h : OutOfRange w) : Form.ofWord w = .error (.outOfRange w) := by
  obtain ⟨h, i, hi, hb⟩ := h
  rw [Form.ofWord, if_pos h, Text.int64?, hi, Option.bind_some, Text.signed64?, if_neg hb]

/-- A word with a form is added to the innermost open list. -/
theorem nest_word {f : Form} (hf : Form.ofWord w = .ok f) (n : Form.Nest) :
    n.next (.word w) = .ok (n.add f) := by
  show (do return n.add (← Form.ofWord w) : Except ReadError Form.Nest) = _
  rw [hf]
  rfl

/-! ## Parentheses -/

/-- Some parenthesis is closed that is not open, or some stays open. -/
def Unbalanced (ls : List Lexeme) : Prop :=
  (∃ pre post, ls = pre ++ .closing :: post ∧ pre.count .opening ≤ pre.count .closing) ∨
  ls.count .closing < ls.count .opening

/-- The count stops at a parenthesis that is closed without being open. -/
theorem depthAfter_eq_none (h : depthAfter ls d = none) :
    ∃ pre post, ls = pre ++ .closing :: post ∧
      d + pre.count .opening ≤ pre.count .closing := by
  induction ls generalizing d with
  | nil => cases h
  | cons l ls ih =>
    -- one more lexeme in front of those before the parenthesis
    have hcons {e : Nat} (he : depthAfter ls e = none)
        (hl : d + [l].count .opening ≤ e + [l].count .closing) :
        ∃ pre post, l :: ls = pre ++ .closing :: post ∧
          d + pre.count .opening ≤ pre.count .closing := by
      obtain ⟨pre, post, rfl, hc⟩ := ih he
      refine ⟨l :: pre, post, rfl, ?_⟩
      rw [← List.singleton_append, List.count_append, List.count_append]
      omega
    cases l with
    | closing =>
      cases d with
      | zero => exact ⟨[], ls, rfl, Nat.le_refl 0⟩
      | succ d => exact hcons h (Nat.le_refl (d + 1))
    | _ => exact hcons h (Nat.le_refl _)

/-- The count ends at the difference of the opening and the closing parentheses. -/
theorem count_of_depthAfter (h : depthAfter ls d = some e) :
    d + ls.count .opening = e + ls.count .closing := by
  induction ls generalizing d with
  | nil => exact congrArg (· + 0) (Option.some.inj h)
  | cons l ls ih =>
    have hcons {d' : Nat} (hd : depthAfter ls d' = some e)
        (hl : d + [l].count .opening = d' + [l].count .closing) :
        d + (l :: ls).count .opening = e + (l :: ls).count .closing := by
      have := ih hd
      rw [← List.singleton_append, List.count_append, List.count_append]
      omega
    cases l with
    | closing =>
      cases d with
      | zero => cases h
      | succ d => exact hcons h rfl
    | _ => exact hcons h rfl

theorem depthAfter_append (ls ls' : List Lexeme) (d : Nat) :
    depthAfter (ls ++ ls') d = (depthAfter ls d).bind (depthAfter ls') := by
  induction ls generalizing d with
  | nil => rfl
  | cons l ls ih =>
    cases l with
    | closing =>
      cases d with
      | zero => rfl
      | succ d => exact ih d
    | _ => exact ih _

/-- The parentheses match exactly when the count ends at nothing. -/
theorem unbalanced_iff : Unbalanced ls ↔ depthAfter ls 0 ≠ some 0 := by
  constructor
  · rintro (⟨pre, post, rfl, hc⟩ | hc) h
    · rw [depthAfter_append] at h
      obtain ⟨d, hd, h⟩ := Option.bind_eq_some_iff.mp h
      cases d with
      | zero => cases h
      | succ d =>
        have := count_of_depthAfter hd
        omega
    · have := count_of_depthAfter h
      omega
  · intro h
    cases hd : depthAfter ls 0 with
    | none =>
      obtain ⟨pre, post, rfl, hc⟩ := depthAfter_eq_none hd
      exact .inl ⟨pre, post, rfl, by omega⟩
    | some e =>
      have he : e ≠ 0 := fun he => h (hd.trans (congrArg some he))
      have := count_of_depthAfter hd
      exact .inr (by omega)

/-! ## Forms -/

/-- The forms that lexemes spell. -/
inductive Reads : List Lexeme → List Form → Prop
  | nil : Reads [] []
  | symbol {w : String} {ls : List Lexeme} {fs : List Form}
      (hw : Form.isNumeral w.toList = false) (h : Reads ls fs) :
      Reads (.word w :: ls) (.symbol w :: fs)
  | number {w : String} {n : Int64} {ls : List Lexeme} {fs : List Form}
      (hw : Form.isNumeral w.toList = true) (hn : Text.integer? w = some n.toInt)
      (h : Reads ls fs) : Reads (.word w :: ls) (.number n :: fs)
  | text {s : String} {ls : List Lexeme} {fs : List Form} (h : Reads ls fs) :
      Reads (.quoted s :: ls) (.text s :: fs)
  | list {inner ls : List Lexeme} {items fs : List Form} (hi : Reads inner items)
      (h : Reads ls fs) : Reads (.opening :: (inner ++ .closing :: ls)) (.list items :: fs)

/-- The stack of open lists gets the forms on its innermost list. -/
theorem Reads.foldlM (h : Reads ls fs) (n : Form.Nest) :
    ls.foldlM Form.Nest.next n = .ok ⟨fs.reverse ++ n.inner, n.outer⟩ := by
  induction h generalizing n with
  | nil => rfl
  | @symbol w ls fs hw _ ih =>
    rw [List.foldlM_cons, nest_word (ofWord_symbol hw)]
    refine (ih (n.add (.symbol w))).trans ?_
    rw [List.reverse_cons, List.append_assoc]
    rfl
  | @number w i ls fs hw hi _ ih =>
    rw [List.foldlM_cons, nest_word (ofWord_number hw hi)]
    refine (ih (n.add (.number i))).trans ?_
    rw [List.reverse_cons, List.append_assoc]
    rfl
  | @text s ls fs _ ih =>
    refine (ih (n.add (.text s))).trans ?_
    rw [List.reverse_cons, List.append_assoc]
    rfl
  | @list inner ls items fs _ _ ihi ih =>
    show (inner ++ .closing :: ls).foldlM Form.Nest.next ⟨[], n.inner :: n.outer⟩ = _
    rw [List.foldlM_append, ihi]
    show ls.foldlM Form.Nest.next
      ⟨.list (items.reverse ++ []).reverse :: n.inner, n.outer⟩ = _
    rw [List.append_nil, List.reverse_reverse, ih, List.reverse_cons, List.append_assoc]
    rfl

theorem Reads.ofLexemes_eq (h : Reads ls fs) : Form.ofLexemes ls = .ok fs := by
  unfold Form.ofLexemes
  rw [h.foldlM]
  show Except.ok (fs.reverse ++ []).reverse = _
  rw [List.append_nil, List.reverse_reverse]

/-- Lexemes spell one sequence of forms. -/
theorem Reads.unique {fs' : List Form} (h : Reads ls fs) (h' : Reads ls fs') : fs' = fs :=
  Except.ok.inj (h'.ofLexemes_eq.symm.trans h.ofLexemes_eq)

/-! ## Where no numeral is out of range -/

/-- No numeral is out of range. -/
def InRange (ls : List Lexeme) : Prop := ∀ w, .word w ∈ ls → ¬OutOfRange w

/-- Lexemes that spell the rest of so many open lists, and what follows each. -/
inductive ReadsOpen : Nat → List Lexeme → Prop
  | none {ls : List Lexeme} {fs : List Form} (h : Reads ls fs) : ReadsOpen 0 ls
  | one {d : Nat} {inner ls : List Lexeme} {items : List Form} (hi : Reads inner items)
      (h : ReadsOpen d ls) : ReadsOpen (d + 1) (inner ++ .closing :: ls)

/-- One more form before the rest. -/
theorem ReadsOpen.prepend (h : ReadsOpen d ls) (pre : List Lexeme)
    (hp : ∀ ls fs, Reads ls fs → ∃ gs, Reads (pre ++ ls) gs) : ReadsOpen d (pre ++ ls) := by
  cases h with
  | none h =>
    obtain ⟨gs, hg⟩ := hp _ _ h
    exact .none hg
  | one hi h =>
    obtain ⟨gs, hg⟩ := hp _ _ hi
    rw [← List.append_assoc]
    exact .one hg h

theorem readsOpen_of_depthAfter (hr : InRange ls) (hd : depthAfter ls d = some 0) :
    ReadsOpen d ls := by
  induction ls generalizing d with
  | nil =>
    obtain rfl := Option.some.inj hd
    exact .none .nil
  | cons l ls ih =>
    have hr' : InRange ls := fun w hw => hr w (List.mem_cons_of_mem _ hw)
    cases l with
    | opening =>
      -- the innermost of the open lists ends where this one does
      cases ih hr' hd with
      | @one d inner ls items hi h =>
        have hp := h.prepend (.opening :: (inner ++ [.closing])) fun ls fs hl =>
          ⟨.list items :: fs, by
            rw [List.cons_append, List.append_assoc]
            exact .list hi hl⟩
        rwa [List.cons_append, List.append_assoc] at hp
    | closing =>
      cases d with
      | zero => cases hd
      | succ d => exact .one .nil (ih hr' hd)
    | quoted s => exact (ih hr' hd).prepend [.quoted s] fun ls fs hl => ⟨_, .text hl⟩
    | word w =>
      refine (ih hr' hd).prepend [.word w] fun ls fs hl => ?_
      rcases word_cases w with hw | ⟨hw, n, hn⟩ | hw
      · exact ⟨_, .symbol hw hl⟩
      · exact ⟨_, .number hw hn hl⟩
      · exact absurd hw (hr w (List.mem_cons_self ..))

/-- Lexemes spell forms if their parentheses match and no numeral is out of range. -/
theorem exists_reads (hb : ¬Unbalanced ls) (hr : InRange ls) : ∃ fs, Reads ls fs := by
  rw [unbalanced_iff, not_not] at hb
  cases readsOpen_of_depthAfter hr hb with
  | none h => exact ⟨_, h⟩

/-! ## Where a numeral is out of range -/

/-- The first numeral that is out of range. -/
def FirstOutOfRange (ls : List Lexeme) (w : String) : Prop :=
  ∃ pre post, ls = pre ++ .word w :: post ∧ InRange pre ∧ OutOfRange w

theorem inRange_or_exists (ls : List Lexeme) : InRange ls ∨ ∃ w, FirstOutOfRange ls w := by
  induction ls with
  | nil => exact .inl fun _ hw => absurd hw List.not_mem_nil
  | cons l ls ih =>
    by_cases hl : ∃ w, l = .word w ∧ OutOfRange w
    · obtain ⟨w, rfl, hw⟩ := hl
      exact .inr ⟨w, [], ls, rfl, fun _ hv => absurd hv List.not_mem_nil, hw⟩
    · have hl' (w : String) (hw : .word w = l) : ¬OutOfRange w := fun ho => hl ⟨w, hw.symm, ho⟩
      rcases ih with h | ⟨w, pre, post, rfl, hpre, hw⟩
      · exact .inl fun w hw => (List.mem_cons.mp hw).elim (hl' w) (h w)
      · exact .inr ⟨w, l :: pre, post, rfl,
          fun v hv => (List.mem_cons.mp hv).elim (hl' v) (hpre v), hw⟩

/-- Up to a numeral that is out of range, the stack of open lists gets no error. -/
theorem exists_nest (hr : InRange ls) {n : Form.Nest}
    (hd : depthAfter ls n.outer.length = some d) :
    ∃ n', ls.foldlM Form.Nest.next n = .ok n' ∧ n'.outer.length = d := by
  induction ls generalizing n with
  | nil => exact ⟨n, rfl, Option.some.inj hd⟩
  | cons l ls ih =>
    have hr' : InRange ls := fun w hw => hr w (List.mem_cons_of_mem _ hw)
    cases l with
    | opening => exact @ih hr' ⟨[], n.inner :: n.outer⟩ hd
    | closing =>
      obtain ⟨inner, outer⟩ := n
      cases outer with
      | nil => cases hd
      | cons parent outer => exact @ih hr' ⟨.list inner.reverse :: parent, outer⟩ hd
    | quoted s => exact @ih hr' (n.add (.text s)) hd
    | word w =>
      obtain ⟨f, hf⟩ : ∃ f, Form.ofWord w = .ok f := by
        rcases word_cases w with hw | ⟨hw, i, hi⟩ | hw
        · exact ⟨_, ofWord_symbol hw⟩
        · exact ⟨_, ofWord_number hw hi⟩
        · exact absurd hw (hr w (List.mem_cons_self ..))
      rw [List.foldlM_cons, nest_word hf]
      exact @ih hr' (n.add f) hd

/-- The first numeral that is out of range is the one that is reported. -/
theorem ofLexemes_of_outOfRange (hb : ¬Unbalanced ls) (h : FirstOutOfRange ls w) :
    Form.ofLexemes ls = .error (.outOfRange w) := by
  obtain ⟨pre, post, rfl, hpre, hw⟩ := h
  rw [unbalanced_iff, not_not, depthAfter_append] at hb
  obtain ⟨d, hd, -⟩ := Option.bind_eq_some_iff.mp hb
  obtain ⟨n, hn, -⟩ := exists_nest hpre (n := {}) hd
  have he : Form.Nest.next n (.word w) = .error (.outOfRange w) := by
    show (do return n.add (← Form.ofWord w) : Except ReadError Form.Nest) = _
    rw [ofWord_outOfRange hw]
    rfl
  unfold Form.ofLexemes
  rw [List.foldlM_append, hn]
  show ((Form.Nest.next n (.word w) >>= fun n => post.foldlM Form.Nest.next n) >>=
    Form.Nest.finish) = _
  rw [he]
  rfl

end LispEngines.Reader
