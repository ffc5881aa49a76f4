import LispEngines.Proofs.Reader.Reading
import Mathlib.Data.List.Infix

/-!
# The line of an unmatched parenthesis

Where a source closes a parenthesis that is not open, the message names a line.  It is the line of
that parenthesis if no string before it has a backslash at the end of a line; each
newline that such a backslash takes is left out of the count, and the line named is that much too
small (`Reader.line_of_unexpectedClose`).

* `Text.Inside`: what stands between the quotes of a string, and how many newlines a backslash
  takes in it.
* `Reader.Passed`: a text that ends outside strings and comments, its characters outside of them, and
  how many newlines are taken in its strings.
* `Reader.Opens`: so many parentheses are left open, and none is closed that is not open.
* `Reader.Stands`: what the count knows after a text, said in these terms.
-/

namespace LispEngines

/-! ## Strings as they are written -/

/-- The characters between the quotes of a string, those that are left of them without the
backslashes, and the number of newlines that a backslash takes. -/
inductive Text.Inside : List Char → List Char → Nat → Prop
  | nil : Inside [] [] 0
  | plain {raw content : List Char} {k : Nat} {c : Char} (h : Inside raw content k) (hq : c ≠ '"')
      (hb : c ≠ '\\') : Inside (raw ++ [c]) (content ++ [c]) k
  | taken {raw content : List Char} {k : Nat} (h : Inside raw content k) (c : Char) :
      Inside (raw ++ ['\\', c]) (content ++ [c]) (k + [c].count '\n')

namespace Reader

variable {cs bs body raw content : List Char} {c : Char} {d e n k line : Nat} {b b' : Balance}

/-! ## A text up to a parenthesis -/

/-- A text that ends outside strings and comments; the characters outside of them; and the number
of newlines that backslashes take in its strings. -/
inductive Passed : List Char → List Char → Nat → Prop
  | start : Passed [] [] 0
  | bare {cs bs : List Char} {n : Nat} {c : Char} (h : Passed cs bs n) (hs : c ≠ ';')
      (hq : c ≠ '"') : Passed (cs ++ [c]) (bs ++ [c]) n
  | remark {cs bs body : List Char} {n : Nat} (h : Passed cs bs n) (hb : '\n' ∉ body) :
      Passed (cs ++ ';' :: (body ++ ['\n'])) bs n
  | string {cs bs raw content : List Char} {n k : Nat} (h : Passed cs bs n)
      (hi : Text.Inside raw content k) : Passed (cs ++ '"' :: (raw ++ ['"'])) bs (n + k)

/-- So many parentheses are open in the end, and none is closed that is not open. -/
structure Opens (d : Nat) (bs : List Char) : Prop where
  count : bs.count '(' = bs.count ')' + d
  before : ∀ p, p <+: bs → p.count ')' ≤ p.count '('

theorem Opens.nil : Opens 0 [] :=
  ⟨rfl, fun p hp => by rw [List.prefix_nil.mp hp]; exact Nat.le_refl 0⟩

/-- One more character, if it closes nothing that is not open. -/
theorem Opens.snoc (h : Opens d bs) (c : Char)
    (he : d + [c].count '(' = e + [c].count ')') : Opens e (bs ++ [c]) := by
  have hcount : (bs ++ [c]).count '(' = (bs ++ [c]).count ')' + e := by
    have := h.count
    rw [List.count_append, List.count_append]
    omega
  refine ⟨hcount, fun p hp => ?_⟩
  rcases List.prefix_concat_iff.mp hp with rfl | hp
  · omega
  · exact h.before p hp

theorem Opens.other (h : Opens d bs) (ho : c ≠ '(') (hc : c ≠ ')') : Opens d (bs ++ [c]) :=
  h.snoc c (by rw [List.count_singleton, List.count_singleton]; simp [ho, hc])

/-! ## What the count knows -/

/-- What the count knows after a text. -/
inductive Stands : List Char → Balance → Prop
  | code {cs bs : List Char} {d n line : Nat} (h : Passed cs bs n) (ho : Opens d bs)
      (hl : line + n = 1 + cs.count '\n') : Stands cs ⟨.code, d, line⟩
  | comment {cs bs body : List Char} {d n line : Nat} (h : Passed cs bs n) (ho : Opens d bs)
      (hl : line + n = 1 + cs.count '\n') (hb : '\n' ∉ body) :
      Stands (cs ++ ';' :: body) ⟨.comment, d, line⟩
  | quoted {cs bs raw content : List Char} {d n k line : Nat} (h : Passed cs bs n)
      (ho : Opens d bs) (hi : Text.Inside raw content k)
      (hl : line + n + k = 1 + cs.count '\n' + raw.count '\n') :
      Stands (cs ++ '"' :: raw) ⟨.quoted, d, line⟩
  | escaped {cs bs raw content : List Char} {d n k line : Nat} (h : Passed cs bs n)
      (ho : Opens d bs) (hi : Text.Inside raw content k)
      (hl : line + n + k = 1 + cs.count '\n' + raw.count '\n') :
      Stands (cs ++ '"' :: (raw ++ ['\\'])) ⟨.escaped, d, line⟩

theorem Stands.start : Stands [] {} := .code .start .nil rfl

theorem count_newline_append (cs : List Char) (hc : c ≠ '\n') (ds : List Char) :
    (cs ++ c :: ds).count '\n' = cs.count '\n' + ds.count '\n' := by
  rw [List.count_append, List.count_cons_of_ne hc]

/-- One more character that the count takes. -/
theorem Stands.next (h : Stands cs b) (hn : b.next c = .ok b') : Stands (cs ++ [c]) b' := by
  unfold Balance.next at hn
  cases h with
  | @code _ bs d n line h ho hl =>
    have hother (hc : c ≠ '\n') : line + n = 1 + (cs ++ [c]).count '\n' := by
      rw [count_newline_append cs hc, hl]
      rfl
    dsimp only at hn
    split at hn
    · cases hn
      refine .code (h.bare (by decide) (by decide)) (ho.other (by decide) (by decide)) ?_
      simp
      omega
    · cases hn
      exact .comment h ho hl List.not_mem_nil
    · cases hn
      exact .quoted h ho .nil hl
    · cases hn
      exact .code (h.bare (by decide) (by decide)) (ho.snoc _ rfl) (hother (by decide))
    · split at hn
      · cases hn
      · cases hn
        exact .code (h.bare (by decide) (by decide)) (ho.snoc _ rfl) (hother (by decide))
    · cases hn
      rename_i hnl hs hq hopen hclose
      exact .code (h.bare hs hq) (ho.other hopen hclose) (hother hnl)
  | comment h ho hl hb =>
    dsimp only at hn
    split at hn
    · subst c
      cases hn
      rw [List.append_assoc, List.cons_append]
      refine .code (h.remark hb) ho ?_
      rw [count_newline_append _ (by decide), List.count_append, List.count_eq_zero.mpr hb]
      simp
      omega
    · cases hn
      rw [List.append_assoc, List.cons_append]
      refine .comment h ho hl fun hm => ?_
      rcases List.mem_append.mp hm with hm | hm
      · exact hb hm
      · exact absurd (List.mem_singleton.mp hm).symm ‹_›
  | quoted h ho hi hl =>
    rw [List.append_assoc, List.cons_append]
    dsimp only at hn
    split at hn
    · cases hn
      exact .escaped h ho hi hl
    · cases hn
      refine .code (h.string hi) ho ?_
      rw [count_newline_append _ (by decide), count_newline_append _ (by decide)]
      simp
      omega
    · cases hn
      refine .quoted h ho (hi.plain (by decide) (by decide)) ?_
      simp
      omega
    · cases hn
      rename_i hb hq hnl
      refine .quoted h ho (hi.plain hq hb) ?_
      rw [count_newline_append _ hnl]
      simpa using hl
  | @escaped cs bs raw content d n k line h ho hi hl =>
    cases hn
    rw [List.append_assoc, List.cons_append, List.append_assoc]
    refine .quoted h ho (hi.taken c) ?_
    rw [List.singleton_append, count_newline_append _ (by decide)]
    show line + n + _ = _
    omega

/-- A parenthesis that the count does not take. -/
theorem Stands.error {err : ReadError} (h : Stands cs b) (hn : b.next c = .error err) :
    c = ')' ∧ ∃ bs n line, err = .unexpectedClose line ∧ Passed cs bs n ∧ Opens 0 bs ∧
      line + n = 1 + cs.count '\n' := by
  unfold Balance.next at hn
  cases h with
  | code h ho hl =>
    dsimp only at hn
    split at hn <;> try cases hn
    split at hn
    · cases hn
      exact ⟨rfl, _, _, _, rfl, h, ho, hl⟩
    · cases hn
  | comment | quoted =>
    dsimp only at hn
    split at hn <;> cases hn
  | escaped => cases hn

/-- The parenthesis at which the count stops. -/
theorem Stands.exists_error {err : ReadError} (h : Stands cs b) {ds : List Char}
    (hd : ds.foldlM Balance.next b = .error err) :
    ∃ pre post bs n line, cs ++ ds = pre ++ ')' :: post ∧ err = .unexpectedClose line ∧
      Passed pre bs n ∧ Opens 0 bs ∧ line + n = 1 + pre.count '\n' := by
  induction ds generalizing cs b with
  | nil => cases hd
  | cons c ds ih =>
    rw [List.foldlM_cons] at hd
    rcases hn : b.next c with e | b' <;> rw [hn] at hd
    · cases hd
      obtain ⟨rfl, bs, n, line, he, hrest⟩ := h.error hn
      exact ⟨cs, ds, bs, n, line, rfl, he, hrest⟩
    · have := ih (h.next hn) hd
      rwa [List.append_assoc] at this

/-! ## What the reader says -/

/-- Only the count of parentheses complains of a closing one. -/
theorem checkBalance_of_unexpectedClose {source : String}
    (h : Form.ofSource source = .error (.unexpectedClose line)) :
    checkBalance source.toList = .error (.unexpectedClose line) := by
  obtain ⟨ls, o, hd⟩ := exists_divides source.toList
  have hu : Unbalanced ls := hd.outcome.unbalanced.mp (.inl ⟨line, h⟩)
  obtain ⟨hnone, hsome⟩ := hd.balance
  rw [ofSource_stages] at h
  cases hdepth : depthAfter ls 0 with
  | none =>
    obtain ⟨line', hc⟩ := hnone hdepth
    rw [hc] at h ⊢
    cases h
    rfl
  | some d =>
    have hne : d ≠ 0 := fun he => unbalanced_iff.mp hu (he ▸ hdepth)
    rw [hsome d hdepth, if_neg hne] at h
    cases h

/-- **The line of an unmatched parenthesis**: the first parenthesis that is closed without being open
is on the line that is reported, or, where backslashes take newlines in strings before it, as many
lines further down. -/
theorem line_of_unexpectedClose {source : String}
    (h : Form.ofSource source = .error (.unexpectedClose line)) :
    ∃ pre post bs n, source.toList = pre ++ ')' :: post ∧ Passed pre bs n ∧ Opens 0 bs ∧
      line + n = 1 + pre.count '\n' := by
  have hc := checkBalance_of_unexpectedClose h
  unfold checkBalance at hc
  rcases hf : source.toList.foldlM Balance.next {} with e | b <;> rw [hf] at hc
  · cases hc
    obtain ⟨pre, post, bs, n, _, hs, he, hrest⟩ := Stands.start.exists_error hf
    cases he
    exact ⟨pre, post, bs, n, hs, hrest⟩
  · change (if b.depth = 0 then pure () else throw (.unclosed b.depth) :
      Except ReadError Unit) = _ at hc
    split at hc <;> cases hc

end Reader

end LispEngines
