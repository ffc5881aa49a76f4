import LispEngines.Proofs.Reader.Parsing

/-!
# What becomes of a source

Reading a source has five ends, and `Outcome` gives the condition of each in terms of the division
of the source.  The first condition that fails decides: the parentheses match, the source does not
end inside a string, no numeral is out of range.  Where all of them hold the source has its forms.

`ofSource_outcome` states this for every source.  That the parentheses are counted by a scanner of
their own, before the grammar sees the source, is thereby without consequence: where they match, the
grammar takes the source exactly if it does not end inside a string, and its parse has the forms
that are returned.
-/

namespace LispEngines.Reader

variable {source w : String} {ls : List Lexeme} {fs : List Form} {o : Bool}

/-! ## The stages of reading -/

theorem ofSource_stages (source : String) : Form.ofSource source =
    (checkBalance source.toList >>= fun _ => match lexemes? source.toList with
      | some ls => Form.ofLexemes ls
      | none => .error .unterminated) := rfl

/-- Where the parentheses do not match, nothing else is looked at. -/
theorem ofSource_of_unbalanced (h : Divides source.toList ls o) (hu : Unbalanced ls) :
    (∃ line, Form.ofSource source = .error (.unexpectedClose line)) ∨
    ∃ count, Form.ofSource source = .error (.unclosed count) := by
  obtain ⟨hnone, hsome⟩ := h.balance
  have hrefused {e : ReadError} (he : checkBalance source.toList = .error e) :
      Form.ofSource source = .error e := by
    rw [ofSource_stages, he]
    rfl
  cases hd : depthAfter ls 0 with
  | none =>
    obtain ⟨line, hl⟩ := hnone hd
    exact .inl ⟨line, hrefused hl⟩
  | some d =>
    have hb := hsome d hd
    rw [if_neg] at hb
    · exact .inr ⟨d, hrefused hb⟩
    · rintro rfl
      exact unbalanced_iff.mp hu hd

/-- Where they match, the lexemes decide. -/
theorem ofSource_of_balanced (h : Divides source.toList ls o) (hb : ¬Unbalanced ls) :
    Form.ofSource source = if o then .error .unterminated else Form.ofLexemes ls := by
  rw [unbalanced_iff, not_not] at hb
  have hc : checkBalance source.toList = .ok () := h.balance.2 0 hb
  rw [ofSource_stages, hc, h.lexemes?_eq]
  cases o <;> rfl

/-- A source has the forms of its lexemes. -/
theorem ofSource_of_reads (h : Divides source.toList ls false) (hb : ¬Unbalanced ls)
    (hr : Reads ls fs) : Form.ofSource source = .ok fs :=
  (ofSource_of_balanced h hb).trans hr.ofLexemes_eq

/-! ## The ends of reading -/

/-- What the reading of a source with this division comes to. -/
structure Outcome (cs : List Char) (ls : List Lexeme) (o : Bool)
    (r : Except ReadError (List Form)) : Prop where
  /-- The parentheses do not match. -/
  unbalanced : ((∃ line, r = .error (.unexpectedClose line)) ∨
    ∃ count, r = .error (.unclosed count)) ↔ Unbalanced ls
  /-- They do, but the source ends inside a string. -/
  unterminated : r = .error .unterminated ↔ ¬Unbalanced ls ∧ o = true
  /-- It does not, but this numeral is the first that is out of range. -/
  outOfRange : ∀ w, r = .error (.outOfRange w) ↔
    ¬Unbalanced ls ∧ o = false ∧ FirstOutOfRange ls w
  /-- None is out of range. -/
  forms : (∃ fs, r = .ok fs) ↔ ¬Unbalanced ls ∧ o = false ∧ InRange ls
  /-- The forms are those that the lexemes spell, and they spell no others. -/
  spelt : ∀ fs, r = .ok fs → ∀ fs', Reads ls fs' ↔ fs' = fs
  /-- The grammar refuses what ends inside a string. -/
  refused : ¬Unbalanced ls → o = true → Parses grammar (.rule .program) cs none
  /-- The grammar takes everything else, and its parse gives the same forms and errors. -/
  taken : ¬Unbalanced ls → o = false → ∃ ts,
    Parses grammar (.rule .program) cs (some ([.node .program cs ts], [])) ∧ r = formsOf ts

/-- Lexemes of which none is out of range have no first one that is. -/
theorem InRange.not_first (hr : InRange ls) : ¬FirstOutOfRange ls w := by
  rintro ⟨pre, post, rfl, -, hw⟩
  exact hr w (by simp) hw

/-- The first numeral that is out of range is one only. -/
theorem FirstOutOfRange.unique {w' : String} (hb : ¬Unbalanced ls) (h : FirstOutOfRange ls w)
    (h' : FirstOutOfRange ls w') : w' = w := by
  have he := (ofLexemes_of_outOfRange hb h').symm.trans (ofLexemes_of_outOfRange hb h)
  cases he
  rfl

theorem Divides.outcome (h : Divides source.toList ls o) :
    Outcome source.toList ls o (Form.ofSource source) := by
  by_cases hu : Unbalanced ls
  · have hn {P : Prop} (h : ¬Unbalanced ls) : P := absurd hu h
    rcases ofSource_of_unbalanced h hu with ⟨line, hr⟩ | ⟨count, hr⟩ <;> rw [hr]
    all_goals exact
      { unbalanced := iff_of_true (by simp) hu
        unterminated := iff_of_false nofun fun h => hn h.1
        outOfRange := fun _ => iff_of_false nofun fun h => hn h.1
        forms := iff_of_false nofun fun h => hn h.1
        spelt := nofun
        refused := hn
        taken := hn }
  have hr := ofSource_of_balanced h hu
  rcases h.parses hu with ⟨rfl, hp⟩ | ⟨rfl, ts, hp, hts⟩
  · rw [hr, if_pos rfl]
    exact
      { unbalanced := iff_of_false (by simp) hu
        unterminated := iff_of_true rfl ⟨hu, rfl⟩
        outOfRange := fun _ => iff_of_false nofun nofun
        forms := iff_of_false nofun nofun
        spelt := nofun
        refused := fun _ _ => hp
        taken := nofun }
  replace hr : Form.ofSource source = Form.ofLexemes ls := hr
  rw [hr]
  rcases inRange_or_exists ls with hin | ⟨w, hw⟩
  · obtain ⟨fs, hfs⟩ := exists_reads hu hin
    have hok := hfs.ofLexemes_eq
    refine
      { unbalanced := iff_of_false (by simp [hok]) hu
        unterminated := iff_of_false (by simp [hok]) nofun
        outOfRange := fun _ => iff_of_false (by simp [hok]) fun h => hin.not_first h.2.2
        forms := iff_of_true ⟨fs, hok⟩ ⟨hu, rfl, hin⟩
        spelt := fun fs' h' => ?_
        refused := nofun
        taken := fun _ _ => ⟨ts, hp, hts⟩ }
    cases hok.symm.trans h'
    refine fun fs' => ⟨hfs.unique, ?_⟩
    rintro rfl
    exact hfs
  · have herr := ofLexemes_of_outOfRange hu hw
    refine
      { unbalanced := iff_of_false (by simp [herr]) hu
        unterminated := iff_of_false (by simp [herr]) nofun
        outOfRange := fun w' => ⟨fun h' => ?_, fun h' => ?_⟩
        forms := iff_of_false (by simp [herr]) fun h => h.2.2.not_first hw
        spelt := fun fs h' => ?_
        refused := nofun
        taken := fun _ _ => ⟨ts, hp, hts⟩ }
    · cases herr.symm.trans h'
      exact ⟨hu, rfl, hw⟩
    · rw [herr, hw.unique hu h'.2.2]
    · cases herr.symm.trans h'

/-- Every source is divided in one way, and its division says what becomes of it. -/
theorem ofSource_outcome (source : String) :
    ∃ ls o, (∀ ls' o', Divides source.toList ls' o' ↔ ls' = ls ∧ o' = o) ∧
      Outcome source.toList ls o (Form.ofSource source) := by
  obtain ⟨ls, o, h⟩ := exists_divides source.toList
  refine ⟨ls, o, fun ls' o' => ⟨h.unique, ?_⟩, h.outcome⟩
  rintro ⟨rfl, rfl⟩
  exact h

end LispEngines.Reader
