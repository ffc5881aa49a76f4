import LispEngines.Assembly.Token

/-!
# The rules of the tokenizer

What the tokenizer does with a character depends on where it is.  `Tokenizer.Rule` lists the
cases, one rule for each, and they are all there are (`Tokenizer.rule_next`) and never two at a
time (`Tokenizer.Rule.next_eq`).  Whatever holds of every text is proved by going through the
rules.
-/

namespace LispEngines.Assembly.Tokenizer

variable {t u : Tokenizer} {c : Char}

/-- A character takes the tokenizer from one state to another. -/
inductive Rule : Tokenizer → Char → Tokenizer → Prop
  /-- A backslash waits for the next character. -/
  | escape (s k ts) : Rule ⟨.word, s, k, ts⟩ '\\' ⟨.wordEscape, s, k, ts⟩
  /-- A semicolon ends the word and starts a comment. -/
  | remark (s k ts) :
    Rule ⟨.word, s, k, ts⟩ ';' { Tokenizer.flush ⟨.word, s, k, ts⟩ with mode := .comment }
  /-- A quote where no word has begun starts a string. -/
  | opening (k ts) : Rule ⟨.word, [], k, ts⟩ '"' ⟨.text k, [], k, ts⟩
  /-- A blank ends the word. -/
  | blank {c : Char} (s k ts) (hc : Text.isBlank c = true) :
    Rule ⟨.word, s, k, ts⟩ c ((Tokenizer.flush ⟨.word, s, k, ts⟩).count c)
  /-- Any other character belongs to the word. -/
  | letter {c : Char} (s k ts) (hb : c ≠ '\\') (hs : c ≠ ';') (hq : ¬ (c = '"' ∧ s = []))
    (hc : Text.isBlank c = false) : Rule ⟨.word, s, k, ts⟩ c ⟨.word, c :: s, k, ts⟩
  /-- After a backslash every character belongs to the word. -/
  | escaped {c : Char} (s k ts) :
    Rule ⟨.wordEscape, s, k, ts⟩ c ⟨.word, c :: s, if c = '\n' then k + 1 else k, ts⟩
  /-- A newline ends a comment. -/
  | remarked (s k ts) : Rule ⟨.comment, s, k, ts⟩ '\n' ⟨.word, s, k + 1, ts⟩
  /-- Nothing else does. -/
  | skipped {c : Char} (s k ts) (hc : c ≠ '\n') : Rule ⟨.comment, s, k, ts⟩ c ⟨.comment, s, k, ts⟩
  /-- A quote ends a string. -/
  | closing (s start k ts) : Rule ⟨.text start, s, k, ts⟩ '"'
      ⟨.word, [], k, .text (String.ofList s.reverse) :: ts⟩
  /-- A backslash in a string waits for the next character. -/
  | textEscape (s start k ts) :
    Rule ⟨.text start, s, k, ts⟩ '\\' ⟨.textEscape start, s, k, ts⟩
  /-- Any other character belongs to the string. -/
  | character {c : Char} (s start k ts) (hq : c ≠ '"') (hb : c ≠ '\\') :
    Rule ⟨.text start, s, k, ts⟩ c ⟨.text start, c :: s, if c = '\n' then k + 1 else k, ts⟩
  /-- After a backslash every character belongs to the string, and is not counted. -/
  | textEscaped {c : Char} (s start k ts) :
    Rule ⟨.textEscape start, s, k, ts⟩ c ⟨.text start, c :: s, k, ts⟩

theorem count_mk (m : Mode) (s : List Char) (k : Nat) (ts : List Token) (c : Char) :
    count ⟨m, s, k, ts⟩ c = ⟨m, s, if c = '\n' then k + 1 else k, ts⟩ := by
  unfold count
  split <;> rfl

/-- The rules are all there are. -/
theorem rule_next (t : Tokenizer) (c : Char) : Rule t c (t.next c) := by
  obtain ⟨mode, s, k, ts⟩ := t
  cases mode with
  | word =>
    simp only [next]
    split
    · subst c; exact .escape s k ts
    split
    · subst c; exact .remark s k ts
    split
    · obtain ⟨rfl, rfl⟩ := ‹c = '"' ∧ s = []›
      exact .opening k ts
    split
    · exact .blank s k ts ‹_›
    · exact .letter s k ts ‹_› ‹_› ‹_› (Bool.eq_false_iff.mpr ‹_›)
  | wordEscape =>
    simp only [next, count_mk]
    exact .escaped s k ts
  | comment =>
    simp only [next]
    split
    · subst c; exact .remarked s k ts
    · exact .skipped s k ts ‹_›
  | text start =>
    simp only [next, count_mk]
    split
    · subst c; exact .closing s start k ts
    split
    · subst c; exact .textEscape s start k ts
    · exact .character s start k ts ‹_› ‹_›
  | textEscape start => exact .textEscaped s start k ts

/-- There is one rule for each case. -/
theorem Rule.next_eq (h : Rule t c u) : t.next c = u := by
  cases h with
  | blank s k ts hc =>
    have hb : c ≠ '\\' := by rintro rfl; cases hc
    have hs : c ≠ ';' := by rintro rfl; cases hc
    have hq : c ≠ '"' := by rintro rfl; cases hc
    simp [next, hb, hs, hq, hc]
  | letter s k ts hb hs hq hc => simp only [next, hb, hs, hq, hc, if_false]; rfl
  | escaped | character => simp [next, count_mk, keep, *]
  | skipped s k ts hc => simp [next, hc]
  | _ => rfl

end LispEngines.Assembly.Tokenizer
