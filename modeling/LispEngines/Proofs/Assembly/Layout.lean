import LispEngines.Proofs.Assembly.Tokens
import LispEngines.Proofs.Reader.Lines
import Mathlib.Data.List.Induction

/-!
# How assembly text is laid out

Assembly text is made of words and strings, with blanks and remarks between them.
`Assembly.Laid` says so without a tokenizer: it relates a text that ends between two tokens to
the tokens in it.  A word ends at a blank or at a remark (`Assembly.Gap`), and between its
backslashes it may have any character (`Assembly.Spelt`).

`Tokenizer.Stands` is what the tokenizer knows after a text, whether the text ends between tokens or
within one, and every rule of the tokenizer keeps to it (`Tokenizer.Stands.rule`).  So a text without
tokens is laid out up to the string that has no end (`laid_of_unterminatedString`), and in a text with
tokens every word has its place (`placed_of_tokens`).

The relation also has the number of newlines that backslashes take in the strings of the text,
because these are the ones the tokenizer does not count.
-/

namespace LispEngines.Assembly

/-! ## The parts of a text -/

/-- What ends a word: a blank, or a remark up to the end of its line. -/
inductive Gap : List Char → Prop
  | blank {c : Char} (hc : Text.isBlank c = true) : Gap [c]
  | remark {body : List Char} (hb : '\n' ∉ body) : Gap (';' :: (body ++ ['\n']))

/-- A word as it is written, or the beginning of one, and the word. -/
inductive Spelt : List Char → List Char → Prop
  | nil : Spelt [] []
  /-- A character that stands for itself; a quote does so within a word. -/
  | letter {raw w : List Char} {c : Char} (h : Spelt raw w) (hb : c ≠ '\\') (hs : c ≠ ';')
      (hq : ¬ (c = '"' ∧ w = [])) (hc : Text.isBlank c = false) : Spelt (raw ++ [c]) (w ++ [c])
  | taken {raw w : List Char} (h : Spelt raw w) (c : Char) : Spelt (raw ++ ['\\', c]) (w ++ [c])

/-- A text that ends between two tokens, the tokens in it, and the number of newlines that
backslashes take in its strings. -/
inductive Laid : List Char → List Token → Nat → Prop
  | start : Laid [] [] 0
  | gap {cs sep : List Char} {ts : List Token} {n : Nat} (h : Laid cs ts n) (hg : Gap sep) :
      Laid (cs ++ sep) ts n
  | text {cs raw content : List Char} {ts : List Token} {n k : Nat} (h : Laid cs ts n)
      (hi : Text.Inside raw content k) :
      Laid (cs ++ '"' :: (raw ++ ['"'])) (ts ++ [.text (String.ofList content)]) (n + k)
  | word {cs raw w sep : List Char} {ts : List Token} {n line : Nat} (h : Laid cs ts n)
      (hw : Spelt raw w) (hne : w ≠ []) (hl : line + n = 1 + (cs ++ raw).count '\n')
      (hg : Gap sep) : Laid (cs ++ raw ++ sep) (ts ++ [.word (String.ofList w) line]) n

/-- The tokens, and one more if a word has begun. -/
def ended (ts : List Token) (w : List Char) (line : Nat) : List Token :=
  if w = [] then ts else ts ++ [.word (String.ofList w) line]

variable {cs raw w sep : List Char} {ts : List Token} {n line : Nat} {c : Char}

/-- Only a word that is not written is empty. -/
theorem Spelt.eq_nil (h : Spelt raw []) : raw = [] := by
  generalize hw : ([] : List Char) = w at h
  cases h with
  | nil => rfl
  | letter | taken => simp at hw

/-- Whether a character stands for itself wherever it is in a word. -/
def isLetter (c : Char) : Bool := !(c == '\\' || c == ';' || c == '"' || Text.isBlank c)

/-- A word without special characters is written as it is. -/
theorem spelt_self {w : List Char} (hw : w.all isLetter = true) : Spelt w w := by
  induction w using List.reverseRecOn with
  | nil => exact .nil
  | append_singleton w c ih =>
    simp only [List.all_append, List.all_cons, List.all_nil, isLetter, Bool.and_true,
      Bool.and_eq_true, Bool.not_eq_true', Bool.or_eq_false_iff, beq_eq_false_iff_ne] at hw
    obtain ⟨hw, ⟨⟨hb, hs⟩, hq⟩, hc⟩ := hw
    exact (ih hw).letter hb hs (fun h => hq h.1) hc

/-- A gap ends the word, if there is one. -/
theorem Laid.ended (h : Laid cs ts n) (hw : Spelt raw w)
    (hl : line + n = 1 + (cs ++ raw).count '\n') (hg : Gap sep) :
    Laid (cs ++ raw ++ sep) (ended ts w line) n := by
  unfold Assembly.ended
  split
  · subst w
    rw [hw.eq_nil, List.append_nil]
    exact h.gap hg
  · exact h.word hw ‹_› hl hg

/-! ## What the tokenizer knows -/

namespace Tokenizer

/-- What the tokenizer knows after a text. -/
inductive Stands : List Char → Tokenizer → Prop
  | word {cs raw w : List Char} {ts : List Token} {n line : Nat} (h : Laid cs ts n)
      (hw : Spelt raw w) (hl : line + n = 1 + (cs ++ raw).count '\n') :
      Stands (cs ++ raw) ⟨.word, w.reverse, line, ts.reverse⟩
  | wordEscape {cs raw w : List Char} {ts : List Token} {n line : Nat} (h : Laid cs ts n)
      (hw : Spelt raw w) (hl : line + n = 1 + (cs ++ raw).count '\n') :
      Stands (cs ++ raw ++ ['\\']) ⟨.wordEscape, w.reverse, line, ts.reverse⟩
  | comment {cs raw w body : List Char} {ts : List Token} {n line : Nat} (h : Laid cs ts n)
      (hw : Spelt raw w) (hl : line + n = 1 + (cs ++ raw).count '\n') (hb : '\n' ∉ body) :
      Stands (cs ++ raw ++ ';' :: body) ⟨.comment, [], line, (ended ts w line).reverse⟩
  | text {cs raw content : List Char} {ts : List Token} {n k start line : Nat} (h : Laid cs ts n)
      (hs : start + n = 1 + cs.count '\n') (hi : Text.Inside raw content k)
      (hl : line + n + k = 1 + cs.count '\n' + raw.count '\n') :
      Stands (cs ++ '"' :: raw) ⟨.text start, content.reverse, line, ts.reverse⟩
  | textEscape {cs raw content : List Char} {ts : List Token} {n k start line : Nat}
      (h : Laid cs ts n) (hs : start + n = 1 + cs.count '\n') (hi : Text.Inside raw content k)
      (hl : line + n + k = 1 + cs.count '\n' + raw.count '\n') :
      Stands (cs ++ '"' :: (raw ++ ['\\'])) ⟨.textEscape start, content.reverse, line, ts.reverse⟩

theorem Stands.start : Stands [] {} := .word .start .nil rfl

theorem flush_eq (m : Mode) (w : List Char) (line : Nat) (ts : List Token) :
    flush ⟨m, w.reverse, line, ts.reverse⟩ = ⟨m, [], line, (ended ts w line).reverse⟩ := by
  unfold flush ended
  by_cases hw : w = []
  · simp [hw]
  · simp [hw]

theorem count_newline_singleton (c : Char) : [c].count '\n' = if c = '\n' then 1 else 0 := by
  simp only [List.count_singleton, beq_iff_eq]

/-- What the tokenizer knows after one more character. -/
theorem Stands.rule {t u : Tokenizer} (h : Stands cs t) (hr : Rule t c u) : Stands (cs ++ [c]) u := by
  cases h with
  | @word cs raw w ts n line h hw hl =>
    generalize hs : w.reverse = s at hr
    generalize hf : ts.reverse = found at hr
    cases hr with
    | escape =>
      subst hs hf
      exact .wordEscape h hw hl
    | remark =>
      subst hs hf
      rw [flush_eq]
      exact .comment h hw hl List.not_mem_nil
    | opening =>
      obtain rfl := List.reverse_eq_nil_iff.mp hs
      obtain rfl := hw.eq_nil
      subst hf
      rw [List.append_nil] at hl ⊢
      exact .text h hl .nil hl
    | blank s line found hc =>
      subst hs hf
      rw [flush_eq, count_mk]
      have hlaid := h.ended hw hl (.blank hc)
      refine List.append_nil (cs ++ raw ++ [c]) ▸ Stands.word hlaid .nil ?_
      rw [List.append_nil, List.count_append, count_newline_singleton]
      split <;> omega
    | letter s line found hb hsemi hq hc =>
      subst hs hf
      rw [List.append_assoc, show c :: w.reverse = (w ++ [c]).reverse by simp]
      refine .word h (hw.letter hb hsemi (fun hq' => hq ⟨hq'.1, by simp [hq'.2]⟩) hc) ?_
      rw [← List.append_assoc, Reader.count_newline_append _ _ [], hl]
      · rfl
      · rintro rfl
        cases hc
  | @wordEscape cs raw w ts n line h hw hl =>
    cases hr with
    | escaped =>
      rw [List.append_assoc, List.append_assoc, show c :: w.reverse = (w ++ [c]).reverse by simp]
      refine .word h (hw.taken c) ?_
      rw [← List.append_assoc, List.singleton_append, Reader.count_newline_append _ (by decide),
        count_newline_singleton]
      split <;> omega
  | @comment cs raw w body ts n line h hw hl hb =>
    rw [List.append_assoc, List.cons_append]
    cases hr with
    | remarked =>
      have hlaid := h.ended hw hl (.remark hb)
      have hbody : (body ++ ['\n']).count '\n' = 1 := by
        rw [List.count_append, List.count_eq_zero.mpr hb]
        rfl
      refine List.append_nil (cs ++ raw ++ _) ▸ Stands.word hlaid .nil ?_
      rw [List.append_nil, Reader.count_newline_append _ (by decide), hbody]
      omega
    | skipped s line found hc =>
      refine .comment h hw hl fun hm => ?_
      rcases List.mem_append.mp hm with hm | hm
      · exact hb hm
      · exact hc (List.mem_singleton.mp hm).symm
  | @text cs raw content ts n k start line h hs hi hl =>
    rw [List.append_assoc, List.cons_append]
    cases hr with
    | closing =>
      rw [List.reverse_reverse]
      have hts : Token.text (String.ofList content) :: ts.reverse =
          (ts ++ [Token.text (String.ofList content)]).reverse := by simp
      rw [hts]
      refine List.append_nil (cs ++ _) ▸ Stands.word (h.text hi) .nil ?_
      rw [List.append_nil, Reader.count_newline_append _ (by decide),
        Reader.count_newline_append _ (by decide)]
      show line + (n + k) = 1 + (cs.count '\n' + raw.count '\n')
      omega
    | textEscape => exact .textEscape h hs hi hl
    | character s start line found hq hb =>
      rw [show c :: content.reverse = (content ++ [c]).reverse by simp]
      refine .text h hs (hi.plain hq hb) ?_
      rw [List.count_append, count_newline_singleton]
      split <;> omega
  | @textEscape cs raw content ts n k start line h hs hi hl =>
    rw [List.append_assoc, List.cons_append, List.append_assoc]
    cases hr with
    | textEscaped =>
      rw [show c :: content.reverse = (content ++ [c]).reverse by simp]
      refine .text h hs (hi.taken c) ?_
      rw [List.singleton_append, Reader.count_newline_append _ (by decide)]
      omega

/-- What the tokenizer knows after any text. -/
theorem stands (cs : List Char) : Stands cs (cs.foldl next {}) := by
  suffices hall : ∀ (before : List Char) (t : Tokenizer), Stands before t →
      Stands (before ++ cs) (cs.foldl next t) from hall [] {} .start
  induction cs with
  | nil => exact fun before t h => (List.append_nil before).symm ▸ h
  | cons c cs ih =>
    intro before t h
    rw [List.append_cons]
    exact ih _ _ (h.rule (t.rule_next c))

end Tokenizer

/-! ## What becomes of a text -/

/-- The rest of a text after the quote that starts a string without an end. -/
def Unclosed (rest : List Char) : Prop :=
  ∃ raw content k, Text.Inside raw content k ∧ (rest = raw ∨ rest = raw ++ ['\\'])

/-- A text without tokens ends in a string that starts on the line reported, not counting the
newlines that are taken in strings before it. -/
theorem laid_of_unterminatedString {source : List Char}
    (h : tokens source = .error (.unterminatedString line)) :
    ∃ pre rest ts n, source = pre ++ '"' :: rest ∧ Laid pre ts n ∧ Unclosed rest ∧
      line + n = 1 + pre.count '\n' := by
  have hstands := Tokenizer.stands source
  unfold tokens at h
  generalize source.foldl Tokenizer.next {} = t at h hstands
  cases hstands with
  | word | wordEscape | comment => cases h
  | text hl hs hi => cases h; exact ⟨_, _, _, _, rfl, hl, ⟨_, _, _, hi, .inl rfl⟩, hs⟩
  | textEscape hl hs hi => cases h; exact ⟨_, _, _, _, rfl, hl, ⟨_, _, _, hi, .inr rfl⟩, hs⟩

/-- A text with tokens is laid out up to its last word, or to its end. -/
theorem laid_of_tokens {source : List Char} {us : List Token} (h : tokens source = .ok us) :
    ∃ cs raw w post ts n line, source = cs ++ raw ++ post ∧ Laid cs ts n ∧ Spelt raw w ∧
      us = ended ts w line ∧ line + n = 1 + (cs ++ raw).count '\n' := by
  have hstands := Tokenizer.stands source
  unfold tokens at h
  generalize source.foldl Tokenizer.next {} = t at h hstands
  cases hstands with
  | @word cs raw w ts n line hl hw hline =>
    refine ⟨cs, raw, w, [], ts, n, line, (List.append_nil _).symm, hl, hw, ?_, hline⟩
    rw [Tokenizer.finish, Tokenizer.flush_eq] at h
    exact (Except.ok.inj h).symm.trans (List.reverse_reverse _)
  | @wordEscape cs raw w ts n line hl hw hline =>
    refine ⟨cs, raw, w, _, ts, n, line, rfl, hl, hw, ?_, hline⟩
    rw [Tokenizer.finish, Tokenizer.flush_eq] at h
    exact (Except.ok.inj h).symm.trans (List.reverse_reverse _)
  | @comment cs raw w body ts n line hl hw hline hb =>
    refine ⟨cs, raw, w, _, ts, n, line, rfl, hl, hw, ?_, hline⟩
    exact (Except.ok.inj h).symm.trans (List.reverse_reverse _)
  | text | textEscape => cases h

/-- The last of some tokens is the word itself, or comes after it. -/
theorem split_of_concat {us rest : List Token} {t u : Token} (h : us ++ [t] = ts ++ u :: rest) :
    (us = ts ∧ t = u) ∨ ∃ rest', us = ts ++ u :: rest' := by
  rcases List.eq_nil_or_concat rest with rfl | ⟨rest', v, rfl⟩
  · obtain ⟨rfl, hu⟩ := List.append_inj' h rfl
    exact .inl ⟨rfl, List.singleton_inj.mp hu⟩
  · rw [List.concat_eq_append, ← List.cons_append, ← List.append_assoc] at h
    exact .inr ⟨rest', (List.append_inj' h rfl).1⟩

/-- In a text, after these tokens, a word is written that ends on a line, not counting the newlines
that are taken in strings before it. -/
def Placed (source : List Char) (ts : List Token) (s : String) (line : Nat) : Prop :=
  ∃ pre raw post n, source = pre ++ raw ++ post ∧ Laid pre ts n ∧ Spelt raw s.toList ∧
    line + n = 1 + (pre ++ raw).count '\n'

/-- What comes after a word does not move it. -/
theorem Placed.append {s : String} (h : Placed cs ts s line) (more : List Char) :
    Placed (cs ++ more) ts s line := by
  obtain ⟨pre, raw, post, n, rfl, hrest⟩ := h
  exact ⟨pre, raw, post ++ more, n, List.append_assoc .., hrest⟩

/-- The place of a word in a text that ends between tokens. -/
theorem Laid.placed {us rest : List Token} {s : String} (h : Laid cs us n)
    (hu : us = ts ++ .word s line :: rest) : Placed cs ts s line := by
  induction h generalizing rest with
  | start => exact absurd hu (by simp)
  | gap _ _ ih => exact (ih hu).append _
  | text _ _ ih =>
    rcases split_of_concat hu with ⟨-, he⟩ | ⟨rest', rfl⟩
    · cases he
    · exact (ih rfl).append _
  | @word cs raw w sep us n line' h hw hne hl hg ih =>
    rcases split_of_concat hu with ⟨rfl, he⟩ | ⟨rest', rfl⟩
    · cases he
      exact ⟨cs, raw, sep, n, rfl, h, by rwa [String.toList_ofList], hl⟩
    · exact ((ih rfl).append _).append _

/-- The place of a word in any text that has tokens. -/
theorem placed_of_tokens {source : List Char} {rest : List Token} {s : String}
    (h : tokens source = .ok (ts ++ .word s line :: rest)) : Placed source ts s line := by
  obtain ⟨cs, raw, w, post, us, n, line', rfl, hl, hw, hu, hline⟩ := laid_of_tokens h
  unfold ended at hu
  split at hu
  · exact ((hl.placed hu.symm).append raw).append post
  · rcases split_of_concat hu.symm with ⟨rfl, he⟩ | ⟨rest', rfl⟩
    · cases he
      exact ⟨cs, raw, post, n, rfl, hl, by rwa [String.toList_ofList], hline⟩
    · exact ((hl.placed rfl).append raw).append post

/-- A word has as many newlines as it is written with. -/
theorem Spelt.count_newline (h : Spelt raw w) : raw.count '\n' = w.count '\n' := by
  induction h with
  | nil => rfl
  | letter _ _ _ _ _ ih => rw [List.count_append, List.count_append, ih]
  | taken _ c ih => rw [Reader.count_newline_append _ (by decide), List.count_append, ih]

end LispEngines.Assembly
