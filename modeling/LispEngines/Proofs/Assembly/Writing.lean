import LispEngines.Proofs.Assembly.Layout
import LispEngines.Proofs.Reader.Writing

/-!
# Writing assembly text

The tokenizer reads a laid-out text as it is laid out (`Laid.foldl`, `tokens_of_laid`), so that
`Laid` says neither too much nor too little about it.  Therefore tokens can be written down: a
word with a backslash before each of its characters, a string between quotes, and between any two
tokens some blanks and remarks (`Written`).  Every list of tokens can be written, and is read back,
whatever the words and the strings are and whatever stands between them (`tokens_written`).

A word that is written so has no character of its own left: quotes, semicolons, blanks and newlines
all stand behind a backslash.  Whether something ends the word therefore depends on nothing but the
blank or the remark that follows it.
-/

namespace LispEngines.Assembly

open Tokenizer

variable {cs raw w sep content source : List Char} {ts found : List Token} {n k line : Nat}

/-! ## Reading what is laid out -/

/-- Between tokens, the tokenizer takes a word as it is written. -/
theorem Spelt.foldl (h : Spelt raw w) (line : Nat) (found : List Token) :
    raw.foldl next ⟨.word, [], line, found⟩ =
      ⟨.word, w.reverse, line + raw.count '\n', found⟩ := by
  induction h with
  | nil => rfl
  | @letter raw w c h hb hs hq hc ih =>
    have hline : c ≠ '\n' := by
      rintro rfl
      cases hc
    have hquote : ¬ (c = '"' ∧ w.reverse = []) := by
      rwa [List.reverse_eq_nil_iff]
    rw [List.foldl_append, ih, List.count_append, count_newline_singleton, if_neg hline,
      List.reverse_append]
    exact (Rule.letter w.reverse _ found hb hs hquote hc).next_eq
  | @taken raw w h c ih =>
    rw [List.foldl_append, ih, Reader.count_newline_append _ (by decide), count_newline_singleton,
      List.reverse_append]
    rw [List.foldl_cons, (Rule.escape w.reverse _ found).next_eq, List.foldl_cons,
      (Rule.escaped w.reverse _ found).next_eq]
    split <;> rfl

/-- A remark is passed over up to its newline. -/
theorem foldl_remark {body : List Char} (hb : '\n' ∉ body) :
    body.foldl next ⟨.comment, [], line, found⟩ = ⟨.comment, [], line, found⟩ := by
  induction body with
  | nil => rfl
  | cons c body ih =>
    rw [List.mem_cons, not_or] at hb
    rw [List.foldl_cons, (Rule.skipped [] line found (Ne.symm hb.1)).next_eq]
    exact ih hb.2

/-- A gap ends the word, if one has begun. -/
theorem Gap.foldl (hg : Gap sep) : sep.foldl next ⟨.word, w.reverse, line, ts.reverse⟩ =
    ⟨.word, [], line + sep.count '\n', (ended ts w line).reverse⟩ := by
  cases hg with
  | @blank c hc =>
    rw [List.foldl_cons, (Rule.blank w.reverse line ts.reverse hc).next_eq, flush_eq, count_mk,
      count_newline_singleton]
    split <;> rfl
  | @remark body hb =>
    rw [List.foldl_cons, (Rule.remark w.reverse line ts.reverse).next_eq, flush_eq,
      List.foldl_append, foldl_remark hb, List.count_cons_of_ne (by decide), List.count_append,
      List.count_eq_zero.mpr hb]
    exact (Rule.remarked [] line _).next_eq

/-- In a string, the tokenizer takes what stands between the quotes. -/
theorem foldl_inside (h : Text.Inside raw content k) (start line : Nat) (found : List Token) :
    ∃ line', raw.foldl next ⟨.text start, [], line, found⟩ =
        ⟨.text start, content.reverse, line', found⟩ ∧ line' + k = line + raw.count '\n' := by
  induction h with
  | nil => exact ⟨line, rfl, rfl⟩
  | @plain raw content k c h hq hb ih =>
    obtain ⟨line', hfold, hline⟩ := ih
    refine ⟨if c = '\n' then line' + 1 else line', ?_, ?_⟩
    · rw [List.foldl_append, hfold, List.reverse_append]
      exact (Rule.character content.reverse start line' found hq hb).next_eq
    · rw [List.count_append, count_newline_singleton]
      split <;> omega
  | @taken raw content k h c ih =>
    obtain ⟨line', hfold, hline⟩ := ih
    refine ⟨line', ?_, ?_⟩
    · rw [List.foldl_append, hfold, List.reverse_append, List.foldl_cons,
        (Rule.textEscape content.reverse start line' found).next_eq]
      exact (Rule.textEscaped content.reverse start line' found).next_eq
    · rw [Reader.count_newline_append _ (by decide)]
      omega

/-- **A laid-out text is read as it is laid out**: it leaves the tokenizer between tokens, with the
tokens of the text and the number of the line it has come to. -/
theorem Laid.foldl (h : Laid cs ts n) : ∃ line,
    cs.foldl next {} = ⟨.word, [], line, ts.reverse⟩ ∧ line + n = 1 + cs.count '\n' := by
  induction h with
  | start => exact ⟨1, rfl, rfl⟩
  | @gap cs sep ts n h hg ih =>
    obtain ⟨line, hfold, hline⟩ := ih
    refine ⟨line + sep.count '\n', ?_, ?_⟩
    · rw [List.foldl_append, hfold]
      exact hg.foldl (w := [])
    · rw [List.count_append]
      omega
  | @text cs raw content ts n k h hi ih =>
    obtain ⟨line, hfold, hline⟩ := ih
    obtain ⟨line', hinside, hline'⟩ := foldl_inside hi line line ts.reverse
    refine ⟨line', ?_, ?_⟩
    · rw [List.foldl_append, hfold, List.foldl_cons, (Rule.opening line ts.reverse).next_eq,
        List.foldl_append, hinside, List.reverse_append]
      refine (Rule.closing content.reverse line line' ts.reverse).next_eq.trans ?_
      rw [List.reverse_reverse]
      rfl
    · rw [Reader.count_newline_append _ (by decide), Reader.count_newline_append _ (by decide)]
      show line' + (n + k) = 1 + (cs.count '\n' + raw.count '\n')
      omega
  | @word cs raw w sep ts n line h hw hne hl hg ih =>
    obtain ⟨line₀, hfold, hline₀⟩ := ih
    rw [List.count_append] at hl
    obtain rfl : line = line₀ + raw.count '\n' := by omega
    refine ⟨line₀ + raw.count '\n' + sep.count '\n', ?_, ?_⟩
    · rw [List.foldl_append, List.foldl_append, hfold, hw.foldl, hg.foldl, Assembly.ended,
        if_neg hne]
    · rw [List.count_append, List.count_append]
      omega

/-- A laid-out text has its tokens, and one more if a word is written behind it. -/
theorem tokens_of_laid (h : Laid cs ts n) (hw : Spelt raw w) : ∃ line,
    tokens (cs ++ raw) = .ok (ended ts w line) ∧ line + n = 1 + (cs ++ raw).count '\n' := by
  obtain ⟨line, hfold, hline⟩ := h.foldl
  refine ⟨line + raw.count '\n', ?_, ?_⟩
  · rw [tokens, List.foldl_append, hfold, hw.foldl, Tokenizer.finish, flush_eq,
      List.reverse_reverse]
  · rw [List.count_append]
    omega

/-! ## Writing tokens -/

namespace Token

/-- A token as it is written: a word with a backslash before every character, a string between
quotes with a backslash before each quote and backslash in it. -/
def written : Token → List Char
  | .word s _ => s.toList.flatMap fun c => ['\\', c]
  | .text s => (Text.fenced s).toList

/-- The same token, whatever line it is on. -/
def unlined : Token → Token
  | .word s _ => .word s 0
  | .text s => .text s

end Token

/-- A run of blanks and remarks. -/
inductive Spacing : List Char → Prop
  | one {sep : List Char} (hg : Gap sep) : Spacing sep
  | more {cs sep : List Char} (h : Spacing cs) (hg : Gap sep) : Spacing (cs ++ sep)

/-- Tokens written one after another, with a run of blanks and remarks between any two of them.
Such a run may also stand in front of the first token and behind the last. -/
inductive Written : List Token → List Char → Prop
  | nothing : Written [] []
  | first (t : Token) : Written [t] t.written
  | next {ts : List Token} {cs sep : List Char} (h : Written ts cs) (hs : Spacing sep)
      (t : Token) : Written (ts ++ [t]) (cs ++ sep ++ t.written)
  | spaced {ts : List Token} {cs sep : List Char} (h : Written ts cs) (hs : Spacing sep) :
      Written ts (cs ++ sep)

theorem spelt_backslashed (w : List Char) : Spelt (w.flatMap fun c => ['\\', c]) w := by
  induction w using List.reverseRecOn with
  | nil => exact .nil
  | append_singleton w c ih =>
    rw [List.flatMap_append, List.flatMap_singleton]
    exact ih.taken c

/-- A backslash before a quote or a backslash takes no newline. -/
theorem inside_escapes (s : List Char) : Text.Inside (s.flatMap Reader.escapes) s 0 := by
  induction s using List.reverseRecOn with
  | nil => exact .nil
  | append_singleton s c ih =>
    rw [List.flatMap_append, List.flatMap_singleton, Reader.escapes]
    split
    · have hline : [c].count '\n' = 0 := by
        rcases ‹c = '"' ∨ c = '\\'› with rfl | rfl <;> rfl
      simpa only [hline] using ih.taken c
    · next h =>
      rw [not_or] at h
      exact ih.plain h.1 h.2

/-- A run of blanks and remarks ends the word, if there is one. -/
theorem Laid.spaced (h : Laid cs ts n) (hw : Spelt raw w)
    (hl : line + n = 1 + (cs ++ raw).count '\n') (hs : Spacing sep) :
    Laid (cs ++ raw ++ sep) (Assembly.ended ts w line) n := by
  induction hs with
  | one hg => exact h.ended hw hl hg
  | more _ hg ih =>
    rw [← List.append_assoc]
    exact ih.gap hg

/-- A text that is laid out up to a word with which it may end, with some tokens in it, whatever
lines they are on. -/
def LaidWith (source : List Char) (ts : List Token) : Prop :=
  ∃ cs raw us w n, source = cs ++ raw ∧ Laid cs us n ∧ Spelt raw w ∧
    ∀ line, (ended us w line).map Token.unlined = ts.map Token.unlined

/-- A token written behind a text that ends between tokens. -/
theorem Laid.write {us : List Token} (h : Laid cs us n)
    (hus : us.map Token.unlined = ts.map Token.unlined) {t : Token}
    (ht : ∀ s line, t = .word s line → s ≠ "") : LaidWith (cs ++ t.written) (ts ++ [t]) := by
  cases t with
  | word s line =>
    have hne : s.toList ≠ [] := by
      simpa using ht s line rfl
    refine ⟨cs, _, us, s.toList, n, rfl, h, spelt_backslashed _, fun line' => ?_⟩
    rw [Assembly.ended, if_neg hne, String.ofList_toList, List.map_append, List.map_append, hus]
    rfl
  | text s =>
    have htext := h.text (inside_escapes s.toList)
    rw [String.ofList_toList, ← Reader.toList_fenced] at htext
    refine ⟨_, [], _, [], n, (List.append_nil _).symm, htext, .nil, fun line => ?_⟩
    rw [Assembly.ended, if_pos rfl, List.map_append, List.map_append, hus]

/-- A run of blanks and remarks leaves the tokens as they are. -/
theorem LaidWith.spaced (h : LaidWith source ts) (hs : Spacing sep) :
    ∃ us n, Laid (source ++ sep) us n ∧ us.map Token.unlined = ts.map Token.unlined := by
  obtain ⟨cs, raw, us, w, n, rfl, hlaid, hw, hus⟩ := h
  obtain ⟨line, -, hline⟩ := tokens_of_laid hlaid hw
  exact ⟨_, _, hlaid.spaced hw hline hs, hus line⟩

/-- What is written is laid out with the tokens that are written. -/
theorem Written.laidWith (h : Written ts source)
    (hwords : ∀ s line, .word s line ∈ ts → s ≠ "") : LaidWith source ts := by
  induction h with
  | nothing => exact ⟨[], [], [], [], 0, rfl, .start, .nil, fun _ => rfl⟩
  | first t =>
    show LaidWith ([] ++ t.written) ([] ++ [t])
    refine Laid.start.write rfl fun s line ht => hwords s line ?_
    exact ht ▸ List.mem_singleton_self _
  | next h hs t ih =>
    obtain ⟨us, n, hlaid, hus⟩ :=
      (ih fun s line ht => hwords s line (List.mem_append_left _ ht)).spaced hs
    refine hlaid.write hus fun s line ht => hwords s line ?_
    exact ht ▸ List.mem_append_right _ (List.mem_singleton_self _)
  | spaced h hs ih =>
    obtain ⟨us, n, hlaid, hus⟩ := (ih hwords).spaced hs
    exact ⟨_, [], us, [], n, (List.append_nil _).symm, hlaid, .nil, fun _ => hus⟩

/-- Any tokens can be written, for instance with a newline between any two. -/
theorem exists_written (ts : List Token) : ∃ source, Written ts source := by
  induction ts using List.reverseRecOn with
  | nil => exact ⟨[], .nothing⟩
  | append_singleton ts t ih =>
    obtain ⟨source, h⟩ := ih
    exact ⟨source ++ ['\n'] ++ t.written, h.next (.one (.blank rfl)) t⟩

/-- **Every list of tokens can be written and is read back.**  The words are not empty; other than
that, words and strings may be any text, and any run of blanks and remarks may stand between two
tokens. -/
theorem tokens_written {ts : List Token} (hwords : ∀ s line, .word s line ∈ ts → s ≠ "") :
    (∃ source, Written ts source) ∧
      ∀ source, Written ts source → ∃ us, tokens source = .ok us ∧
        us.map Token.unlined = ts.map Token.unlined := by
  refine ⟨exists_written ts, fun source h => ?_⟩
  obtain ⟨cs, raw, us, w, n, rfl, hlaid, hw, hus⟩ := h.laidWith hwords
  obtain ⟨line, htokens, -⟩ := tokens_of_laid hlaid hw
  exact ⟨_, htokens, hus line⟩

/-- Words made of a semicolon and a newline and of a quote, and between them a string with a quote
and a backslash in it; a remark stands before the string, and two blanks behind it. -/
theorem tokens_written_of_mixed :
    Written [.word ";\n" 0, .text "\"\\", .word "\"" 0]
        "\\;\\\n;\"a\n\"\\\"\\\\\" \t\\\"".toList ∧
      ∃ us, tokens "\\;\\\n;\"a\n\"\\\"\\\\\" \t\\\"".toList = .ok us ∧
        us.map Token.unlined = [.word ";\n" 0, .text "\"\\", .word "\"" 0] := by
  have hremark : Gap (';' :: ("\"a".toList ++ ['\n'])) := .remark (by decide)
  have hwritten : Written [.word ";\n" 0, .text "\"\\", .word "\"" 0]
      "\\;\\\n;\"a\n\"\\\"\\\\\" \t\\\"".toList :=
    ((Written.first (.word ";\n" 0)).next (.one hremark) (.text "\"\\")).next
      (.more (.one (.blank (c := ' ') rfl)) (.blank (c := '\t') rfl)) (.word "\"" 0)
  refine ⟨hwritten, (tokens_written ?_).2 _ hwritten⟩
  rintro s line hs rfl
  simp at hs

end LispEngines.Assembly
