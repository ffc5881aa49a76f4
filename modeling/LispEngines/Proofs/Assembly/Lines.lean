import LispEngines.Proofs.Assembly.Layout
import LispEngines.Proofs.Assembly.Parts

/-!
# The lines that messages name

Three messages name a line: that of a parenthesis that is closed without being open, that of a
string without an end, and that of a `!define` without its operands.  The line is the right one,
except that a newline after a backslash in a string is not counted (`reported_lines`), so that below
such a string the line named is too small (`reported_lines_too_small`).  Words count the newlines
that a backslash takes into them.
-/

namespace LispEngines

open Assembly Assembler

variable {asm asm' : Assembler} {line : Nat}

namespace Assembler

/-- Where one piece of work follows another whose errors name no line, and there is an error that
does, the first succeeded. -/
theorem ok_of_bind {α β : Type} {x : Assembling α} {f : α → Assembling β} {e : AssembleError}
    (hx : further 1 x = x) (he : e.below 1 ≠ e) (h : (x >>= f) asm = (.error e, asm')) :
    ∃ a asm₁, x asm = (.ok a, asm₁) ∧ f a asm₁ = (.error e, asm') := by
  change (match x asm with | (r, asm) => ExceptT.bindCont f r asm) = _ at h
  rcases hr : x asm with ⟨e' | a, asm₁⟩ <;> rw [hr] at h
  · cases h
    have hx' := congrFun hx asm
    rw [further, hr] at hx'
    exact absurd (Except.error.inj (congrArg Prod.fst hx')) he
  · exact ⟨a, asm₁, rfl, h⟩

/-- The `!define` that lacks an operand, and the tokens before it, all of which were taken. -/
theorem tokens_of_incompleteDefine {ts : List Token}
    (h : feedTokens ts asm = (.error (.incompleteDefine line), asm')) :
    ∃ before rest, ts = before ++ .word "!define" line :: rest ∧ rest.length < 2 ∧
      feedTokens before asm = (.ok (), asm') := by
  have hline : (AssembleError.incompleteDefine line).below 1 ≠ .incompleteDefine line :=
    fun h => by cases h
  induction ts using tokens_induction generalizing asm with
  | nil => cases h
  | text s rest ih =>
    obtain ⟨before, last, rfl, hlast, hb⟩ := ih h
    exact ⟨.text s :: before, last, rfl, hlast, hb⟩
  | definition line' name value rest ih =>
    rw [feedTokens_definition] at h
    obtain ⟨label, a, hv, h⟩ := ok_of_bind (further_definition 1 _) hline h
    obtain ⟨_, b, hd, h⟩ := ok_of_bind (further_define 1 _ _) hline h
    obtain ⟨before, last, rfl, hlast, hb⟩ := ih h
    refine ⟨.word "!define" line' :: name :: value :: before, last, rfl, hlast, ?_⟩
    rw [feedTokens_definition, bind_ok hv, bind_ok hd, hb]
  | lacking line' rest hlack =>
    rw [feedTokens_lacking line' hlack] at h
    cases h
    exact ⟨[], rest, rfl, hlack, rfl⟩
  | word s line' rest hs ih =>
    rw [feedTokens_word hs] at h
    obtain ⟨_, a, hw, h⟩ := ok_of_bind (further_feedWord 1 s) hline h
    obtain ⟨before, last, rfl, hlast, hb⟩ := ih h
    refine ⟨.word s line' :: before, last, rfl, hlast, ?_⟩
    rw [feedTokens_word hs, bind_ok hw, hb]

/-- Where there are tokens, every string has an end. -/
theorem feedTokens_ne_unterminatedString (ts : List Token) :
    feedTokens ts asm ≠ (.error (.unterminatedString line), asm') := by
  have hline : (AssembleError.unterminatedString line).below 1 ≠ .unterminatedString line :=
    fun h => by cases h
  intro h
  induction ts using tokens_induction generalizing asm with
  | nil => cases h
  | text s rest ih => exact ih h
  | definition line' name value rest ih =>
    rw [feedTokens_definition] at h
    obtain ⟨label, a, -, h⟩ := ok_of_bind (further_definition 1 _) hline h
    obtain ⟨_, b, -, h⟩ := ok_of_bind (further_define 1 _ _) hline h
    exact ih h
  | lacking line' rest hlack =>
    rw [feedTokens_lacking line' hlack] at h
    cases h
  | word s line' rest hs ih =>
    rw [feedTokens_word hs] at h
    obtain ⟨_, a, -, h⟩ := ok_of_bind (further_feedWord 1 s) hline h
    exact ih h

theorem ne_incompleteDefine_of_tokens (source : List Char) :
    tokens source ≠ .error (.incompleteDefine line) := by
  unfold tokens Tokenizer.finish
  split <;> nofun

/-- A string without an end is on the line that is reported. -/
theorem line_of_unterminatedString {source : String}
    (h : feed source asm = (.error (.unterminatedString line), asm')) :
    ∃ pre rest ts n, source.toList = pre ++ '"' :: rest ∧ Laid pre ts n ∧ Unclosed rest ∧
      line + n = 1 + pre.count '\n' := by
  rw [feed] at h
  rcases ht : tokens source.toList with e | ts <;> rw [ht] at h
  · cases h
    exact laid_of_unterminatedString ht
  · exact absurd h (feedTokens_ne_unterminatedString ts)

/-- A `!define` without its operands is on the line that is reported. -/
theorem line_of_incompleteDefine {source : String}
    (h : feed source asm = (.error (.incompleteDefine line), asm')) :
    ∃ pre raw post ts rest n, source.toList = pre ++ raw ++ post ∧ Laid pre ts n ∧
      Spelt raw "!define".toList ∧ tokens source.toList = .ok (ts ++ .word "!define" line :: rest) ∧
      rest.length < 2 ∧ feedTokens ts asm = (.ok (), asm') ∧ line + n = 1 + pre.count '\n' := by
  rw [feed] at h
  rcases ht : tokens source.toList with e | us <;> rw [ht] at h
  · cases h
    exact absurd ht (ne_incompleteDefine_of_tokens _)
  · obtain ⟨ts, rest, rfl, hrest, hfeed⟩ := tokens_of_incompleteDefine h
    obtain ⟨pre, raw, post, n, hs, hl, hw, hline⟩ := placed_of_tokens ht
    refine ⟨pre, raw, post, ts, rest, n, hs, hl, hw, rfl, hrest, hfeed, ?_⟩
    rw [List.count_append, hw.count_newline] at hline
    exact hline

end Assembler

/-- **The lines that messages name**: each is the line of what the message is about, as far as
newlines count that no backslash takes in a string before it. -/
theorem reported_lines (source : String) (asm asm' : Assembler) (line : Nat) :
    (Form.ofSource source = .error (.unexpectedClose line) →
      ∃ pre post bare n, source.toList = pre ++ ')' :: post ∧ Reader.Passed pre bare n ∧
        Reader.Opens 0 bare ∧ line + n = 1 + pre.count '\n') ∧
    (feed source asm = (.error (.unterminatedString line), asm') →
      ∃ pre rest ts n, source.toList = pre ++ '"' :: rest ∧ Laid pre ts n ∧ Unclosed rest ∧
        line + n = 1 + pre.count '\n') ∧
    (feed source asm = (.error (.incompleteDefine line), asm') →
      ∃ pre raw post ts rest n, source.toList = pre ++ raw ++ post ∧ Laid pre ts n ∧
        Spelt raw "!define".toList ∧
        tokens source.toList = .ok (ts ++ .word "!define" line :: rest) ∧ rest.length < 2 ∧
        feedTokens ts asm = (.ok (), asm') ∧ line + n = 1 + pre.count '\n') :=
  ⟨Reader.line_of_unexpectedClose, line_of_unterminatedString, line_of_incompleteDefine⟩

/-- A parenthesis, a string and a `!define`, each on the second line. -/
theorem reported_lines_on_second_line :
    (∃ pre post bare n, "(\n))".toList = pre ++ ')' :: post ∧ Reader.Passed pre bare n ∧
      Reader.Opens 0 bare ∧ 2 + n = 1 + pre.count '\n') ∧
    (∃ pre rest ts n, "; a\n\"b".toList = pre ++ '"' :: rest ∧ Laid pre ts n ∧ Unclosed rest ∧
      2 + n = 1 + pre.count '\n') ∧
    (∃ pre raw post ts rest n, "\n!define a".toList = pre ++ raw ++ post ∧ Laid pre ts n ∧
      Spelt raw "!define".toList ∧
      tokens "\n!define a".toList = .ok (ts ++ .word "!define" 2 :: rest) ∧ rest.length < 2 ∧
      feedTokens ts {} = (.ok (), {}) ∧ 2 + n = 1 + pre.count '\n') :=
  ⟨(reported_lines _ {} {} 2).1 rfl, (reported_lines _ {} {} 2).2.1 rfl,
    (reported_lines _ {} {} 2).2.2 rfl⟩

/-- A string with a newline after a backslash. -/
def takenNewline : List Char := ['"', '\\', '\n', '"']

/-- A newline that a backslash takes in a string. -/
theorem Text.Inside.newline : Text.Inside ['\\', '\n'] ['\n'] 1 := .taken .nil '\n'

/-- Below a string with a newline after a backslash, the line that is named is one too small. -/
theorem reported_lines_too_small :
    1 ≠ 1 + takenNewline.count '\n' ∧
    (Reader.Passed takenNewline [] 1 ∧ Reader.Opens 0 [] ∧
      Form.ofSource (String.ofList (takenNewline ++ [')'])) = .error (.unexpectedClose 1)) ∧
    (Laid takenNewline [.text "\n"] 1 ∧ Unclosed [] ∧
      (feed (String.ofList (takenNewline ++ ['"'])) {}).1 = .error (.unterminatedString 1)) ∧
    (Spelt "!define".toList "!define".toList ∧
      (feed (String.ofList (takenNewline ++ "!define".toList)) {}).1 =
        .error (.incompleteDefine 1)) := by
  have hlaid : Laid takenNewline [.text "\n"] 1 := .text .start .newline
  exact ⟨by decide, ⟨.string .start .newline, .nil, rfl⟩,
    ⟨hlaid, ⟨_, _, _, .nil, .inl rfl⟩, rfl⟩, spelt_self rfl, rfl⟩

end LispEngines
