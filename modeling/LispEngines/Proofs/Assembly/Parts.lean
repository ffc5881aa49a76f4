import LispEngines.Proofs.Assembly.Statement
import LispEngines.Proofs.Assembly.Tokens
import Mathlib.Algebra.Ring.Parity
import Mathlib.Data.List.Induction

/-!
# Assembly text in parts

A program can be fed to the assembler in parts, and it makes no difference where it is cut, as
long as it is cut between two lines.  The result is `Assembler.feed_in_parts`: the parts leave the
same program under construction, and what is wrong with the second part is wrong with the whole,
only on a line further down.

The tokenizer forgets what came before a newline, except that it knows a number of lines and the
tokens found so far (`Tokenizer.next_newline`).  To know them changes nothing but the
lines of what it finds and the tokens before it (`Tokenizer.below`, `Tokenizer.foldl_below`).
So the tokens of the whole are those of the parts (`Assembly.tokens_append`), and the
assembler, which takes the tokens of the first part to their end, goes on with those of
the second (`Assembler.feedTokens_append`).

There is one text after which the newline is not forgotten: one that ends with a backslash that
has nothing to take yet (`Assembly.Dangles`).
-/

namespace LispEngines

/-! ## Errors on other lines -/

namespace AssembleError

/-- The same error on a line so much further down. -/
def below (k : Nat) : AssembleError → AssembleError
  | .unterminatedString line => .unterminatedString (line + k)
  | .incompleteDefine line => .incompleteDefine (line + k)
  | e => e

/-- The same error, whatever line it is on. -/
def unlined : AssembleError → AssembleError
  | .unterminatedString _ => .unterminatedString 0
  | .incompleteDefine _ => .incompleteDefine 0
  | e => e

@[simp] theorem unlined_below (k : Nat) (e : AssembleError) : (e.below k).unlined = e.unlined := by
  cases e <;> rfl

end AssembleError

namespace Assembly

/-! ## The tokenizer further down -/

/-- The same token so many lines further down. -/
def Token.below (k : Nat) : Token → Token
  | .word s line => .word s (line + k)
  | .text s => .text s

@[simp] theorem Token.content_below (k : Nat) (t : Token) : (t.below k).content = t.content := by
  cases t <;> rfl

/-- The same mode so many lines further down. -/
def Mode.below (k : Nat) : Mode → Mode
  | .text start => .text (start + k)
  | .textEscape start => .textEscape (start + k)
  | m => m

namespace Tokenizer

variable {t u : Tokenizer} {k : Nat} {found : List Token} {c : Char}

/-- The same tokenizer so many lines further down, with tokens found before. -/
def below (k : Nat) (found : List Token) (t : Tokenizer) : Tokenizer where
  mode := t.mode.below k
  soFar := t.soFar
  line := t.line + k
  found := t.found.map (Token.below k) ++ found

theorem flush_below : (t.below k found).flush = t.flush.below k found := by
  unfold flush
  split
  · rw [if_pos ‹_›]
  · rw [if_neg ‹_›]
    rfl

theorem count_below : (t.below k found).count c = (t.count c).below k found := by
  unfold count
  split
  · simp only [below, Nat.add_right_comm]
  · rfl

theorem below_mk (m : Mode) (s : List Char) (line : Nat) (ts : List Token) :
    below k found ⟨m, s, line, ts⟩ =
      ⟨m.below k, s, line + k, ts.map (Token.below k) ++ found⟩ := rfl

/-- Further down the same rule applies. -/
theorem Rule.below (h : Rule t c u) (k : Nat) (found : List Token) :
    Rule (t.below k found) c (u.below k found) := by
  have hline (line : Nat) : (if c = '\n' then line + 1 else line) + k =
      if c = '\n' then line + k + 1 else line + k := by
    split
    · exact Nat.add_right_comm line 1 k
    · rfl
  have hflush (s : List Char) (line : Nat) (ts : List Token) :
      (Tokenizer.below k found ⟨.word, s, line, ts⟩).flush =
        Tokenizer.below k found (flush ⟨.word, s, line, ts⟩) := flush_below
  cases h with
  | escape s line ts => exact .escape ..
  | remark s line ts =>
    have hf := hflush s line ts
    have h := Rule.remark s (line + k) (ts.map (Token.below k) ++ found)
    rw [below_mk] at hf
    rwa [show Tokenizer.flush ⟨.word, s, line + k, _⟩ = _ from hf] at h
  | opening line ts => exact .opening ..
  | blank s line ts hc =>
    rw [← count_below, ← hflush]
    exact .blank s _ _ hc
  | letter s line ts hb hs hq hc => exact .letter s _ _ hb hs hq hc
  | escaped s line ts => simp only [below_mk, hline]; exact .escaped ..
  | remarked s line ts => simp only [below_mk, Nat.add_right_comm line 1 k]; exact .remarked ..
  | skipped s line ts hc => exact .skipped s _ _ hc
  | closing s start line ts => exact .closing ..
  | textEscape s start line ts => exact .textEscape ..
  | character s start line ts hq hb => simp only [below_mk, hline]; exact .character s _ _ _ hq hb
  | textEscaped s start line ts => exact .textEscaped ..

theorem foldl_below (cs : List Char) (t : Tokenizer) :
    cs.foldl next (t.below k found) = (cs.foldl next t).below k found := by
  induction cs generalizing t with
  | nil => rfl
  | cons c cs ih => rw [List.foldl_cons, ((t.rule_next c).below k found).next_eq, ih, List.foldl_cons]

/-- What comes of the rest of a text, further down. -/
theorem finish_below : (t.below k found).finish =
    match t.finish with
    | .ok ts => .ok (found.reverse ++ ts.map (Token.below k))
    | .error e => .error (e.below k) := by
  have hflush : (t.below k found).flush.found.reverse =
      found.reverse ++ t.flush.found.reverse.map (Token.below k) := by
    rw [flush_below, below, List.reverse_append, List.map_reverse]
  obtain ⟨mode, soFar, line, before⟩ := t
  cases mode with
  | word | wordEscape | comment => exact congrArg _ hflush
  | text | textEscape => rfl

/-! ## The end of a line -/

/-- A comment does not begin before the word has ended. -/
theorem Rule.soFar_of_comment (h : Rule t c u) (ht : t.mode = .comment → t.soFar = []) :
    u.mode = .comment → u.soFar = [] := by
  cases h with
  | remark s line ts =>
    intro _
    show (Tokenizer.flush _).soFar = []
    unfold flush
    split
    · exact List.isEmpty_iff.mp ‹_›
    · rfl
  | blank s line ts hc =>
    unfold flush count
    repeat' split
    all_goals intro h; cases h
  | skipped s line ts hc => exact ht
  | _ => intro h; cases h

theorem soFar_of_comment {cs : List Char} (h : (cs.foldl next {}).mode = .comment) :
    (cs.foldl next {}).soFar = [] := by
  suffices hall : ∀ t : Tokenizer, (t.mode = .comment → t.soFar = []) →
      (cs.foldl next t).mode = .comment → (cs.foldl next t).soFar = [] from
    hall {} (fun _ => rfl) h
  clear h
  induction cs with
  | nil => exact fun t ht => ht
  | cons c cs ih => exact fun t ht => ih _ ((t.rule_next c).soFar_of_comment ht)

/-- After a newline that ends a word or a comment, the tokenizer knows how many lines there were and
what was found, and nothing else. -/
theorem next_newline {cs : List Char} {ts : List Token} (h : tokens cs = .ok ts)
    (hm : (cs.foldl next {}).mode ≠ .wordEscape) :
    (cs.foldl next {}).next '\n' =
      Tokenizer.below (cs.foldl next {}).line ts.reverse {} := by
  have hc : (cs.foldl next {}).mode = .comment → _ := soFar_of_comment
  unfold tokens at h
  generalize cs.foldl next {} = t at h hm hc ⊢
  obtain ⟨mode, s, line, found⟩ := t
  cases mode with
  | word =>
    rw [(Rule.blank s line found rfl).next_eq]
    obtain rfl := Except.ok.inj h
    unfold flush
    split
    · obtain rfl : s = [] := List.isEmpty_iff.mp ‹_›
      simp [count, below, Mode.below, Nat.add_comm]
    · simp [count, below, Mode.below, Nat.add_comm, *]
  | wordEscape => exact absurd rfl hm
  | comment =>
    obtain rfl : s = [] := hc rfl
    obtain rfl := Except.ok.inj h
    rw [(Rule.remarked [] line found).next_eq]
    simp [flush, below, Mode.below, Nat.add_comm]
  | text | textEscape => cases h

end Tokenizer

/-- The tokens of two texts, one below the other. -/
theorem tokens_append {a : List Char} {ts : List Token} (h : tokens a = .ok ts)
    (hm : (a.foldl Tokenizer.next {}).mode ≠ .wordEscape) (b : List Char) :
    tokens (a ++ '\n' :: b) =
      match tokens b with
      | .ok us => .ok (ts ++ us.map (Token.below (a.foldl Tokenizer.next {}).line))
      | .error e => .error (e.below (a.foldl Tokenizer.next {}).line) := by
  rw [tokens, List.foldl_append, List.foldl_cons, Tokenizer.next_newline h hm,
    Tokenizer.foldl_below, Tokenizer.finish_below, List.reverse_reverse, tokens]

/-! ## A backslash with nothing to take -/

/-- Outside a comment, a text ends with a backslash that no other backslash takes: with an odd
number of them. -/
def Dangles (cs : List Char) : Prop :=
  Odd (cs.reverse.takeWhile (· == '\\')).length ∧ (cs.foldl Tokenizer.next {}).mode ≠ .comment

/-- In a word the last backslashes come in pairs, except for the one that waits. -/
theorem Tokenizer.Rule.parity {t u : Tokenizer} {c : Char} (h : Rule t c u) {cs : List Char}
    (hw : t.mode = .word → Even (cs.takeWhile (· == '\\')).length)
    (he : t.mode = .wordEscape → Odd (cs.takeWhile (· == '\\')).length) :
    (u.mode = .word → Even ((c :: cs).takeWhile (· == '\\')).length) ∧
      (u.mode = .wordEscape → Odd ((c :: cs).takeWhile (· == '\\')).length) := by
  have hother (hc : c ≠ '\\') : Even ((c :: cs).takeWhile (· == '\\')).length := by
    rw [List.takeWhile_cons, if_neg (by simpa using hc)]
    exact Even.zero
  have hback (hc : c = '\\') : ((c :: cs).takeWhile (· == '\\')).length =
      (cs.takeWhile (· == '\\')).length + 1 := by
    rw [List.takeWhile_cons, if_pos (by simpa using hc), List.length_cons]
  cases h with
  | escape => exact ⟨(nomatch ·), fun _ => hback rfl ▸ (hw rfl).add_one⟩
  | escaped =>
    refine ⟨fun _ => ?_, (nomatch ·)⟩
    by_cases hc : c = '\\'
    · rw [hback hc]
      exact (he rfl).add_one
    · exact hother hc
  | blank s k ts hb =>
    have hc : c ≠ '\\' := by rintro rfl; cases hb
    refine ⟨fun _ => hother hc, ?_⟩
    unfold flush count
    repeat' split
    all_goals intro hm; cases hm
  | letter s k ts hb => exact ⟨fun _ => hother hb, (nomatch ·)⟩
  | remarked | closing => exact ⟨fun _ => hother (by decide), (nomatch ·)⟩
  | _ => exact ⟨(nomatch ·), (nomatch ·)⟩

theorem dangles_of_mode {cs : List Char} (h : (cs.foldl Tokenizer.next {}).mode = .wordEscape) :
    Dangles cs := by
  refine ⟨?_, fun hc => nomatch h.symm.trans hc⟩
  suffices hall : ∀ (t : Tokenizer) (before : List Char),
      (t.mode = .word → Even (before.takeWhile (· == '\\')).length) →
      (t.mode = .wordEscape → Odd (before.takeWhile (· == '\\')).length) →
      (cs.foldl Tokenizer.next t).mode = .wordEscape →
        Odd ((cs.reverse ++ before).takeWhile (· == '\\')).length by
    simpa using hall {} [] (fun _ => Even.zero) ((nomatch ·)) h
  clear h
  induction cs with
  | nil => exact fun _ _ _ he => he
  | cons c cs ih =>
    intro t before hw he hm
    obtain ⟨hw', he'⟩ := (t.rule_next c).parity hw he
    rw [List.reverse_cons, List.append_assoc]
    exact ih _ (c :: before) hw' he' hm

end Assembly

/-! ## The assembler -/

namespace Assembler

open Assembly

variable {asm asm₁ asm₂ : Assembler} {ts : List Token}

/-- Tokens as the assembler takes them: a `!define` with its operands at once. -/
theorem tokens_induction {motive : List Token → Prop} (nil : motive [])
    (text : ∀ s rest, motive rest → motive (.text s :: rest))
    (definition : ∀ line name value rest, motive rest →
      motive (.word "!define" line :: name :: value :: rest))
    (lacking : ∀ line rest, rest.length < 2 → motive (.word "!define" line :: rest))
    (word : ∀ s line rest, s ≠ "!define" → motive rest → motive (.word s line :: rest)) :
    ∀ ts, motive ts
  | [] => nil
  | .text s :: rest => text s rest (tokens_induction nil text definition lacking word rest)
  | .word s line :: rest => by
    by_cases hs : s = "!define"
    · subst hs
      match rest with
      | [] => exact lacking line [] Nat.zero_lt_two
      | [name] => exact lacking line [name] Nat.one_lt_two
      | name :: value :: rest =>
        exact definition line name value rest
          (tokens_induction nil text definition lacking word rest)
    · exact word s line rest hs (tokens_induction nil text definition lacking word rest)

theorem feedTokens_definition (line : Nat) (name value : Token) (rest : List Token) :
    feedTokens (.word "!define" line :: name :: value :: rest) = (do
      define name.content (← definition value.content)
      feedTokens rest) := rfl

theorem feedTokens_lacking (line : Nat) {rest : List Token} (hlack : rest.length < 2) :
    feedTokens (.word "!define" line :: rest) = throw (.incompleteDefine line) := by
  match rest, hlack with
  | [], _ => rfl
  | [_], _ => rfl

/-- Tokens that are taken to their end leave the next ones to be taken by themselves. -/
theorem feedTokens_append (h : feedTokens ts asm = (.ok (), asm₁)) (us : List Token) :
    feedTokens (ts ++ us) asm = feedTokens us asm₁ := by
  induction ts using tokens_induction generalizing asm with
  | nil => cases h; rfl
  | text s rest ih => exact ih h
  | definition line name value rest ih =>
    rw [feedTokens_definition] at h
    obtain ⟨label, b, hb, h⟩ := bind_eq_ok h
    obtain ⟨_, c, hc, h⟩ := bind_eq_ok h
    show feedTokens (.word "!define" line :: name :: value :: (rest ++ us)) asm = _
    rw [feedTokens_definition, bind_ok hb, bind_ok hc, ih h]
  | lacking line rest hlack =>
    rw [feedTokens_lacking line hlack] at h
    cases h
  | word s line rest hs ih =>
    rw [feedTokens_word hs] at h
    obtain ⟨_, b, hb, h⟩ := bind_eq_ok h
    rw [List.cons_append, feedTokens_word hs, bind_ok hb, ih h]

/-- The same work, its errors so many lines further down. -/
def further {α : Type} (k : Nat) (x : Assembling α) : Assembling α :=
  fun asm => ((x asm).1.mapError (AssembleError.below k), (x asm).2)

theorem further_bind {α β : Type} (k : Nat) (x : Assembling α) (f : α → Assembling β) :
    further k (x >>= f) = further k x >>= fun a => further k (f a) := by
  funext asm
  show (fun r : Except AssembleError β × Assembler => (r.1.mapError (AssembleError.below k), r.2))
      (ExceptT.bindCont f (x asm).1 (x asm).2) =
    ExceptT.bindCont (fun a => further k (f a)) ((x asm).1.mapError _) (x asm).2
  rcases x asm with ⟨e | a, asm₁⟩ <;> rfl

theorem further_define (k : Nat) (name : String) (label : Label) :
    further k (define name label) = define name label := by
  rw [define, further_bind]
  congr
  funext asm
  split <;> rfl

theorem further_definition (k : Nat) (value : String) :
    further k (definition value) = definition value := by
  rw [definition]
  split
  · rfl
  · rw [further_bind]
    congr
    funext asm
    split <;> rfl

theorem further_feedWord (k : Nat) (s : String) : further k (feedWord s) = feedWord s := by
  rw [feedWord]
  split
  · rw [further_bind]
    congr
    funext asm
    split <;> rfl
  · split
    · rfl
    · split
      · rfl
      · rfl
      · rw [further_bind]
        congr
        funext asm
        exact further_define k _ _

/-- On other lines, the same happens except that errors are on other lines. -/
theorem feedTokens_below (k : Nat) (ts : List Token) :
    feedTokens (ts.map (Token.below k)) = further k (feedTokens ts) := by
  induction ts using tokens_induction with
  | nil => rfl
  | text s rest ih =>
    show (do emit (.word (← addData (.text s))); feedTokens (rest.map (Token.below k)) :
      Assembling Unit) = _
    rw [ih]
    rfl
  | definition line name value rest ih =>
    show feedTokens (.word "!define" (line + k) :: name.below k :: value.below k ::
      rest.map (Token.below k)) = _
    simp only [feedTokens_definition, further_bind, further_definition, further_define, ih,
      Token.content_below]
  | lacking line rest hlack =>
    show feedTokens (.word "!define" (line + k) :: rest.map (Token.below k)) = _
    rw [feedTokens_lacking _ hlack, feedTokens_lacking _ (by rwa [List.length_map])]
    rfl
  | word s line rest hs ih =>
    rw [List.map_cons, Token.below, feedTokens_word hs, feedTokens_word hs, ih, further_bind,
      further_feedWord]

/-- Both leave the same program under construction, or both fail with the same error, perhaps on
different lines. -/
def SameOutcome : Except AssembleError Unit × Assembler → Except AssembleError Unit × Assembler → Prop
  | (.ok (), b), (.ok (), c) => b = c
  | (.error e, _), (.error f, _) => e.unlined = f.unlined
  | _, _ => False

/-- **Feeding in parts**: where the assembler takes a text that does not end with a dangling
backslash, it takes another text after it as it takes both at once, one below the other. -/
theorem feed_in_parts {a : String} (hcut : ¬ Dangles a.toList) (h : feed a asm = (.ok (), asm₁))
    (b : String) :
    SameOutcome ((do feed a; feed b : Assembling Unit) asm) (feed (a ++ "\n" ++ b) asm) := by
  have hm : (a.toList.foldl Tokenizer.next {}).mode ≠ .wordEscape := fun hm =>
    hcut (dangles_of_mode hm)
  rw [bind_ok h]
  obtain ⟨ts, hts, hfeed⟩ : ∃ ts, tokens a.toList = .ok ts ∧
      feedTokens ts asm = (.ok (), asm₁) := by
    rw [feed] at h
    rcases hts : tokens a.toList with e | ts <;> rw [hts] at h
    · cases h
    · exact ⟨ts, rfl, h⟩
  have hwhole : (a ++ "\n" ++ b).toList = a.toList ++ '\n' :: b.toList := by
    rw [String.toList_append, String.toList_append, List.append_assoc]
    rfl
  rw [feed, feed, hwhole, tokens_append hts hm]
  rcases tokens b.toList with e | us
  · exact (AssembleError.unlined_below _ e).symm
  · show SameOutcome (feedTokens us asm₁) (feedTokens (ts ++ us.map _) asm)
    rw [feedTokens_append hfeed, feedTokens_below]
    rcases hus : feedTokens us asm₁ with ⟨e | _, asm₂⟩
    · simp only [further, hus]
      exact (AssembleError.unlined_below _ e).symm
    · simp only [further, hus]
      exact rfl

/-- A string and a remark that ends with a backslash; then a string without an end. -/
theorem feed_in_parts_of_remark :
    ¬ Dangles "\"a\" ; \\".toList ∧
    SameOutcome ((do feed "\"a\" ; \\"; feed "\"b" : Assembling Unit) {})
      (feed ("\"a\" ; \\" ++ "\n" ++ "\"b") {}) := by
  have hcut : ¬ Dangles "\"a\" ; \\".toList := by
    rintro ⟨-, hm⟩
    exact hm rfl
  have hfeed : feed "\"a\" ; \\" {} =
      (.ok (), { slots := #[.word 0], data := #[.text "a"] }) := rfl
  exact ⟨hcut, feed_in_parts hcut hfeed _⟩

end Assembler

end LispEngines
