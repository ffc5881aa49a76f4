import LispEngines.Reader.Lexeme
import Mathlib.Data.List.TakeWhile

/-!
# How a source is divided

A source is a sequence of gaps, comments, parentheses, strings and words.  `Divides` says this
without a scanner: a comment goes as far as its line, a string to the first quote that no backslash
hides, and a word is as long as it can be.  The source may also end inside a string; the lexemes
are then those before it.

Every source can be divided (`exists_divides`), and in one way only (`Divides.unique`).  The lexer
finds this division (`Divides.lexemes?_eq`), and the count of parentheses sees the same parentheses
(`Divides.balance`).
-/

namespace LispEngines.Reader

/-! ## The division -/

/-- The characters between the quotes of a string, and those that they denote. -/
inductive Quotes : List Char → List Char → Prop
  | nil : Quotes [] []
  | plain {c : Char} {raw content : List Char} (hq : c ≠ '"') (hb : c ≠ '\\')
      (h : Quotes raw content) : Quotes (c :: raw) (c :: content)
  | escape {raw content : List Char} (c : Char) (h : Quotes raw content) :
      Quotes ('\\' :: c :: raw) (unescaped c :: content)

/-- A source consists of these lexemes; and it ends inside a string, or not. -/
inductive Divides : List Char → List Lexeme → Bool → Prop
  | done : Divides [] [] false
  | gap {c : Char} {cs : List Char} {ls : List Lexeme} {o : Bool} (hc : isGap c = true)
      (h : Divides cs ls o) : Divides (c :: cs) ls o
  /-- A comment goes up to a newline, or to the end. -/
  | comment {body cs : List Char} {ls : List Lexeme} {o : Bool} (hb : '\n' ∉ body)
      (he : ∀ c ∈ cs.head?, c = '\n') (h : Divides cs ls o) : Divides (';' :: (body ++ cs)) ls o
  | opening {cs : List Char} {ls : List Lexeme} {o : Bool} (h : Divides cs ls o) :
      Divides ('(' :: cs) (.opening :: ls) o
  | closing {cs : List Char} {ls : List Lexeme} {o : Bool} (h : Divides cs ls o) :
      Divides (')' :: cs) (.closing :: ls) o
  | quoted {raw content cs : List Char} {ls : List Lexeme} {o : Bool} (hq : Quotes raw content)
      (h : Divides cs ls o) :
      Divides ('"' :: (raw ++ '"' :: cs)) (.quoted (String.ofList content) :: ls) o
  /-- A string without an end. -/
  | endless {raw content : List Char} (hq : Quotes raw content) : Divides ('"' :: raw) [] true
  /-- A string that ends with a backslash that hides nothing. -/
  | hidden {raw content : List Char} (hq : Quotes raw content) :
      Divides ('"' :: (raw ++ ['\\'])) [] true
  /-- A word is as long as it can be. -/
  | word {w cs : List Char} {ls : List Lexeme} {o : Bool} (hw : w ≠ [])
      (hc : ∀ c ∈ w, isWordChar c = true) (he : ∀ c ∈ cs.head?, isWordChar c = false)
      (h : Divides cs ls o) : Divides (w ++ cs) (.word (String.ofList w) :: ls) o

/-! ## Every source can be divided -/

/-- A string comes to its end, or the source does. -/
theorem exists_quotes : ∀ cs : List Char,
    (∃ raw content rest, cs = raw ++ '"' :: rest ∧ Quotes raw content) ∨
    ∃ raw content, Quotes raw content ∧ (cs = raw ∨ cs = raw ++ ['\\'])
  | [] => .inr ⟨[], [], .nil, .inl rfl⟩
  | c :: cs => by
    by_cases hq : c = '"'
    · subst hq
      exact .inl ⟨[], [], cs, rfl, .nil⟩
    by_cases hb : c = '\\'
    · subst hb
      match cs with
      | [] => exact .inr ⟨[], [], .nil, .inr rfl⟩
      | d :: cs =>
        rcases exists_quotes cs with ⟨raw, content, rest, rfl, h⟩ | ⟨raw, content, h, he⟩
        · exact .inl ⟨_, _, rest, rfl, .escape d h⟩
        · refine .inr ⟨_, _, .escape d h, ?_⟩
          rcases he with rfl | rfl
          · exact .inl rfl
          · exact .inr rfl
    · rcases exists_quotes cs with ⟨raw, content, rest, rfl, h⟩ | ⟨raw, content, h, he⟩
      · exact .inl ⟨_, _, rest, rfl, .plain hq hb h⟩
      · refine .inr ⟨_, _, .plain hq hb h, ?_⟩
        rcases he with rfl | rfl
        · exact .inl rfl
        · exact .inr rfl

/-- What is no gap and starts no other lexeme is a character of a word. -/
theorem isWordChar_iff {c : Char} : isWordChar c = true ↔
    isGap c = false ∧ c ≠ '(' ∧ c ≠ ')' ∧ c ≠ '"' ∧ c ≠ ';' := by
  simp [isWordChar, and_assoc]

/-- After the longest beginning of one sort comes something of another sort. -/
theorem head?_dropWhile {p : Char → Bool} {cs : List Char} :
    ∀ c ∈ (cs.dropWhile p).head?, p c = false := by
  intro c hc
  have h := List.head?_dropWhile_not p cs
  rw [hc] at h
  simpa using h

theorem exists_divides (cs : List Char) : ∃ ls o, Divides cs ls o := by
  induction hn : cs.length using Nat.strongRecOn generalizing cs with
  | ind n ih =>
    subst hn
    match cs with
    | [] => exact ⟨[], false, .done⟩
    | c :: cs =>
      have hrest (ds : List Char) (hd : ds.length ≤ cs.length) : ∃ ls o, Divides ds ls o :=
        ih ds.length (Nat.lt_succ_of_le hd) ds rfl
      by_cases hg : isGap c = true
      · obtain ⟨ls, o, h⟩ := hrest cs (Nat.le_refl cs.length)
        exact ⟨ls, o, .gap hg h⟩
      by_cases ho : c = '('
      · subst ho
        obtain ⟨ls, o, h⟩ := hrest cs (Nat.le_refl cs.length)
        exact ⟨_, o, .opening h⟩
      by_cases hcl : c = ')'
      · subst hcl
        obtain ⟨ls, o, h⟩ := hrest cs (Nat.le_refl cs.length)
        exact ⟨_, o, .closing h⟩
      by_cases hq : c = '"'
      · subst hq
        rcases exists_quotes cs with ⟨raw, content, rest, rfl, h⟩ | ⟨raw, content, h, rfl | rfl⟩
        · obtain ⟨ls, o, hd⟩ := hrest rest (by simp only [List.length_append, List.length_cons]; omega)
          exact ⟨_, o, .quoted h hd⟩
        · exact ⟨[], true, .endless h⟩
        · exact ⟨[], true, .hidden h⟩
      by_cases hs : c = ';'
      · subst hs
        obtain ⟨ls, o, h⟩ := hrest (cs.dropWhile (· ≠ '\n')) (List.length_dropWhile_le _ _)
        refine ⟨ls, o, ?_⟩
        have hbody : '\n' ∉ cs.takeWhile (· ≠ '\n') := fun hm => by
          simpa using List.mem_takeWhile_imp hm
        have hdiv := Divides.comment hbody (fun c hc => by simpa using head?_dropWhile c hc) h
        rwa [List.takeWhile_append_dropWhile] at hdiv
      · have hw : isWordChar c = true := isWordChar_iff.mpr ⟨by simpa using hg, ho, hcl, hq, hs⟩
        obtain ⟨ls, o, h⟩ := hrest (cs.dropWhile isWordChar) (List.length_dropWhile_le _ _)
        refine ⟨.word (String.ofList (c :: cs.takeWhile isWordChar)) :: ls, o, ?_⟩
        have hall : ∀ d ∈ c :: cs.takeWhile isWordChar, isWordChar d = true := fun d hd => by
          rcases List.mem_cons.mp hd with rfl | hd
          · exact hw
          · exact List.mem_takeWhile_imp hd
        have hdiv := Divides.word (List.cons_ne_nil _ _) hall head?_dropWhile h
        rwa [List.cons_append, List.takeWhile_append_dropWhile] at hdiv

/-! ## The lexer finds the division -/

variable {cs raw content body w : List Char} {ls : List Lexeme} {o : Bool} {c : Char}

/-- The lexer has found these lexemes; and the source ends inside a string, or not. -/
def Lexer.Finds (l : Lexer) (ls : List Lexeme) (o : Bool) : Prop :=
  if o then l.finish = none ∧ l.found.reverse = ls else l.finish = some ls

theorem next_gap (hc : isGap c = true) (found : List Lexeme) :
    Lexer.next ⟨.between, found⟩ c = ⟨.between, found⟩ := by
  show Lexer.start found c = _
  unfold Lexer.start
  rw [if_pos hc]

theorem next_word (hc : isWordChar c = true) (found : List Lexeme) :
    Lexer.next ⟨.between, found⟩ c = ⟨.word [c], found⟩ := by
  obtain ⟨hg, ho, hcl, hq, hs⟩ := isWordChar_iff.mp hc
  show Lexer.start found c = _
  unfold Lexer.start
  rw [if_neg (by simp [hg])]
  split <;> first | contradiction | rfl

theorem foldl_comment (hb : '\n' ∉ body) (found : List Lexeme) :
    body.foldl Lexer.next ⟨.comment, found⟩ = ⟨.comment, found⟩ := by
  induction body with
  | nil => rfl
  | cons c body ih =>
    rw [List.mem_cons, not_or] at hb
    have hn : Lexer.next ⟨.comment, found⟩ c = ⟨.comment, found⟩ := if_neg (Ne.symm hb.1)
    rw [List.foldl_cons, hn]
    exact ih hb.2

theorem foldl_quotes (hq : Quotes raw content) (soFar : List Char) (found : List Lexeme) :
    raw.foldl Lexer.next ⟨.quoted soFar, found⟩ =
      ⟨.quoted (content.reverse ++ soFar), found⟩ := by
  induction hq generalizing soFar with
  | nil => rfl
  | @plain c raw content hq hb _ ih =>
    have hn : Lexer.next ⟨.quoted soFar, found⟩ c = ⟨.quoted (c :: soFar), found⟩ := by
      unfold Lexer.next
      dsimp only
      split <;> first | contradiction | rfl
    rw [List.foldl_cons, hn, ih, List.reverse_cons, List.append_assoc]
    rfl
  | @escape raw content c _ ih =>
    show raw.foldl Lexer.next ⟨.quoted (unescaped c :: soFar), found⟩ = _
    rw [ih, List.reverse_cons, List.append_assoc]
    rfl

theorem foldl_word (hc : ∀ c ∈ w, isWordChar c = true) (soFar : List Char) (found : List Lexeme) :
    w.foldl Lexer.next ⟨.word soFar, found⟩ = ⟨.word (w.reverse ++ soFar), found⟩ := by
  induction w generalizing soFar with
  | nil => rfl
  | cons c w ih =>
    have hn : Lexer.next ⟨.word soFar, found⟩ c = ⟨.word (c :: soFar), found⟩ :=
      if_pos (hc c (List.mem_cons_self ..))
    rw [List.foldl_cons, hn, ih (fun d hd => hc d (List.mem_cons_of_mem _ hd)), List.reverse_cons, List.append_assoc]
    rfl

/-- Nothing is divided into nothing. -/
theorem eq_nil_of_divides (h : Divides cs ls o) (hn : cs = []) : ls = [] ∧ o = false := by
  cases h with
  | done => exact ⟨rfl, rfl⟩
  | word hw => exact absurd (List.append_eq_nil_iff.mp hn).1 hw
  | _ => cases hn

/-- Between two lexemes the lexer goes on to find the division of the rest. -/
theorem Divides.finds (h : Divides cs ls o) (found : List Lexeme) :
    (cs.foldl Lexer.next ⟨.between, found⟩).Finds (found.reverse ++ ls) o := by
  induction h generalizing found with
  | done => exact congrArg some (List.append_nil _).symm
  | gap hc _ ih =>
    rw [List.foldl_cons, next_gap hc]
    exact ih found
  | @comment body cs ls o hb he h ih =>
    show ((body ++ cs).foldl Lexer.next ⟨.comment, found⟩).Finds _ _
    rw [List.foldl_append, foldl_comment hb]
    rcases cs with _ | ⟨c, cs⟩
    · obtain ⟨rfl, rfl⟩ := eq_nil_of_divides h rfl
      exact congrArg some (List.append_nil _).symm
    · obtain rfl := he c rfl
      exact ih found
  | opening _ ih =>
    have h := ih (.opening :: found)
    rwa [List.reverse_cons, List.append_assoc] at h
  | closing _ ih =>
    have h := ih (.closing :: found)
    rwa [List.reverse_cons, List.append_assoc] at h
  | @quoted raw content cs ls o hq _ ih =>
    have h := ih (.quoted (String.ofList content) :: found)
    rw [List.reverse_cons, List.append_assoc] at h
    show ((raw ++ '"' :: cs).foldl Lexer.next ⟨.quoted [], found⟩).Finds _ _
    rw [List.foldl_append, foldl_quotes hq, List.foldl_cons, List.append_nil]
    show (cs.foldl Lexer.next ⟨.between, .quoted (spelling content.reverse) :: found⟩).Finds _ _
    rw [spelling, List.reverse_reverse]
    exact h
  | @endless raw content hq =>
    show (raw.foldl Lexer.next ⟨.quoted [], found⟩).Finds _ _
    rw [foldl_quotes hq]
    exact ⟨rfl, (List.append_nil _).symm⟩
  | @hidden raw content hq =>
    show ((raw ++ ['\\']).foldl Lexer.next ⟨.quoted [], found⟩).Finds _ _
    rw [List.foldl_append, foldl_quotes hq]
    exact ⟨rfl, (List.append_nil _).symm⟩
  | @word w cs ls o hw hc he h ih =>
    have hfound := ih (.word (String.ofList w) :: found)
    rw [List.reverse_cons, List.append_assoc] at hfound
    obtain ⟨d, w, rfl⟩ := List.exists_cons_of_ne_nil hw
    rw [List.cons_append, List.foldl_cons, next_word (hc d (List.mem_cons_self ..)),
      List.foldl_append, foldl_word (fun d hd => hc d (List.mem_cons_of_mem _ hd))]
    have hspell : spelling (w.reverse ++ [d]) = String.ofList (d :: w) := by
      rw [spelling, List.reverse_append, List.reverse_reverse]
      rfl
    rcases cs with _ | ⟨c, cs⟩
    · obtain ⟨rfl, rfl⟩ := eq_nil_of_divides h rfl
      refine congrArg some ?_
      rw [hspell, List.reverse_cons]
      rfl
    · have hn : Lexer.next ⟨.word (w.reverse ++ [d]), found⟩ c =
          Lexer.next ⟨.between, .word (String.ofList (d :: w)) :: found⟩ c := by
        rw [← hspell]
        exact if_neg (by simpa using he c rfl)
      rw [List.foldl_cons, hn]
      exact hfound

/-- The lexer finds the division of a source. -/
theorem Divides.lexemes?_eq (h : Divides cs ls o) :
    lexemes? cs = if o then none else some ls := by
  have hf := h.finds []
  unfold Lexer.Finds at hf
  cases o
  · exact hf
  · exact hf.1

/-- A source is divided in one way only. -/
theorem Divides.unique {ls' : List Lexeme} {o' : Bool} (h : Divides cs ls o)
    (h' : Divides cs ls' o') : ls' = ls ∧ o' = o := by
  have hf := h.finds []
  have hf' := h'.finds []
  unfold Lexer.Finds at hf hf'
  cases o <;> cases o'
  · exact ⟨Option.some.inj (hf'.symm.trans hf), rfl⟩
  · cases hf'.1.symm.trans hf
  · cases hf.1.symm.trans hf'
  · exact ⟨hf'.2.symm.trans hf.2, rfl⟩

/-! ## The count sees the same parentheses -/

/-- How many parentheses are open after some lexemes; nothing if one is closed that is not
open. -/
def depthAfter : List Lexeme → Nat → Option Nat
  | [], d => some d
  | .opening :: ls, d => depthAfter ls (d + 1)
  | .closing :: _, 0 => none
  | .closing :: ls, d + 1 => depthAfter ls d
  | .quoted _ :: ls, d => depthAfter ls d
  | .word _ :: ls, d => depthAfter ls d

/-- The count has come to so many open parentheses, or to one that was not open. -/
def Counts (d : Option Nat) (r : Except ReadError Balance) : Prop :=
  match d with
  | none => ∃ line, r = .error (.unexpectedClose line)
  | some d => ∃ b, r = .ok b ∧ b.depth = d

variable {d line : Nat}

theorem next_of_code (hn : c ≠ '\n') (hs : c ≠ ';') (hq : c ≠ '"') (ho : c ≠ '(')
    (hc : c ≠ ')') : Balance.next ⟨.code, d, line⟩ c = .ok ⟨.code, d, line⟩ := by
  unfold Balance.next
  dsimp only
  split <;> first | contradiction | rfl

theorem foldlM_comment (hb : '\n' ∉ body) :
    body.foldlM Balance.next ⟨.comment, d, line⟩ = .ok ⟨.comment, d, line⟩ := by
  induction body with
  | nil => rfl
  | cons c body ih =>
    rw [List.mem_cons, not_or] at hb
    have hn : Balance.next ⟨.comment, d, line⟩ c = .ok ⟨.comment, d, line⟩ :=
      if_neg (Ne.symm hb.1)
    rw [List.foldlM_cons, hn]
    exact ih hb.2

/-- In a string only the lines are counted. -/
theorem foldlM_quotes (d line : Nat) (hq : Quotes raw content) :
    ∃ line', raw.foldlM Balance.next ⟨.quoted, d, line⟩ = .ok ⟨.quoted, d, line'⟩ := by
  induction hq generalizing line with
  | nil => exact ⟨line, rfl⟩
  | @plain c raw content hq hb _ ih =>
    obtain ⟨line₁, hn⟩ : ∃ line₁, Balance.next ⟨.quoted, d, line⟩ c =
        .ok ⟨.quoted, d, line₁⟩ := by
      unfold Balance.next
      dsimp only
      split
      · contradiction
      · contradiction
      · exact ⟨line + 1, rfl⟩
      · exact ⟨line, rfl⟩
    rw [List.foldlM_cons, hn]
    exact ih line₁
  | escape c _ ih => exact ih line

theorem foldlM_word (hc : ∀ c ∈ w, isWordChar c = true) :
    w.foldlM Balance.next ⟨.code, d, line⟩ = .ok ⟨.code, d, line⟩ := by
  induction w with
  | nil => rfl
  | cons c w ih =>
    obtain ⟨hg, ho, hcl, hq, hs⟩ := isWordChar_iff.mp (hc c (List.mem_cons_self ..))
    have hnl : c ≠ '\n' := by
      rintro rfl
      cases hg
    rw [List.foldlM_cons, next_of_code hnl hs hq ho hcl]
    exact ih fun d hd => hc d (List.mem_cons_of_mem _ hd)

/-- Outside strings and comments, the count goes on as the division of the rest says. -/
theorem Divides.counts (h : Divides cs ls o) (d line : Nat) :
    Counts (depthAfter ls d) (cs.foldlM Balance.next ⟨.code, d, line⟩) := by
  induction h generalizing d line with
  | done => exact ⟨_, rfl, rfl⟩
  | @gap c cs ls o hc h ih =>
    by_cases hn : c = '\n'
    · subst hn
      exact ih d (line + 1)
    · have hne {e : Char} (he : isGap e = false) : c ≠ e := by
        rintro rfl
        cases hc.symm.trans he
      rw [List.foldlM_cons, next_of_code hn (hne rfl) (hne rfl) (hne rfl) (hne rfl)]
      exact ih d line
  | @comment body cs ls o hb he h ih =>
    show Counts _ ((body ++ cs).foldlM Balance.next ⟨.comment, d, line⟩)
    rw [List.foldlM_append, foldlM_comment hb]
    rcases cs with _ | ⟨c, cs⟩
    · obtain ⟨rfl, rfl⟩ := eq_nil_of_divides h rfl
      exact ⟨_, rfl, rfl⟩
    · -- the newline ends the comment, and counts as it would outside of one
      obtain rfl := he c rfl
      exact ih d line
  | opening _ ih => exact ih (d + 1) line
  | closing _ ih =>
    cases d with
    | zero => exact ⟨line, rfl⟩
    | succ d => exact ih d line
  | @quoted raw content cs ls o hq _ ih =>
    obtain ⟨line', hf⟩ := foldlM_quotes d line hq
    show Counts _ ((raw ++ '"' :: cs).foldlM Balance.next ⟨.quoted, d, line⟩)
    rw [List.foldlM_append, hf]
    exact ih d line'
  | @endless raw content hq =>
    obtain ⟨line', hf⟩ := foldlM_quotes d line hq
    exact ⟨_, hf, rfl⟩
  | @hidden raw content hq =>
    obtain ⟨line', hf⟩ := foldlM_quotes d line hq
    show Counts _ ((raw ++ ['\\']).foldlM Balance.next ⟨.quoted, d, line⟩)
    rw [List.foldlM_append, hf]
    exact ⟨_, rfl, rfl⟩
  | @word w cs ls o hw hc he _ ih =>
    rw [List.foldlM_append, foldlM_word hc]
    exact ih d line

/-- The count of a source. -/
theorem Divides.balance (h : Divides cs ls o) :
    (depthAfter ls 0 = none → ∃ line, checkBalance cs = .error (.unexpectedClose line)) ∧
    ∀ d, depthAfter ls 0 = some d →
      checkBalance cs = if d = 0 then .ok () else .error (.unclosed d) := by
  have hc := h.counts 0 1
  unfold checkBalance
  constructor
  · intro hn
    rw [hn] at hc
    obtain ⟨line, hl⟩ := hc
    exact ⟨line, by rw [hl]; rfl⟩
  · intro d hd
    rw [hd] at hc
    obtain ⟨b, hb, rfl⟩ := hc
    rw [hb]
    show (if b.depth = 0 then pure () else throw (.unclosed b.depth) : Except ReadError Unit) = _
    split <;> rfl

end LispEngines.Reader
