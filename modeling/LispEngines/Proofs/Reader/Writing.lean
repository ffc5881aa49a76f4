import LispEngines.Proofs.Reader.Reading
import LispEngines.Text.Quoted
import Mathlib.Data.List.Basic

/-!
# Reading what was written

A form is written as its lexemes, one after the other, with room between them: blanks, and comments
up to the end of their line (`Gap`).  Room may be missing everywhere except between two words, which
would become one.  `Laid` describes all these layouts.

Reading undoes writing under each of them (`ofSource_laid`).  Some care is due for the words only: a
number has to come back as the same number (`integer?_toString`), a symbol must not look like one,
and what follows a word must end it.  Quotes, semicolons and parentheses inside a string need none,
since a backslash stands before every character that could end the string (`quotes_fenced`).
-/

namespace LispEngines.Reader

variable {ls : List Lexeme} {fs : List Form} {cs gap : List Char} {o afterWord : Bool} {c : Char}

/-! ## Numbers -/

section Numbers

variable {w : String} {n : Nat}

theorem digits?_toDigits (n : Nat) : Text.digits? (Nat.toDigits 10 n) = some n := by
  have hall : (Nat.toDigits 10 n).all Char.isDigit = true :=
    List.all_eq_true.mpr fun c hc => Nat.isDigit_of_mem_toDigits (by decide) (by decide) hc
  have hne : (Nat.toDigits 10 n).isEmpty = false := by simp
  unfold Text.digits?
  rw [hne, hall]
  exact congrArg some (Nat.ofDigitChars_toDigits (by decide) (by decide))

/-- Digits do not begin with a sign. -/
theorem exists_toDigits (n : Nat) : ∃ c cs, Nat.toDigits 10 n = c :: cs ∧ c ≠ '-' ∧ c ≠ '+' := by
  obtain ⟨c, cs, hcs⟩ := List.exists_cons_of_ne_nil (Nat.toDigits_ne_nil : Nat.toDigits 10 n ≠ [])
  have hc : c.isDigit = true :=
    Nat.isDigit_of_mem_toDigits (b := 10) (n := n) (by decide) (by decide) (by simp [hcs])
  refine ⟨c, cs, hcs, ?_, ?_⟩
  · rintro rfl
    cases hc
  · rintro rfl
    cases hc

/-- A word of digits, perhaps after a minus. -/
def IsDecimal (w : String) (i : Int) : Prop :=
  ∃ n : Nat, (w.toList = Nat.toDigits 10 n ∧ i = n) ∨
    (w.toList = '-' :: Nat.toDigits 10 n ∧ i = -n)

theorem isDecimal_toString (i : Int) : IsDecimal (toString i) i := by
  show IsDecimal i.repr i
  rw [Int.repr_eq_if]
  split
  · rename_i h
    exact ⟨i.toNat, .inl ⟨Nat.toList_repr, (Int.toNat_of_nonneg h).symm⟩⟩
  · rename_i h
    refine ⟨(-i).toNat, .inr ⟨?_, ?_⟩⟩
    · rw [String.toList_append, Nat.toList_repr]
      rfl
    · rw [Int.toNat_of_nonneg (by omega), Int.neg_neg]

variable {i : Int}

theorem IsDecimal.isNumeral (h : IsDecimal w i) : Form.isNumeral w.toList = true := by
  obtain ⟨n, ⟨hw, -⟩ | ⟨hw, -⟩⟩ := h
  all_goals
    have hall : (Nat.toDigits 10 n).all Char.isDigit = true :=
      List.all_eq_true.mpr fun c hc => Nat.isDigit_of_mem_toDigits (by decide) (by decide) hc
    rw [hw]
    obtain ⟨c, cs, hcs, hm, -⟩ := exists_toDigits n
    rw [hcs] at hall ⊢
  · unfold Form.isNumeral
    split
    · rename_i h
      exact absurd (List.cons.inj h).1 hm
    · exact hall
  · exact hall

theorem IsDecimal.integer? (h : IsDecimal w i) : Text.integer? w = some i := by
  obtain ⟨n, ⟨hw, rfl⟩ | ⟨hw, rfl⟩⟩ := h <;> unfold Text.integer? <;> rw [hw]
  · have hn := digits?_toDigits n
    obtain ⟨c, cs, hcs, hm, hp⟩ := exists_toDigits n
    rw [hcs] at hn ⊢
    split
    · rename_i h
      exact absurd (List.cons.inj h).1 hm
    · rename_i h
      exact absurd (List.cons.inj h).1 hp
    · rw [hn]
      rfl
  · show (Text.digits? (Nat.toDigits 10 n)).map (fun n => -(n : Int)) = _
    rw [digits?_toDigits]
    rfl

theorem IsDecimal.isWordChar (h : IsDecimal w i) : ∀ c ∈ w.toList, isWordChar c = true := by
  have hdigit {n : Nat} {c : Char} (hc : c ∈ Nat.toDigits 10 n) : Reader.isWordChar c = true :=
    isWordChar_of_isDigit (Nat.isDigit_of_mem_toDigits (by decide) (by decide) hc)
  obtain ⟨n, ⟨hw, -⟩ | ⟨hw, -⟩⟩ := h <;> rw [hw]
  · exact fun c => hdigit
  · intro c hc
    rcases List.mem_cons.mp hc with rfl | hc
    · rfl
    · exact hdigit hc

theorem IsDecimal.ne_nil (h : IsDecimal w i) : w.toList ≠ [] := by
  obtain ⟨n, ⟨hw, -⟩ | ⟨hw, -⟩⟩ := h <;> rw [hw]
  · exact Nat.toDigits_ne_nil
  · exact List.cons_ne_nil _ _

end Numbers

/-! ## Strings -/

/-- The characters by which a character stands between quotes. -/
def escapes (c : Char) : List Char := if c = '"' ∨ c = '\\' then ['\\', c] else [c]

theorem toList_fenced (s : String) :
    (Text.fenced s).toList = '"' :: (s.toList.flatMap escapes ++ ['"']) := by
  unfold Text.fenced
  rw [String.toList_append, String.toList_append, String.toList_join, List.flatMap_map]
  have hc (c : Char) : (if c = '"' ∨ c = '\\' then String.ofList ['\\', c]
      else String.singleton c).toList = escapes c := by
    unfold escapes
    split <;> simp
  simp only [hc]
  rfl

/-- Every text can stand between quotes. -/
theorem quotes_escapes (cs : List Char) : Quotes (cs.flatMap escapes) cs := by
  induction cs with
  | nil => exact .nil
  | cons c cs ih =>
    rw [List.flatMap_cons, escapes]
    split
    · rename_i hc
      have hu : unescaped c = c := by rcases hc with rfl | rfl <;> rfl
      have h := Quotes.escape c ih
      rwa [hu] at h
    · rename_i hc
      rw [not_or] at hc
      exact .plain hc.1 hc.2 ih

/-! ## Forms -/

/-- Forms whose symbols can be read: the spelling of a symbol is a word, and no numeral. -/
inductive Readable : Form → Prop
  | number (n : Int64) : Readable (.number n)
  | symbol {s : String} (hs : s.toList ≠ []) (hc : ∀ c ∈ s.toList, isWordChar c = true)
      (hn : Form.isNumeral s.toList = false) : Readable (.symbol s)
  | text (s : String) : Readable (.text s)
  | list {items : List Form} (h : ∀ f ∈ items, Readable f) : Readable (.list items)

mutual

/-- The lexemes that a form is written with. -/
def lexemesOf : Form → List Lexeme
  | .number n => [.word (toString n.toInt)]
  | .symbol s => [.word s]
  | .text s => [.quoted s]
  | .list items => .opening :: (lexemesOfAll items ++ [.closing])

/-- The lexemes that forms are written with, from left to right. -/
def lexemesOfAll : List Form → List Lexeme
  | [] => []
  | f :: fs => lexemesOf f ++ lexemesOfAll fs

end

mutual

/-- The lexemes of a form spell it. -/
theorem reads_lexemesOf : ∀ (f : Form) (_ : Readable f) {ls : List Lexeme} {fs : List Form},
    Reads ls fs → Reads (lexemesOf f ++ ls) (f :: fs)
  | .number n, _, _, _, h =>
    have hd := isDecimal_toString n.toInt
    .number hd.isNumeral hd.integer? h
  | .symbol _, .symbol _ _ hn, _, _, h => .symbol hn h
  | .text _, _, _, _, h => .text h
  | .list items, .list hi, _, _, h => by
    rw [lexemesOf, List.cons_append, List.append_assoc]
    exact .list (reads_lexemesOfAll items hi) h

theorem reads_lexemesOfAll : ∀ (fs : List Form) (_ : ∀ f ∈ fs, Readable f),
    Reads (lexemesOfAll fs) fs
  | [], _ => .nil
  | f :: fs, hf => reads_lexemesOf f (hf f (List.mem_cons_self ..))
    (reads_lexemesOfAll fs fun g hg => hf g (List.mem_cons_of_mem _ hg))

end

/-- The parentheses of lexemes that spell forms match. -/
theorem Reads.depthAfter_eq (h : Reads ls fs) (d : Nat) : depthAfter ls d = some d := by
  induction h generalizing d with
  | nil => rfl
  | symbol _ _ ih => exact ih d
  | number _ _ _ ih => exact ih d
  | text _ ih => exact ih d
  | list _ _ ihi ih =>
    rw [depthAfter, depthAfter_append, ihi]
    exact ih d

/-! ## Layouts -/

/-- Blanks, and comments with their newline. -/
inductive Gap : List Char → Prop
  | nil : Gap []
  | blank {c : Char} {cs : List Char} (hc : isGap c = true) (h : Gap cs) : Gap (c :: cs)
  | comment {body cs : List Char} (hb : '\n' ∉ body) (h : Gap cs) :
      Gap (';' :: (body ++ '\n' :: cs))

/-- The text of a lexeme, when strings are written by `quote`. -/
def written (quote : String → String) : Lexeme → List Char
  | .opening => ['(']
  | .closing => [')']
  | .quoted s => (quote s).toList
  | .word w => w.toList

/-- The lexeme is a word. -/
def Lexeme.isWord : Lexeme → Bool
  | .word _ => true
  | _ => false

/-- The lexemes, written one after the other with gaps between them; between two words the gap is
not empty. -/
inductive Laid (quote : String → String) : (afterWord : Bool) → List Lexeme → List Char → Prop
  | nil {afterWord : Bool} {gap : List Char} (hg : Gap gap) : Laid quote afterWord [] gap
  | cons {afterWord : Bool} {gap cs : List Char} {l : Lexeme} {ls : List Lexeme} (hg : Gap gap)
      (hw : afterWord = true → l.isWord = true → gap ≠ []) (h : Laid quote l.isWord ls cs) :
      Laid quote afterWord (l :: ls) (gap ++ (written quote l ++ cs))

theorem Gap.divides (hg : Gap gap) (h : Divides cs ls o) : Divides (gap ++ cs) ls o := by
  induction hg with
  | nil => exact h
  | blank hc _ ih => exact .gap hc ih
  | comment hb _ ih =>
    rw [List.cons_append, List.append_assoc]
    exact .comment hb (forall_head rfl) (.gap rfl ih)

/-- A gap does not begin with a character of a word. -/
theorem Gap.head (hg : Gap gap) : ∀ c ∈ gap.head?, isWordChar c = false := by
  cases hg with
  | nil => exact forall_head_nil
  | blank hc => exact forall_head (by simp [isWordChar, hc])
  | comment => exact forall_head rfl

/-- What follows a word ends it. -/
theorem Laid.head (h : Laid Text.fenced true ls cs) : ∀ c ∈ cs.head?, isWordChar c = false := by
  cases h with
  | nil hg => exact hg.head
  | @cons _ gap cs l ls hg hw =>
    cases gap with
    | cons c gap => exact hg.head
    | nil =>
      cases l with
      | opening => exact forall_head rfl
      | closing => exact forall_head rfl
      | quoted s =>
        rw [List.nil_append, written, toList_fenced]
        exact forall_head rfl
      | word w => exact absurd rfl (hw rfl rfl)

/-- The words among these lexemes are words. -/
def Wordy (ls : List Lexeme) : Prop :=
  ∀ w, .word w ∈ ls → w.toList ≠ [] ∧ ∀ c ∈ w.toList, isWordChar c = true

/-- A layout of lexemes is divided into them. -/
theorem Laid.divides (h : Laid Text.fenced afterWord ls cs) (hw : Wordy ls) :
    Divides cs ls false := by
  induction h with
  | @nil _ gap hg =>
    have h := hg.divides .done
    rwa [List.append_nil] at h
  | @cons _ gap cs l ls hg _ h ih =>
    have hrest := ih fun w hm => hw w (List.mem_cons_of_mem _ hm)
    refine hg.divides ?_
    cases l with
    | opening => exact .opening hrest
    | closing => exact .closing hrest
    | quoted s =>
      have hs := Divides.quoted (quotes_escapes s.toList) hrest
      rw [String.ofList_toList] at hs
      rw [written, toList_fenced, List.cons_append, List.append_assoc]
      exact hs
    | word w =>
      obtain ⟨hne, hc⟩ := hw w (List.mem_cons_self ..)
      have hs := Divides.word hne hc h.head hrest
      rwa [String.ofList_toList] at hs

mutual

theorem wordy_lexemesOf : ∀ f : Form, Readable f → Wordy (lexemesOf f)
  | .number n, _ => fun w hm => by
    obtain rfl := Lexeme.word.inj (List.mem_singleton.mp hm)
    have hd := isDecimal_toString n.toInt
    exact ⟨hd.ne_nil, hd.isWordChar⟩
  | .symbol _, .symbol hs hc _ => fun w hm => by
    obtain rfl := Lexeme.word.inj (List.mem_singleton.mp hm)
    exact ⟨hs, hc⟩
  | .text _, _ => fun w hm => nomatch List.mem_singleton.mp hm
  | .list items, .list hi => fun w hm => by
    rw [lexemesOf, List.mem_cons, List.mem_append, List.mem_singleton] at hm
    rcases hm with hm | hm | hm
    · cases hm
    · exact wordy_lexemesOfAll items hi w hm
    · cases hm

theorem wordy_lexemesOfAll : ∀ fs : List Form, (∀ f ∈ fs, Readable f) → Wordy (lexemesOfAll fs)
  | [], _ => fun w hm => nomatch hm
  | f :: fs, hf => fun w hm => by
    rw [lexemesOfAll, List.mem_append] at hm
    rcases hm with hm | hm
    · exact wordy_lexemesOf f (hf f (List.mem_cons_self ..)) w hm
    · exact wordy_lexemesOfAll fs (fun g hg => hf g (List.mem_cons_of_mem _ hg)) w hm

end

/-- Reading undoes writing, whatever the layout. -/
theorem ofSource_laid (hf : ∀ f ∈ fs, Readable f)
    (h : Laid Text.fenced false (lexemesOfAll fs) cs) :
    Form.ofSource (String.ofList cs) = .ok fs := by
  have hr := reads_lexemesOfAll fs hf
  have hd := h.divides (wordy_lexemesOfAll fs hf)
  rw [← String.toList_ofList (l := cs)] at hd
  exact ofSource_of_reads hd (fun hu => unbalanced_iff.mp hu (hr.depthAfter_eq 0)) hr

/-- A list with a number, a string and a symbol in it, a note in a comment, and a symbol that is a
minus alone. -/
theorem ofSource_laid_with_note :
    Form.ofSource (String.ofList "( -7\"a\\\";\"x);note\n-".toList) =
      .ok [.list [.number (-7), .text "a\";", .symbol "x"], .symbol "-"] := by
  have hreadable : ∀ f ∈ [Form.list [.number (-7), .text "a\";", .symbol "x"], .symbol "-"],
      Readable f := by
    have hx : Readable (.symbol "x") :=
      .symbol (by decide) (List.all_eq_true.mp rfl) rfl
    have hminus : Readable (.symbol "-") :=
      .symbol (by decide) (List.all_eq_true.mp rfl) rfl
    have hlist : Readable (.list [.number (-7), .text "a\";", .symbol "x"]) := by
      refine .list fun f hf => ?_
      simp only [List.mem_cons, List.not_mem_nil, or_false] at hf
      rcases hf with rfl | rfl | rfl
      · exact .number (-7)
      · exact .text "a\";"
      · exact hx
    intro f hf
    simp only [List.mem_cons, List.not_mem_nil, or_false] at hf
    rcases hf with rfl | rfl
    · exact hlist
    · exact hminus
  have hlaid : Laid Text.fenced false
      (lexemesOfAll [.list [.number (-7), .text "a\";", .symbol "x"], .symbol "-"])
      "( -7\"a\\\";\"x);note\n-".toList := by
    have hlexemes : lexemesOfAll [.list [.number (-7), .text "a\";", .symbol "x"], .symbol "-"] =
        [.opening, .word "-7", .quoted "a\";", .word "x", .closing, .word "-"] := by
      decide +kernel
    have hnote : Gap (';' :: ("note".toList ++ '\n' :: [])) := .comment (by decide) .nil
    have h : Laid Text.fenced false
        [.opening, .word "-7", .quoted "a\";", .word "x", .closing, .word "-"] _ :=
      .cons .nil nofun <| .cons (.blank (c := ' ') rfl .nil) nofun <| .cons .nil nofun <|
        .cons .nil nofun <| .cons .nil nofun <| .cons hnote nofun <| .nil .nil
    rw [hlexemes]
    convert h using 1
    decide +kernel
  exact ofSource_laid hreadable hlaid

end LispEngines.Reader
