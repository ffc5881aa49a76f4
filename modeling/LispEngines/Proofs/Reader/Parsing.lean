import LispEngines.Proofs.Reader.Grammar
import LispEngines.Proofs.Reader.Nesting

/-!
# The grammar finds the division

The grammar takes a source apart with lookaheads, ordered choices and skipped comments; the
division of the source knows none of them.  Here the grammar is run along the division.

A skip goes to the next lexeme and not into it (`Divides.skips`).  There, a form is a list, a
string or a word, and each is taken as a whole: a string up to its quote (`parses_text`), a word up
to its end, whether or not it begins like a number (`parses_word`).  So a run of forms can stop for
three reasons only, which `Stop` names: the source is at its end, the list around is closed, or a
string has no end.

The outcome is `Divides.parses`: where the parentheses match, the grammar takes every source that
does not end inside a string, refuses every other, and its parse has the forms of the lexemes.
-/

namespace LispEngines.Reader

variable {a b e : Peg Rule} {p q : Char → Bool} {c : Char} {cs ds raw content w : List Char}
  {ls : List Lexeme} {o : Bool} {d : Nat}

/-! ## Single characters -/

theorem forall_head {P : Char → Prop} (h : P c) : ∀ d ∈ (c :: cs).head?, P d := by
  rintro _ ⟨⟩
  exact h

theorem forall_head_nil {P : Char → Prop} : ∀ d ∈ ([] : List Char).head?, P d :=
  fun _ hd => nomatch hd

/-- The expression takes one character of a sort, and nothing else. -/
def Peg.Takes (e : Peg Rule) (p : Char → Bool) : Prop :=
  (∀ c cs, p c = true → Parses grammar e (c :: cs) (some ([], cs))) ∧
  ∀ cs : List Char, (∀ c ∈ cs.head?, p c = false) → Parses grammar e cs none

theorem takes_one (p : Char → Bool) : Peg.Takes (.one p) p :=
  ⟨fun _ _ h => .one h, fun _ h => .one_refuses h⟩

theorem Peg.Takes.either (ha : a.Takes p) (hb : b.Takes q) :
    Peg.Takes (.either a b) fun c => p c || q c := by
  constructor
  · intro c cs h
    by_cases hp : p c = true
    · exact .either_first (ha.1 c cs hp)
    · rw [Bool.or_eq_true] at h
      exact .either_second (ha.2 _ (forall_head (by simpa using hp)))
        (hb.1 c cs (h.resolve_left hp))
  · intro cs h
    have h' (c) (hc : c ∈ cs.head?) := Bool.or_eq_false_iff.mp (h c hc)
    exact .either_second (ha.2 cs fun c hc => (h' c hc).1) (hb.2 cs fun c hc => (h' c hc).2)

theorem Peg.Takes.not (ha : a.Takes p) :
    Peg.Takes (.seq (.no a) (.one fun _ => true)) fun c => !p c := by
  constructor
  · intro c cs h
    exact .seq (.no (ha.2 _ (forall_head (by simpa using h)))) (.one rfl)
  · intro cs h
    rcases cs with _ | ⟨c, cs⟩
    · exact .seq_second (.no (ha.2 [] forall_head_nil)) (.one_refuses forall_head_nil)
    · exact .seq_first (.no_refuses (ha.1 c cs (by simpa using h c rfl)))

theorem Peg.Takes.congr (ha : a.Takes p) (h : ∀ c, p c = q c) : a.Takes q :=
  (funext h : p = q) ▸ ha

/-- A repetition takes the longest beginning of one sort. -/
theorem Peg.Takes.many (he : e.Takes p) (hw : ∀ c ∈ w, p c = true)
    (hcs : ∀ c ∈ cs.head?, p c = false) :
    Parses grammar (.many e) (w ++ cs) (some ([], cs)) := by
  induction w with
  | nil => exact .many_stop (he.2 cs hcs)
  | cons c w ih =>
    exact .many_more (he.1 c (w ++ cs) (hw c (List.mem_cons_self ..)))
      (ih fun d hd => hw d (List.mem_cons_of_mem _ hd))

theorem takes_blank : Peg.blank.Takes isGap :=
  ((takes_one _).either ((takes_one _).either ((takes_one _).either (takes_one _)))).congr
    fun c => by simp only [isGap, beq_eq_decide, Bool.or_assoc]

theorem takes_symbolChar : Peg.symbolChar.Takes isWordChar :=
  Peg.Takes.congr (Peg.Takes.not (((takes_one _).either ((takes_one _).either
    ((takes_one _).either ((takes_one _).either ((takes_one _).either ((takes_one _).either
      ((takes_one _).either (takes_one _))))))))))
    fun c => by simp only [isWordChar, isGap, beq_eq_decide, Bool.or_assoc]

/-! ## Blanks and comments -/

/-- Neither a blank nor a comment comes next. -/
def AtLexeme (cs : List Char) : Prop := ∀ c ∈ cs.head?, isGap c = false ∧ c ≠ ';'

theorem refuses_char (h : ∀ d ∈ cs.head?, d ≠ c) : Parses grammar (.char c) cs none :=
  .one_refuses fun d hd => by simpa using h d hd

/-- At a lexeme, nothing is skipped. -/
theorem skips_nothing (h : AtLexeme cs) : Parses grammar .skip cs (some ([], cs)) :=
  .seq (.many_stop (takes_blank.2 cs fun c hc => (h c hc).1))
    (.many_stop (.seq_first (.seq_first (refuses_char fun c hc => (h c hc).2))))

/-- A skip goes to the next lexeme. -/
theorem Divides.skips (h : Divides cs ls o) :
    ∃ ds, Parses grammar .skip cs (some ([], ds)) ∧ Divides ds ls o ∧ AtLexeme ds := by
  -- the two repetitions of a skip, apart
  suffices ∃ es ds, Parses grammar (.many .blank) cs (some ([], es)) ∧
      Parses grammar (.many (.seq .comment (.many .blank))) es (some ([], ds)) ∧
      Divides ds ls o ∧ AtLexeme ds by
    obtain ⟨es, ds, hb, hm, hd⟩ := this
    exact ⟨ds, .seq hb hm, hd⟩
  have stays {cs : List Char} {ls : List Lexeme} {o : Bool} (h : Divides cs ls o)
      (ha : AtLexeme cs) : ∃ es ds, Parses grammar (.many .blank) cs (some ([], es)) ∧
        Parses grammar (.many (.seq .comment (.many .blank))) es (some ([], ds)) ∧
        Divides ds ls o ∧ AtLexeme ds :=
    ⟨cs, cs, .many_stop (takes_blank.2 cs fun c hc => (ha c hc).1),
      .many_stop (.seq_first (.seq_first (refuses_char fun c hc => (ha c hc).2))), h, ha⟩
  have one {c : Char} {cs : List Char} (hg : isGap c = false) (hs : c ≠ ';') :
      AtLexeme (c :: cs) := forall_head ⟨hg, hs⟩
  induction h with
  | done => exact stays .done forall_head_nil
  | @gap c cs ls o hc h ih =>
    obtain ⟨es, ds, hb, hm, hd⟩ := ih
    exact ⟨es, ds, .many_more (takes_blank.1 c cs hc) hb, hm, hd⟩
  | @comment body cs ls o hb he h ih =>
    obtain ⟨es, ds, hbl, hm, hd⟩ := ih
    have hbody : Parses grammar (.many (.but (· == '\n'))) (body ++ cs) (some ([], cs)) :=
      (takes_one (· == '\n')).not.many
        (fun c hc => by
          have : c ≠ '\n' := fun hn => hb (hn ▸ hc)
          simpa using this)
        (fun c hc => by simpa using he c hc)
    have hone : Parses grammar (.seq .comment (.many .blank)) (';' :: (body ++ cs))
        (some ([], es)) := .seq (.seq (.one rfl) hbody) hbl
    exact ⟨_, ds, .many_stop (takes_blank.2 _ (forall_head rfl)), .many_more hone hm, hd⟩
  | opening h => exact stays (.opening h) (one rfl (by decide))
  | closing h => exact stays (.closing h) (one rfl (by decide))
  | quoted hq h => exact stays (.quoted hq h) (one rfl (by decide))
  | endless hq => exact stays (.endless hq) (one rfl (by decide))
  | hidden hq => exact stays (.hidden hq) (one rfl (by decide))
  | @word w cs ls o hw hc he h =>
    obtain ⟨c, w, rfl⟩ := List.exists_cons_of_ne_nil hw
    obtain ⟨hg, -, -, -, hs⟩ := isWordChar_iff.mp (hc c (List.mem_cons_self ..))
    exact stays (.word hw hc he h) (one hg hs)

/-! ## Strings -/

/-- A string goes up to where no character of it can stand. -/
theorem parses_text (hq : Quotes raw content)
    (hs : Parses grammar (.either .escape (.but fun c => c == '"' || c == '\\')) cs none) :
    Parses grammar (.rule .text) (raw ++ cs) (some ([.node .text raw []], cs)) := by
  refine .rule rfl ?_
  show Parses grammar (.many _) (raw ++ cs) (some ([], cs))
  induction hq with
  | nil => exact .many_stop hs
  | @plain c raw content hq hb _ ih =>
    have hescape : Parses grammar .escape (c :: (raw ++ cs)) none :=
      .seq_first (refuses_char (forall_head hb))
    have hplain : Parses grammar (.but fun c => c == '"' || c == '\\') (c :: (raw ++ cs))
        (some ([], raw ++ cs)) := (takes_one _).not.1 c _ (by simp [hq, hb])
    exact .many_more (.either_second hescape hplain) ih
  | escape c _ ih => exact .many_more (.either_first (.seq (.one rfl) (.one rfl))) ih

/-- No character of a string can stand at a quote, nor where the source ends. -/
theorem text_stops (h : (∃ ds, cs = '"' :: ds) ∨ cs = [] ∨ cs = ['\\']) :
    Parses grammar (.either .escape (.but fun c => c == '"' || c == '\\')) cs none := by
  rcases h with ⟨ds, rfl⟩ | rfl | rfl
  · exact .either_second (.seq_first (refuses_char (forall_head (by decide))))
      ((takes_one _).not.2 _ (forall_head rfl))
  · exact .either_second (.seq_first (refuses_char forall_head_nil))
      ((takes_one _).not.2 _ forall_head_nil)
  · exact .either_second (.seq_second (.one rfl) (.one_refuses forall_head_nil))
      ((takes_one _).not.2 _ (forall_head rfl))

theorem unescape_eq (hq : Quotes raw content) : unescape raw = content := by
  induction hq with
  | nil => rfl
  | @plain c raw content hq hb _ ih =>
    rw [unescape, ih]
    · rintro _ _ rfl
      exact absurd rfl hb
    · rintro rfl
      exact absurd rfl hb
  | escape c _ ih => rw [unescape, ih]

/-! ## Words -/

/-- After the sign of a word, if it has one. -/
theorem parses_sign (cs : List Char) (hw : w ≠ []) (hc : ∀ c ∈ w, isWordChar c = true) :
    ∃ r, Parses grammar (.either (.char '-') .empty) (w ++ cs) (some ([], r ++ cs)) ∧
      (Form.isNumeral w = (!r.isEmpty && r.all Char.isDigit)) ∧ ∀ c ∈ r, isWordChar c = true := by
  obtain ⟨c, w, rfl⟩ := List.exists_cons_of_ne_nil hw
  by_cases hm : c = '-'
  · subst hm
    exact ⟨w, .either_first (.one rfl), rfl, fun d hd => hc d (List.mem_cons_of_mem _ hd)⟩
  · refine ⟨c :: w, .either_second (refuses_char (forall_head hm)) .empty, ?_, hc⟩
    unfold Form.isNumeral
    split
    · rename_i h
      exact absurd (List.cons.inj h).1 hm
    · rfl

theorem isWordChar_of_isDigit (h : c.isDigit = true) : isWordChar c = true := by
  have hne {e : Char} (he : e.isDigit = false) : c ≠ e := by
    rintro rfl
    cases h.symm.trans he
  have hg : isGap c = false := by
    simp [isGap, @hne ' ' rfl, @hne '\t' rfl, @hne '\r' rfl, @hne '\n' rfl]
  exact isWordChar_iff.mpr ⟨hg, hne rfl, hne rfl, hne rfl, hne rfl⟩

/-- Digits are a number only if the word ends with them. -/
theorem parses_digits {r : List Char} (hr : ∀ c ∈ r, isWordChar c = true)
    (he : ∀ c ∈ cs.head?, isWordChar c = false) :
    Parses grammar (.seq (.seq (.one Char.isDigit) (.many (.one Char.isDigit)))
        (.no .symbolChar)) (r ++ cs)
      (if (!r.isEmpty && r.all Char.isDigit) = true then some ([], cs) else none) := by
  obtain ⟨t, u, rfl, ht, hu⟩ : ∃ t u, r = t ++ u ∧ (∀ c ∈ t, c.isDigit = true) ∧
      ∀ c ∈ u.head?, c.isDigit = false :=
    ⟨_, _, List.takeWhile_append_dropWhile.symm, fun c hc => List.mem_takeWhile_imp hc,
      head?_dropWhile⟩
  have hrest : ∀ c ∈ (u ++ cs).head?, c.isDigit = false := by
    intro c hc
    rcases u with _ | ⟨d, u⟩
    · by_contra hd
      cases (isWordChar_of_isDigit (by simpa using hd)).symm.trans (he c hc)
    · exact hu c hc
  rw [List.append_assoc]
  rcases t with _ | ⟨c, t⟩
  · rw [if_neg]
    · exact .seq_first (.seq_first (.one_refuses hrest))
    · rcases u with _ | ⟨d, u⟩
      · decide
      · simp [hu d rfl]
  have hdigits : Parses grammar (.seq (.one Char.isDigit) (.many (.one Char.isDigit)))
      (c :: t ++ (u ++ cs)) (some ([], u ++ cs)) :=
    .seq (.one (ht c (List.mem_cons_self ..)))
      ((takes_one _).many (fun d hd => ht d (List.mem_cons_of_mem _ hd)) hrest)
  rcases u with _ | ⟨d, u⟩
  · rw [if_pos]
    · exact .seq hdigits (.no (takes_symbolChar.2 cs he))
    · rw [List.append_nil, Bool.and_eq_true]
      exact ⟨rfl, List.all_eq_true.mpr ht⟩
  · rw [if_neg]
    · have hd : isWordChar d = true := hr d (by simp)
      exact .seq_second hdigits (.no_refuses (takes_symbolChar.1 d _ hd))
    · simp [hu d rfl]

/-- A word is taken as a whole, as a number or as a symbol. -/
theorem parses_word (hw : w ≠ []) (hc : ∀ c ∈ w, isWordChar c = true)
    (he : ∀ c ∈ cs.head?, isWordChar c = false) :
    ∃ t, Parses grammar .expr (w ++ cs) (some ([t], cs)) ∧
      formOf t = Form.ofWord (String.ofList w) := by
  have hhead : ∀ c ∈ (w ++ cs).head?, isWordChar c = true := by
    obtain ⟨d, w, rfl⟩ := List.exists_cons_of_ne_nil hw
    exact forall_head (hc d (List.mem_cons_self ..))
  have hlist : Parses grammar (.rule .list) (w ++ cs) none :=
    .rule_refuses (.seq_first (refuses_char fun c hc => (isWordChar_iff.mp (hhead c hc)).2.1))
  have hstring : Parses grammar (.rule .string) (w ++ cs) none :=
    .rule_refuses (.seq_first (refuses_char fun c hc => (isWordChar_iff.mp (hhead c hc)).2.2.2.1))
  obtain ⟨r, hsign, hn, hr⟩ := parses_sign cs hw hc
  have hdigits := parses_digits hr he
  rw [← hn] at hdigits
  by_cases hnum : Form.isNumeral w = true
  · rw [if_pos hnum] at hdigits
    refine ⟨.node .number w [], .either_second hlist (.either_second hstring
      (.either_first (.rule rfl (.seq hsign hdigits)))), ?_⟩
    rw [Form.ofWord, String.toList_ofList, if_pos hnum]
    rfl
  · rw [if_neg hnum] at hdigits
    have hsymbol : Parses grammar (.rule .symbol) (w ++ cs) (some ([.node .symbol w []], cs)) := by
      obtain ⟨c, w, rfl⟩ := List.exists_cons_of_ne_nil hw
      exact .rule rfl (.seq (takes_symbolChar.1 c _ (hc c (List.mem_cons_self ..)))
        (takes_symbolChar.many (fun d hd => hc d (List.mem_cons_of_mem _ hd)) he))
    refine ⟨.node .symbol w [], .either_second hlist (.either_second hstring
      (.either_second (.rule_refuses (.seq_second hsign hdigits)) hsymbol)), ?_⟩
    rw [Form.ofWord, String.toList_ofList, if_neg hnum]
    rfl

/-! ## Forms -/

/-- The trees have the forms that the lexemes spell, errors included. -/
def Spells (ts : List (Tree Rule)) (ls : List Lexeme) : Prop :=
  ∀ n : Form.Nest, ls.foldlM Form.Nest.next n =
    (formsOf ts).map fun fs => ⟨fs.reverse ++ n.inner, n.outer⟩

/-- The tree has the form that the lexemes spell. -/
def SpellsOne (t : Tree Rule) (ls : List Lexeme) : Prop :=
  ∀ n : Form.Nest, ls.foldlM Form.Nest.next n = (formOf t).map n.add

theorem Spells.nil : Spells [] [] := fun _ => rfl

theorem Spells.cons {t : Tree Rule} {ts : List (Tree Rule)} {ls₁ ls₂ : List Lexeme}
    (ht : SpellsOne t ls₁) (hts : Spells ts ls₂) : Spells (t :: ts) (ls₁ ++ ls₂) := by
  intro n
  rw [List.foldlM_append, ht n, formsOf]
  cases formOf t with
  | error e => rfl
  | ok f =>
    refine (hts (n.add f)).trans ?_
    show _ = Except.map _ (do return f :: (← formsOf ts))
    cases formsOf ts with
    | error e => rfl
    | ok fs =>
      show Except.ok (⟨fs.reverse ++ f :: n.inner, n.outer⟩ : Form.Nest) =
        Except.ok ⟨(f :: fs).reverse ++ n.inner, n.outer⟩
      rw [List.reverse_cons, List.append_assoc]
      rfl

theorem Spells.list {ts : List (Tree Rule)} {inner : List Lexeme} {taken : List Char}
    (h : Spells ts inner) :
    SpellsOne (.node .list taken ts) (.opening :: (inner ++ [.closing])) := by
  intro n
  show (inner ++ [Lexeme.closing]).foldlM Form.Nest.next ⟨[], n.inner :: n.outer⟩ = _
  rw [List.foldlM_append, h, formOf]
  cases formsOf ts with
  | error e => rfl
  | ok fs =>
    show Except.ok (⟨.list (fs.reverse ++ []).reverse :: n.inner, n.outer⟩ : Form.Nest) = _
    rw [List.append_nil, List.reverse_reverse]
    rfl

theorem spells_string (hq : Quotes raw content) (taken : List Char) :
    SpellsOne (.node .string taken [.node .text raw []]) [.quoted (String.ofList content)] := by
  intro n
  rw [formOf, unescape_eq hq]
  rfl

theorem spells_word {t : Tree Rule} {w : String} (h : formOf t = Form.ofWord w) :
    SpellsOne t [.word w] := by
  intro n
  show (do return n.add (← Form.ofWord w) : Except ReadError Form.Nest) >>= pure = _
  rw [h]
  cases Form.ofWord w <;> rfl

theorem Spells.ofLexemes_eq {ts : List (Tree Rule)} (h : Spells ts ls) :
    Form.ofLexemes ls = formsOf ts := by
  unfold Form.ofLexemes
  rw [h]
  cases formsOf ts with
  | error e => rfl
  | ok fs =>
    show Except.ok (fs.reverse ++ []).reverse = _
    rw [List.append_nil, List.reverse_reverse]

/-- A run of forms, each after a skip. -/
def Peg.more : Peg Rule := .many (.seq .skip .expr)

/-- Where a run of forms stops, with `d` lists open around it. -/
inductive Stop (d : Nat) (ls : List Lexeme) (o : Bool) (ts : List (Tree Rule)) :
    List Char → Prop
  /-- At the end of the source. -/
  | finished (hd : d = 0) (ho : o = false) (hs : Spells ts ls) : Stop d ls o ts []
  /-- Where the list around it is closed. -/
  | closed {inner rest : List Lexeme} {cs : List Char} {d' : Nat}
      (hl : ls = inner ++ .closing :: rest) (hs : Spells ts inner) (h : Divides cs rest o)
      (hd : d = d' + 1) (hb : depthAfter rest d' = some 0) : Stop d ls o ts (')' :: cs)
  /-- Where a string has no end, or a list because of it. -/
  | stuck {c : Char} {cs : List Char} (ho : o = true) (hc : c ≠ ')') : Stop d ls o ts (c :: cs)

/-- One more form at the front of a run. -/
theorem Stop.cons {t : Tree Rule} {ts : List (Tree Rule)} {ls₁ ls₂ : List Lexeme}
    (ht : SpellsOne t ls₁) (h : Stop d ls₂ o ts cs) : Stop d (ls₁ ++ ls₂) o (t :: ts) cs := by
  cases h with
  | finished hd ho hs => exact .finished hd ho (.cons ht hs)
  | closed hl hs h hd hb =>
    subst hl
    exact .closed (List.append_assoc ..).symm (.cons ht hs) h hd hb
  | stuck ho hc => exact .stuck ho hc

/-- A run of forms after a skip is a run of forms with skips between. -/
theorem parses_spaced {ts : List (Tree Rule)} {es : List Char}
    (h : Divides cs ls o) (hm : Parses grammar .more cs (some (ts, ds)))
    (hs : Parses grammar .skip ds (some ([], es))) :
    ∃ cs' ds', Parses grammar .skip cs (some ([], cs')) ∧
      Parses grammar (.spaced .expr) cs' (some (ts, ds')) ∧
      Parses grammar .skip ds' (some ([], es)) := by
  obtain ⟨cs', hskip, -, hat⟩ := h.skips
  cases hm with
  | many_stop hm =>
    obtain ⟨⟩ := hs.unique hskip
    refine ⟨_, _, hskip, .either_second (.seq_first ?_) .empty, skips_nothing hat⟩
    cases hm with
    | seq_first h => cases h.unique hskip
    | seq_second h hm =>
      cases h.unique hskip
      exact hm
  | many_more ha hm =>
    cases ha with
    | seq ha hb =>
      obtain ⟨⟩ := ha.unique hskip
      exact ⟨cs', ds, hskip, .either_first (.seq hb hm), hs⟩

/-- Where no word begins, only a list or a string can be a form. -/
theorem refuses_expr (hl : Parses grammar (.rule .list) cs none)
    (hs : Parses grammar (.rule .string) cs none) (hw : ∀ c ∈ cs.head?, isWordChar c = false) :
    Parses grammar .expr cs none := by
  have hminus : Parses grammar (.char '-') cs none := refuses_char fun c hc hm => by
    cases (hw c hc).symm.trans (hm ▸ rfl : isWordChar c = true)
  have hdigit : Parses grammar (.one Char.isDigit) cs none := .one_refuses fun c hc => by
    by_contra hd
    cases (isWordChar_of_isDigit (by simpa using hd)).symm.trans (hw c hc)
  have hnumber : Parses grammar (.rule .number) cs none :=
    .rule_refuses (.seq_second (.either_second hminus .empty) (.seq_first (.seq_first hdigit)))
  exact .either_second hl (.either_second hs (.either_second hnumber
    (.rule_refuses (.seq_first (takes_symbolChar.2 cs hw)))))

/-- A string that does not come to its quote is refused. -/
theorem refuses_string (hq : Quotes raw content)
    (hs : Parses grammar (.either .escape (.but fun c => c == '"' || c == '\\')) cs none)
    (hc : ∀ c ∈ cs.head?, c ≠ '"') : Parses grammar .expr ('"' :: (raw ++ cs)) none :=
  refuses_expr (.rule_refuses (.seq_first (refuses_char (forall_head (by decide)))))
    (.rule_refuses (.seq_second (.one rfl) (.seq_second (parses_text hq hs) (refuses_char hc))))
    (forall_head rfl)

/-- A run of forms stops for one of three reasons. -/
theorem Divides.parses_more (h : Divides cs ls o) (hb : depthAfter ls d = some 0) :
    ∃ ts ds es, Parses grammar .more cs (some (ts, ds)) ∧
      Parses grammar .skip ds (some ([], es)) ∧ Stop d ls o ts es := by
  induction hn : cs.length using Nat.strongRecOn generalizing cs ls d with
  | ind n ih =>
    subst hn
    obtain ⟨ds, hskip, hdiv, hat⟩ := h.skips
    have hlen := hskip.length_le
    have halt (hx : Parses grammar .expr ds none) (hs : Stop d ls o [] ds) :
        ∃ ts ds es, Parses grammar .more cs (some (ts, ds)) ∧
          Parses grammar .skip ds (some ([], es)) ∧ Stop d ls o ts es :=
      ⟨[], cs, ds, .many_stop (.seq_second hskip hx), hskip, hs⟩
    have goOn {t : Tree Rule} {ls₁ ls₂ : List Lexeme} {es : List Char}
        (hx : Parses grammar .expr ds (some ([t], es))) (ht : SpellsOne t ls₁)
        (hl : ls = ls₁ ++ ls₂) (hd : Divides es ls₂ o) (hb : depthAfter ls₂ d = some 0)
        (hlt : es.length < ds.length) :
        ∃ ts ds es, Parses grammar .more cs (some (ts, ds)) ∧
          Parses grammar .skip ds (some ([], es)) ∧ Stop d ls o ts es := by
      obtain ⟨ts, ds', fs, hm, hs, hstop⟩ := ih es.length (by omega) hd hb rfl
      exact ⟨t :: ts, ds', fs, .many_more (.seq hskip hx) hm, hs, hl ▸ hstop.cons ht⟩
    cases hdiv with
    | done =>
      refine halt (refuses_expr (.rule_refuses (.seq_first (refuses_char forall_head_nil)))
        (.rule_refuses (.seq_first (refuses_char forall_head_nil))) forall_head_nil) ?_
      exact .finished (Option.some.inj hb) rfl .nil
    | gap hc => cases hc.symm.trans (hat _ rfl).1
    | comment => exact absurd rfl (hat _ rfl).2
    | @opening cs₁ ls₁ _ h₁ =>
      have hlt : cs₁.length < cs.length := Nat.lt_of_lt_of_le (Nat.lt_succ_self _) hlen
      obtain ⟨ts, ds', es, hm, hs, hstop⟩ := ih _ hlt h₁ hb rfl
      obtain ⟨cs₂, ds₂, hs₁, hspaced, hs₂⟩ := parses_spaced h₁ hm hs
      cases hstop with
      | finished hd => cases hd
      | @closed inner rest cs₃ d' hl hspells h₃ hd hb₃ =>
        obtain rfl : d = d' := Nat.succ.inj hd
        subst hl
        have hlist : Parses grammar (.apart (.char '(') (.apart (.spaced .expr) (.char ')')))
            ('(' :: cs₁) (some ([] ++ ([] ++ (ts ++ ([] ++ []))), cs₃)) :=
          .seq (.one rfl) (.seq hs₁ (.seq hspaced (.seq hs₂ (.one rfl))))
        rw [List.nil_append, List.nil_append, List.nil_append, List.append_nil] at hlist
        obtain ⟨taken, hc⟩ := hlist.suffix
        refine goOn (.either_first (.rule hc hlist)) hspells.list (by simp) h₃ hb₃ ?_
        have h₁ := hs₁.length_le
        have h₂ := hspaced.length_le
        have h₃ := hs₂.length_le
        rw [List.length_cons] at h₃ ⊢
        omega
      | stuck ho hc =>
        have hlist : Parses grammar (.rule .list) ('(' :: cs₁) none :=
          .rule_refuses (.seq_second (.one rfl) (.seq_second hs₁ (.seq_second hspaced
            (.seq_second hs₂ (refuses_char (forall_head hc))))))
        exact halt (refuses_expr hlist (.rule_refuses (.seq_first (refuses_char
          (forall_head (by decide))))) (forall_head rfl)) (.stuck ho (by decide))
    | @closing cs₁ ls₁ _ h₁ =>
      cases d with
      | zero => cases hb
      | succ d =>
        exact halt (refuses_expr (.rule_refuses (.seq_first (refuses_char
          (forall_head (by decide))))) (.rule_refuses (.seq_first (refuses_char
          (forall_head (by decide))))) (forall_head rfl)) (.closed rfl .nil h₁ rfl hb)
    | @quoted raw content cs₁ ls₁ _ hq h₁ =>
      have hstring : Parses grammar (.rule .string) ('"' :: (raw ++ '"' :: cs₁))
          (some ([.node .string ('"' :: raw ++ ['"']) [.node .text raw []]], cs₁)) :=
        .rule (by simp) (.seq (.one rfl)
          (.seq (parses_text hq (text_stops (.inl ⟨cs₁, rfl⟩))) (.one rfl)))
      refine goOn (.either_second (.rule_refuses (.seq_first (refuses_char
        (forall_head (by decide))))) (.either_first hstring)) (spells_string hq _) rfl h₁ hb ?_
      simp only [List.length_cons, List.length_append]
      omega
    | endless hq =>
      have hx := refuses_string hq (text_stops (.inr (.inl rfl))) forall_head_nil
      rw [List.append_nil] at hx
      exact halt hx (.stuck rfl (by decide))
    | hidden hq =>
      exact halt (refuses_string hq (text_stops (.inr (.inr rfl))) (forall_head (by decide)))
        (.stuck rfl (by decide))
    | @word w cs₁ ls₁ _ hw hc he h₁ =>
      obtain ⟨t, ht, hf⟩ := parses_word hw hc he
      refine goOn ht (spells_word hf) rfl h₁ hb ?_
      have := List.length_pos_iff.mpr hw
      rw [List.length_append]
      omega

/-- Where the parentheses of a source match, the grammar takes it if it does not end inside a
string, and refuses it if it does. -/
theorem Divides.parses (h : Divides cs ls o) (hb : ¬Unbalanced ls) :
    (o = true ∧ Parses grammar (.rule .program) cs none) ∨
    (o = false ∧ ∃ ts, Parses grammar (.rule .program) cs (some ([.node .program cs ts], [])) ∧
      Form.ofLexemes ls = formsOf ts) := by
  rw [unbalanced_iff, not_not] at hb
  obtain ⟨ts, ds, es, hm, hs, hstop⟩ := h.parses_more hb
  obtain ⟨cs', ds', hs₁, hspaced, hs₂⟩ := parses_spaced h hm hs
  cases hstop with
  | finished _ ho hspells =>
    have hprogram : Parses grammar (.seq .skip (.apart (.spaced .expr) .finish)) cs
        (some ([] ++ (ts ++ ([] ++ [])), [])) := .seq hs₁ (.seq hspaced (.seq hs₂ .finish))
    rw [List.nil_append, List.nil_append, List.append_nil] at hprogram
    exact .inr ⟨ho, ts, .rule (List.append_nil cs).symm hprogram, hspells.ofLexemes_eq⟩
  | closed _ _ _ hd => cases hd
  | stuck ho =>
    exact .inl ⟨ho, .rule_refuses (.seq_second hs₁ (.seq_second hspaced
      (.seq_second hs₂ (.finish_refuses (List.cons_ne_nil _ _)))))⟩

end LispEngines.Reader
