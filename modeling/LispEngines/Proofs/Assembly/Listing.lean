import LispEngines.Proofs.Assembly.Reference
import LispEngines.Proofs.Reader.Writing
import LispEngines.Proofs.Store.Texts
import Mathlib.Data.List.Forall2

/-!
# Listings read back

A line of a listing is a marker, an offset, and assembly text; only a code word that is no
instruction stands after `.word`, which the assembler does not know.  Without markers, offsets and
`.word`, a listing is the text of a program with the same code (`Listing.readsBack_listing`).

* `Listing.lines`, `Listing.offset?`, `Listing.remainder`: the parts of a listing.
* `Tokenizer.At`: the tokenizer between two words of a line.
* `Listing.Tells`: text that comes to certain code words, whatever came before it.
* `Listing.Lists`: lines that tell one instruction each, with the right margins.
* `Assembler.Plain`: an assembler that knows what every assembler knows, and no constants.

What stands in a listing as a remark is the inspected text of a constant, and it must not run over
the end of the line.  That of a constant of an assembled program does not
(`Assembler.inspected_of_assemble`), since strings are quoted.
-/

namespace LispEngines

open Assembly

/-! ## The parts of a listing -/

namespace Listing

/-- The lines of a text, without the newlines that end them. -/
def lines : List Char → List (List Char)
  | [] => []
  | c :: cs =>
    if c = '\n' then [] :: lines cs
    else
      match lines cs with
      | [] => [[c]]
      | l :: ls => (c :: l) :: ls

/-- The offset in a line: the digits after the marker. -/
def offset? (line : List Char) : Option Nat :=
  Text.digits? ((line.drop 1).takeWhile Char.isDigit)

/-- A line without its marker, its offset, and `.word`. -/
def remainder (line : List Char) : List Char :=
  let cs := ((line.drop 1).dropWhile Char.isDigit).dropWhile (· == ' ')
  (Text.afterLead? ".word".toList cs).getD cs

/-- The remainders of lines as one text. -/
def remainders (ls : List (List Char)) : String :=
  String.ofList (ls.flatMap fun l => remainder l ++ ['\n'])

/-- A fresh assembler that is fed texts, one after the other, makes a program with these code words
and no constants.  An instruction serves as the entry, since every assembler knows its name. -/
def Yields (texts : List String) (code : List Int64) : Prop :=
  ∀ st : Store, ∃ asm, (texts.forM Assembler.feed : Assembling Unit) (Assembler.new st).1 =
      (.ok (), asm) ∧
    ∀ op : Opcode, ∃ pc, Assembler.finish op.mnemonic asm =
      (.ok { code := code.toArray, data := #[], entry := pc }, asm)

/-- A text lists a program so that it can be read back. -/
structure ReadsBack (p : Program) (text : String) : Prop where
  /-- All remainders together are a text of the code. -/
  whole : Yields [remainders (lines text.toList)] p.code.toList
  /-- They are so too if they are fed line by line. -/
  apart : Yields ((lines text.toList).map (String.ofList ∘ remainder)) p.code.toList
  /-- Each line has the offset of its words in the code, and at the entry, and only there, it is
  marked. -/
  margin : ∀ before line after, lines text.toList = before ++ line :: after →
    ∃ n, offset? line = some n ∧ n < p.code.size ∧
      Yields [remainders before] (p.code.toList.take n) ∧
      line.head? = some (if n = p.entry then '>' else ' ')

theorem lines_append {l : List Char} (hl : '\n' ∉ l) (rest : List Char) :
    lines (l ++ '\n' :: rest) = l :: lines rest := by
  induction l with
  | nil => rfl
  | cons c l ih =>
    rw [List.mem_cons, not_or] at hl
    rw [List.cons_append, lines, if_neg (Ne.symm hl.1), ih hl.2]

end Listing

/-! ## Words of a line -/

/-- A character that stands for itself in a word. -/
def Assembly.isPlain (c : Char) : Bool :=
  !(c == '\\' || c == ';' || c == '"' || Text.isBlank c)

theorem Assembly.isPlain_of_isDigit {c : Char} (h : c.isDigit = true) : isPlain c = true := by
  simp only [Char.isDigit, Bool.and_eq_true, decide_eq_true_eq, ge_iff_le,
    UInt32.le_iff_toNat_le] at h
  change 48 ≤ c.toNat ∧ c.toNat ≤ 57 at h
  have hne {d : Char} (hd' : d.toNat < 48 ∨ 57 < d.toNat) : (c == d) = false := by
    rw [beq_eq_false_iff_ne]
    rintro rfl
    omega
  have hb : Text.isBlank c = false := by
    simp only [Text.isBlank, Bool.or_eq_false_iff, Bool.and_eq_false_iff, decide_eq_false_iff_not]
    omega
  rw [isPlain, hb, hne (by decide), hne (by decide), hne (by decide)]
  rfl

namespace Assembly.Tokenizer

/-- The tokenizer stands in a line, with these tokens found if a word ends here. -/
structure At (t : Tokenizer) (line : Nat) (found : List Token) : Prop where
  mode : t.mode = .word
  line_eq : t.line = line
  flush : t.flush = { line, found }

variable {t : Tokenizer} {k : Nat} {found : List Token}

theorem At.start : At { line := k, found } k found := ⟨rfl, rfl, rfl⟩

theorem foldl_plain {cs : List Char} (hc : ∀ c ∈ cs, isPlain c = true) (s : List Char) :
    cs.foldl next { soFar := s, line := k, found } =
      { soFar := cs.reverse ++ s, line := k, found } := by
  induction cs generalizing s with
  | nil => rfl
  | cons c cs ih =>
    have hc' := hc c (List.mem_cons_self ..)
    simp only [isPlain, Bool.not_eq_true', Bool.or_eq_false_iff, beq_eq_false_iff_ne] at hc'
    obtain ⟨⟨⟨h₁, h₂⟩, h₃⟩, h₄⟩ := hc'
    have hn : next { soFar := s, line := k, found } c =
        { soFar := c :: s, line := k, found } := by
      simp [next, h₁, h₂, h₃, h₄, keep]
    rw [List.foldl_cons, hn, ih fun c hc' => hc c (List.mem_cons_of_mem _ hc'),
      List.reverse_cons, List.append_assoc]
    rfl

/-- A word is taken where no other one has begun. -/
theorem At.word {w : String} (hne : w.toList ≠ []) (hw : ∀ c ∈ w.toList, isPlain c = true) :
    At (w.toList.foldl next { line := k, found }) k (.word w k :: found) := by
  rw [foldl_plain hw, List.append_nil]
  refine ⟨rfl, rfl, ?_⟩
  rw [Tokenizer.flush, if_neg (by simpa using hne)]
  simp

theorem At.blank (h : At t k found) : t.next ' ' = { line := k, found } := by
  have hn : t.next ' ' = t.flush := by
    rw [next, h.mode]
    simp [Text.isBlank, count]
  rw [hn, h.flush]

theorem At.newline (h : At t k found) : t.next '\n' = { line := k + 1, found } := by
  have hn : t.next '\n' = t.flush.count '\n' := by
    rw [next, h.mode]
    simp [Text.isBlank]
  rw [hn, h.flush]
  rfl

theorem At.finish (h : At t k found) : t.finish = .ok found.reverse := by
  rw [Tokenizer.finish, h.mode, h.flush]

theorem At.comment (h : At t k found) : t.next ';' = { mode := .comment, line := k, found } := by
  have hn : t.next ';' = { t.flush with mode := .comment } := by
    rw [next, h.mode]
    simp
  rw [hn, h.flush]

theorem foldl_comment {cs : List Char} (hc : '\n' ∉ cs) :
    cs.foldl next { mode := .comment, line := k, found } =
      { mode := .comment, line := k, found } := by
  induction cs with
  | nil => rfl
  | cons c cs ih =>
    rw [List.mem_cons, not_or] at hc
    rw [List.foldl_cons]
    have hn : next { mode := .comment, line := k, found } c =
        { mode := .comment, line := k, found } := by
      simp [next, Ne.symm hc.1]
    rw [hn, ih hc.2]

end Assembly.Tokenizer

/-! ## Texts of code words -/

/-- A word of assembly text that every assembler takes for a certain code word. -/
inductive Assembly.Token.Spells : Token → Int64 → Prop
  | numeral (w : Int64) (line : Nat) : Spells (.word (toString w.toInt) line) w
  | mnemonic (op : Opcode) (line : Nat) : Spells (.word op.mnemonic line) op.word

namespace Listing

open Tokenizer

variable {cs ds : List Char} {ws vs : List Int64}

/-- Read from the beginning of a line, a text gives tokens for these code words, and the text may
end there or go on in another line. -/
def Tells (cs : List Char) (ws : List Int64) : Prop :=
  ∀ k found, ∃ ts k', List.Forall₂ Token.Spells ts ws ∧
    (cs.foldl next { line := k, found }).next '\n' =
      { line := k', found := ts.reverse ++ found } ∧
    (cs.foldl next { line := k, found }).finish = .ok (ts.reverse ++ found).reverse

/-- Read from the beginning of a line, a text gives tokens for these code words and stays in the
line. -/
def Begins (cs : List Char) (ws : List Int64) : Prop :=
  ∀ k found, ∃ ts, List.Forall₂ Token.Spells ts ws ∧
    At (cs.foldl next { line := k, found }) k (ts.reverse ++ found)

theorem Begins.tells (h : Begins cs ws) : Tells cs ws := by
  intro k found
  obtain ⟨ts, hts, hat⟩ := h k found
  exact ⟨ts, k + 1, hts, hat.newline, hat.finish⟩

/-- A remark tells nothing. -/
theorem Begins.tells_remark (h : Begins cs ws) (hd : '\n' ∉ ds) :
    Tells (cs ++ ("    ; ".toList ++ ds)) ws := by
  intro k found
  obtain ⟨ts, hts, hat⟩ := h k found
  have hfold : (cs ++ ("    ; ".toList ++ ds)).foldl next { line := k, found } =
      { mode := .comment, line := k, found := ts.reverse ++ found } := by
    have hd' : '\n' ∉ ' ' :: ds := by simpa using hd
    rw [List.foldl_append]
    show (' ' :: ' ' :: ' ' :: ' ' :: ';' :: ' ' :: ds).foldl next _ = _
    rw [List.foldl_cons, hat.blank, List.foldl_cons, At.start.blank, List.foldl_cons,
      At.start.blank, List.foldl_cons, At.start.blank, List.foldl_cons, At.start.comment,
      foldl_comment hd']
  exact ⟨ts, k + 1, hts, by rw [hfold]; rfl, by rw [hfold]; rfl⟩

theorem begins_nil : Begins [] [] := fun _ _ => ⟨[], .nil, At.start⟩

/-- A numeral consists of digits and perhaps a minus. -/
theorem isDigit_or_of_isDecimal {w : String} {i : Int} (h : Reader.IsDecimal w i) {c : Char}
    (hc : c ∈ w.toList) : c.isDigit = true ∨ c = '-' := by
  have hdigit {n : Nat} (hc : c ∈ Nat.toDigits 10 n) : c.isDigit = true :=
    Nat.isDigit_of_mem_toDigits (by decide) (by decide) hc
  obtain ⟨n, ⟨hw, -⟩ | ⟨hw, -⟩⟩ := h <;> rw [hw] at hc
  · exact .inl (hdigit hc)
  · rcases List.mem_cons.mp hc with hm | hc
    · exact .inr hm
    · exact .inl (hdigit hc)

theorem isPlain_of_isDecimal {w : String} {i : Int} (h : Reader.IsDecimal w i) :
    ∀ c ∈ w.toList, isPlain c = true := by
  intro c hc
  rcases isDigit_or_of_isDecimal h hc with hd | rfl
  · exact isPlain_of_isDigit hd
  · rfl

/-- One more number, a blank before it. -/
theorem Begins.numeral (h : Begins cs ws) (w : Int64) :
    Begins (cs ++ ' ' :: (toString w.toInt).toList) (ws ++ [w]) := by
  intro k found
  obtain ⟨ts, hts, hat⟩ := h k found
  have hd := Reader.isDecimal_toString w.toInt
  refine ⟨ts ++ [.word (toString w.toInt) k], ?_, ?_⟩
  · exact List.rel_append hts (.cons (.numeral w k) .nil)
  · rw [List.foldl_append, List.foldl_cons, hat.blank, List.reverse_append]
    exact At.word hd.ne_nil (isPlain_of_isDecimal hd)

theorem Begins.numerals (h : Begins cs ws) (vs : List Int64) :
    Begins (cs ++ vs.flatMap fun v => ' ' :: (toString v.toInt).toList) (ws ++ vs) := by
  induction vs generalizing cs ws with
  | nil => simpa using h
  | cons v vs ih =>
    rw [List.flatMap_cons, ← List.append_assoc, List.append_cons ws]
    exact ih (h.numeral v)

theorem begins_mnemonic (op : Opcode) : Begins op.mnemonic.toList [op.word] := by
  intro k found
  have hplain : op.mnemonic.toList.all isPlain = true := by cases op <;> rfl
  refine ⟨[.word op.mnemonic k], .cons (.mnemonic op k) .nil, ?_⟩
  exact At.word (by cases op <;> decide) (List.all_eq_true.mp hplain)

theorem Tells.append_newline (h : Tells cs ws) (h' : Tells ds vs) :
    Tells (cs ++ '\n' :: ds) (ws ++ vs) := by
  intro k found
  obtain ⟨ts, k₁, hts, hnext, -⟩ := h k found
  obtain ⟨ts', k₂, hts', hnext', hfinish'⟩ := h' k₁ (ts.reverse ++ found)
  have hfound : (ts ++ ts').reverse ++ found = ts'.reverse ++ (ts.reverse ++ found) := by
    rw [List.reverse_append, List.append_assoc]
  refine ⟨ts ++ ts', k₂, List.rel_append hts hts', ?_, ?_⟩
  · rw [List.foldl_append, List.foldl_cons, hnext, hnext', hfound]
  · rw [List.foldl_append, List.foldl_cons, hnext, hfinish', hfound]

end Listing

/-! ## Assembling such texts -/

/-- A slot that every assembler fills with a certain code word. -/
inductive Slot.Holds : Slot → Int64 → Prop
  | word (w : Int64) : Holds (.word w) w
  | mnemonic (op : Opcode) : Holds (.delayed op.mnemonic) op.word

namespace Assembler

open Listing (Tells Yields)

/-- An assembler that knows the instructions by their names, and has no constants and certain code
words. -/
structure Plain (asm : Assembler) (code : List Int64) : Prop where
  labels : ∀ op : Opcode, asm.labels.get? op.mnemonic = some (.fixed op.word)
  data : asm.data = #[]
  slots : List.Forall₂ Slot.Holds asm.slots.toList code

variable {asm asm' : Assembler} {code ws : List Int64} {t : Token} {ts : List Token} {w : Int64}

theorem plain_new (st : Store) : Plain (Assembler.new st).1 [] := by
  refine ⟨fun op => ?_, rfl, .nil⟩
  cases op <;> rfl

theorem Plain.emit (h : Plain asm code) {s : Slot} (hs : s.Holds w) :
    Plain { asm with slots := asm.slots.push s } (code ++ [w]) :=
  ⟨h.labels, h.data, by
    rw [Array.toList_push]
    exact List.rel_append h.slots (.cons hs .nil)⟩

theorem feedWord_numeral (w : Int64) (asm : Assembler) :
    feedWord (toString w.toInt) asm =
      (.ok (), { asm with slots := asm.slots.push (.word w) }) := by
  have hd := Reader.isDecimal_toString w.toInt
  have hn : Text.int64? (toString w.toInt) = some w := by
    rw [Text.int64?, hd.integer?, Option.bind_some, Reader.signed64?_toInt]
  have hp : Text.dropLead? "$" (toString w.toInt) = none := by
    rw [Text.dropLead?, Option.map_eq_none_iff, Option.eq_none_iff_forall_ne_some]
    intro rest hrest
    have hmem : '$' ∈ (toString w.toInt).toList := by
      rw [Text.eq_append_of_afterLead? hrest]
      exact List.mem_cons_self ..
    rcases Listing.isDigit_or_of_isDecimal hd hmem with h | h <;> cases h
  rw [feedWord, hp, hn]
  rfl

theorem feedWord_mnemonic (op : Opcode) (asm : Assembler) :
    feedWord op.mnemonic asm =
      (.ok (), { asm with slots := asm.slots.push (.delayed op.mnemonic) }) := by
  have hp : Text.dropLead? "$" op.mnemonic = none := by cases op <;> rfl
  have hn : Text.int64? op.mnemonic = none := by cases op <;> rfl
  have ht : Text.dropTail? ":" op.mnemonic = none := by cases op <;> rfl
  rw [feedWord, hp, hn, ht]
  rfl

theorem Plain.feedTokens (h : Plain asm code) (hts : List.Forall₂ Token.Spells ts ws) :
    ∃ asm', Assembler.feedTokens ts asm = (.ok (), asm') ∧ Plain asm' (code ++ ws) := by
  induction hts generalizing asm code with
  | nil => exact ⟨asm, rfl, by simpa using h⟩
  | @cons t w ts ws ht _ ih =>
    rw [List.append_cons]
    cases ht with
    | numeral _ k =>
      have hne : toString w.toInt ≠ "!define" := by
        intro heq
        have hd := Reader.isDecimal_toString w.toInt
        rw [heq] at hd
        rcases Listing.isDigit_or_of_isDecimal hd (List.mem_cons_self .. : '!' ∈ _) with h | h <;>
          cases h
      rw [feedTokens_word hne, bind_ok (feedWord_numeral w asm)]
      exact ih (h.emit (.word w))
    | mnemonic op k =>
      have hne : op.mnemonic ≠ "!define" := by cases op <;> decide
      rw [feedTokens_word hne, bind_ok (feedWord_mnemonic op asm)]
      exact ih (h.emit (.mnemonic op))

theorem Plain.feed (h : Plain asm code) {cs : List Char} (hcs : Tells cs ws) :
    ∃ asm', Assembler.feed (String.ofList cs) asm = (.ok (), asm') ∧ Plain asm' (code ++ ws) := by
  obtain ⟨ts, -, hts, -, hfinish⟩ := hcs 1 []
  have htokens : tokens (String.ofList cs).toList = .ok ts := by
    rw [String.toList_ofList]
    simpa [tokens] using hfinish
  obtain ⟨asm', hfeed, h'⟩ := h.feedTokens hts
  refine ⟨asm', ?_, h'⟩
  rw [Assembler.feed, htokens]
  exact hfeed

theorem Plain.resolve_all (h : Plain asm code) {ss : List Slot}
    (hss : List.Forall₂ Slot.Holds ss ws) : ss.mapM resolve asm = (.ok ws, asm) := by
  induction hss with
  | nil => rfl
  | @cons s w ss ws hs _ ih =>
    have hr : resolve s asm = (.ok w, asm) := by
      cases hs with
      | word => rfl
      | mnemonic op => rw [resolve_delayed, h.labels]
    rw [List.mapM_cons, bind_ok hr, bind_ok ih]
    rfl

theorem Plain.finish (h : Plain asm code) (op : Opcode) :
    ∃ pc, Assembler.finish op.mnemonic asm =
      (.ok { code := code.toArray, data := #[], entry := pc }, asm) := by
  have hcode : asm.slots.mapM resolve asm = (.ok code.toArray, asm) := by
    rw [Array.mapM_eq_mapM_toList, map_eq_pure_bind, bind_ok (h.resolve_all h.slots)]
    rfl
  obtain ⟨pc, hpc⟩ : ∃ pc, Opcode.position? op.word = some pc := by cases op <;> exact ⟨_, rfl⟩
  exact ⟨pc, finish_eq_ok_iff.mpr
    ⟨code.toArray, op.word, pc, hcode, h.labels op, hpc, by rw [h.data]⟩⟩

/-- Texts that tell code words one after the other come to all of them. -/
theorem Plain.feed_all (h : Plain asm code) {rs : List (List Char)} {wss : List (List Int64)}
    (hrs : List.Forall₂ Tells rs wss) :
    ∃ asm', ((rs.map String.ofList).forM Assembler.feed : Assembling Unit) asm = (.ok (), asm') ∧
      Plain asm' (code ++ wss.flatten) := by
  induction hrs generalizing asm code with
  | nil => exact ⟨asm, rfl, by simpa using h⟩
  | @cons r ws rs wss hr _ ih =>
    obtain ⟨asm₁, hfeed, h₁⟩ := h.feed hr
    obtain ⟨asm₂, hall, h₂⟩ := ih h₁
    refine ⟨asm₂, ?_, by rwa [List.flatten_cons, ← List.append_assoc]⟩
    show (Assembler.feed (String.ofList r) >>= fun _ =>
      (rs.map String.ofList).forM Assembler.feed : Assembling Unit) asm = _
    rw [bind_ok hfeed]
    exact hall

theorem yields_of_tells {rs : List (List Char)} {wss : List (List Int64)}
    (hrs : List.Forall₂ Tells rs wss) : Yields (rs.map String.ofList) wss.flatten := by
  intro st
  obtain ⟨asm, hfeed, h⟩ := (plain_new st).feed_all hrs
  exact ⟨asm, hfeed, h.finish⟩

end Assembler

/-! ## Lines of a listing -/

theorem Opcode.word_of_ofWord? {w : Int64} {op : Opcode} (h : ofWord? w = some op) :
    op.word = w := by
  obtain ⟨n, hn, hop⟩ := Option.bind_eq_some_iff.mp h
  rw [position?] at hn
  split at hn
  · cases hn
  · rename_i hneg
    obtain rfl := Option.some.inj hn
    have hall : ∀ i : Fin all.size, all[i].word.toInt = i := by decide
    obtain ⟨hlt, rfl⟩ := Array.getElem?_eq_some_iff.mp hop
    have hw : all[w.toNatClampNeg].word.toInt = w.toNatClampNeg := hall ⟨_, hlt⟩
    rw [← Int64.toInt_inj, hw]
    have hnonneg : 0 ≤ w.toInt := by
      rw [Int64.lt_iff_toInt_lt] at hneg
      exact Int.not_lt.mp hneg
    exact Int.toNat_of_nonneg hnonneg

namespace Listing

open Assembler

variable {p : Program} {st : Store} {pc n : Nat} {body : List Char} {ls : List (List Char)}
  {code ws : List Int64} {line : List Char}

/-- The marker, the offset and the blanks in front of an instruction. -/
def margin (entry pc : Nat) : List Char :=
  (if pc = entry then '>' else ' ') :: ((Program.fiveDigits pc).toList ++ [' ', ' '])

/-- Lines that list code words from a position on, one instruction a line. -/
inductive Lists (entry : Nat) : Nat → List (List Char) → List Int64 → Prop
  | nil {pc : Nat} : Lists entry pc [] []
  | cons {pc : Nat} {line : List Char} {ls : List (List Char)} {ws code : List Int64}
      (hws : ws ≠ []) (hoffset : offset? line = some pc)
      (hmark : line.head? = some (if pc = entry then '>' else ' '))
      (htells : Tells (remainder line) ws) (hrest : Lists entry (pc + ws.length) ls code) :
      Lists entry pc (line :: ls) (ws ++ code)

theorem Lists.tells {entry : Nat} (h : Lists entry pc ls code) :
    ∃ wss, List.Forall₂ Tells (ls.map remainder) wss ∧ wss.flatten = code := by
  induction h with
  | nil => exact ⟨[], .nil, rfl⟩
  | @cons _ _ _ ws _ _ _ _ htells _ ih =>
    obtain ⟨wss, hwss, rfl⟩ := ih
    exact ⟨ws :: wss, .cons htells hwss, rfl⟩

theorem tells_remainders {wss : List (List Int64)}
    (h : List.Forall₂ Tells (ls.map remainder) wss) :
    Tells (ls.flatMap fun l => remainder l ++ ['\n']) wss.flatten := by
  induction ls generalizing wss with
  | nil =>
    cases h
    exact begins_nil.tells
  | cons l ls ih =>
    cases h with
    | cons hl hls =>
      have hcons := hl.append_newline (ih hls)
      rw [List.append_cons] at hcons
      exact hcons

theorem Lists.yields {entry : Nat} (h : Lists entry pc ls code) : Yields [remainders ls] code := by
  obtain ⟨wss, hwss, rfl⟩ := h.tells
  have hy := yields_of_tells (.cons (tells_remainders hwss) .nil)
  rwa [List.flatten_singleton] at hy

theorem Lists.yields_apart {entry : Nat} (h : Lists entry pc ls code) :
    Yields (ls.map (String.ofList ∘ remainder)) code := by
  obtain ⟨wss, hwss, rfl⟩ := h.tells
  have hy := yields_of_tells hwss
  rwa [List.map_map] at hy

/-- A line stands where the words of the lines before it end. -/
theorem Lists.split {entry : Nat} : ∀ {before after : List (List Char)} {pc : Nat}
    {code : List Int64}, Lists entry pc (before ++ line :: after) code →
    ∃ pre post, code = pre ++ post ∧ post ≠ [] ∧ Lists entry pc before pre ∧
      offset? line = some (pc + pre.length) ∧
      line.head? = some (if pc + pre.length = entry then '>' else ' ')
  | [], _, _, _, .cons hws hoffset hmark _ _ =>
    ⟨[], _, rfl, List.append_ne_nil_of_left_ne_nil hws _, .nil, hoffset, hmark⟩
  | _ :: before, _, _, _, @Lists.cons _ _ _ _ ws _ hws hoffset hmark htells hrest => by
    obtain ⟨pre, post, rfl, hpost, hbefore, hoff, hhead⟩ := hrest.split
    rw [Nat.add_assoc, ← List.length_append] at hoff hhead
    exact ⟨ws ++ pre, post, (List.append_assoc ..).symm, hpost,
      .cons hws hoffset hmark htells hbefore, hoff, hhead⟩

/-! ### The margin -/

/-- Zeros in front do not matter. -/
theorem digits?_zeros {cs : List Char} (h : Text.digits? cs = some n) (k : Nat) :
    Text.digits? (List.replicate k '0' ++ cs) = some n := by
  induction k with
  | zero => exact h
  | succ k ih =>
    obtain ⟨-, hall, hn⟩ := Reader.digits?_eq_some_iff.mp ih
    exact Reader.digits?_eq_some_iff.mpr ⟨List.cons_ne_nil _ _, hall, hn⟩

theorem digits?_fiveDigits (n : Nat) : Text.digits? (Program.fiveDigits n).toList = some n := by
  rw [Program.fiveDigits, String.toList_append, String.toList_ofList]
  have hn : (toString n).toList = Nat.toDigits 10 n := Nat.toList_repr
  rw [hn]
  exact digits?_zeros (Reader.digits?_toDigits n) _

theorem isDigit_of_mem_fiveDigits {c : Char} (hc : c ∈ (Program.fiveDigits n).toList) :
    c.isDigit = true :=
  List.all_eq_true.mp (Reader.digits?_eq_some_iff.mp (digits?_fiveDigits n)).2.1 c hc

theorem newline_notMem_margin (entry pc : Nat) : '\n' ∉ margin entry pc := by
  intro h
  rcases List.mem_cons.mp h with h | h
  · split at h <;> cases h
  · rcases List.mem_append.mp h with h | h
    · cases isDigit_of_mem_fiveDigits h
    · simp at h

theorem offset?_margin (entry pc : Nat) (cs : List Char) :
    offset? (margin entry pc ++ cs) = some pc := by
  have htake : ((margin entry pc ++ cs).drop 1).takeWhile Char.isDigit =
      (Program.fiveDigits pc).toList := by
    rw [margin, List.cons_append, List.drop_one, List.tail_cons, List.append_assoc,
      List.takeWhile_append_of_pos fun c => isDigit_of_mem_fiveDigits]
    exact List.append_nil _
  rw [offset?, htake, digits?_fiveDigits]

theorem head?_margin (entry pc : Nat) (cs : List Char) :
    (margin entry pc ++ cs).head? = some (if pc = entry then '>' else ' ') := rfl

theorem remainder_margin (entry pc : Nat) {cs : List Char} (hcs : cs.head? ≠ some ' ') :
    remainder (margin entry pc ++ cs) = (Text.afterLead? ".word".toList cs).getD cs := by
  have hdrop : (((margin entry pc ++ cs).drop 1).dropWhile Char.isDigit).dropWhile (· == ' ') =
      cs := by
    rw [margin, List.cons_append, List.drop_one, List.tail_cons, List.append_assoc,
      List.dropWhile_append_of_pos fun c => isDigit_of_mem_fiveDigits]
    show cs.dropWhile (· == ' ') = cs
    cases cs with
    | nil => rfl
    | cons c cs =>
      have hc : (c == ' ') = false := by simpa using hcs
      rw [List.dropWhile_cons, hc]
      rfl
  rw [remainder, hdrop]

/-! ### From the program to its lines -/

theorem annotation_cases (p : Program) (st : Store) (op : Opcode) (operands : List Int64) :
    p.annotation st op operands = "" ∨
      ∃ v ∈ p.data, p.annotation st op operands = "    ; " ++ v.inspected st := by
  have hmem {n : Int64} {v : Value} (hc : p.constant? n = some v) : v ∈ p.data := by
    obtain ⟨i, -, hi⟩ := Option.bind_eq_some_iff.mp hc
    exact Array.mem_of_getElem? hi
  unfold Program.annotation
  split
  · split
    · next v hc => exact .inr ⟨v, hmem hc, rfl⟩
    · exact .inl rfl
  · split
    · next v hc => exact .inr ⟨v, hmem hc, rfl⟩
    · exact .inl rfl
  · exact .inl rfl

/-- The numbers after a mnemonic. -/
def numerals (ws : List Int64) : List Char :=
  ws.flatMap fun w => ' ' :: (toString w.toInt).toList

theorem newline_notMem_numerals (ws : List Int64) : '\n' ∉ numerals ws := by
  intro h
  obtain ⟨w, -, hw⟩ := List.mem_flatMap.mp h
  rcases List.mem_cons.mp hw with hw | hw
  · cases hw
  · cases isPlain_of_isDecimal (Reader.isDecimal_toString w.toInt) _ hw

/-- A line with a word that is no instruction. -/
theorem Lists.word (w : Int64) {rest : List Char} (h : Lists p.entry (pc + 1) (lines rest) ws) :
    Lists p.entry pc (lines (margin p.entry pc ++ (".word".toList ++ numerals [w]) ++ '\n' :: rest))
      (w :: ws) := by
  have hline : '\n' ∉ margin p.entry pc ++ (".word".toList ++ numerals [w]) := by
    rw [List.mem_append, List.mem_append, not_or, not_or]
    exact ⟨newline_notMem_margin p.entry pc, by decide, newline_notMem_numerals _⟩
  rw [lines_append hline]
  refine .cons (List.cons_ne_nil w []) (offset?_margin ..) (head?_margin ..) ?_ h
  rw [remainder_margin, Text.afterLead?_append]
  · exact (begins_nil.numerals [w]).tells
  · exact fun h => by cases h

/-- A line with an instruction. -/
theorem Lists.instruction (op : Opcode) (operands : List Int64) {remark : String}
    (hremark : remark = "" ∨ ∃ s : String, '\n' ∉ s.toList ∧ remark = "    ; " ++ s)
    {rest : List Char} (h : Lists p.entry (pc + 1 + operands.length) (lines rest) ws) :
    Lists p.entry pc (lines (margin p.entry pc ++
        (op.mnemonic.toList ++ numerals operands ++ remark.toList) ++ '\n' :: rest))
      (op.word :: operands ++ ws) := by
  have hbegins := (begins_mnemonic op).numerals operands
  obtain ⟨c, cs, hop, hdot, hblank⟩ : ∃ c cs, op.mnemonic.toList = c :: cs ∧ c ≠ '.' ∧ c ≠ ' ' := by
    cases op <;> exact ⟨_, _, rfl, by decide, by decide⟩
  have hnewline : '\n' ∉ op.mnemonic.toList := by cases op <;> decide
  have htells : Tells (op.mnemonic.toList ++ numerals operands ++ remark.toList)
      (op.word :: operands) ∧ '\n' ∉ remark.toList := by
    rcases hremark with rfl | ⟨s, hs, rfl⟩
    · rw [String.toList_empty, List.append_nil]
      exact ⟨hbegins.tells, List.not_mem_nil⟩
    · rw [String.toList_append]
      refine ⟨hbegins.tells_remark hs, ?_⟩
      rw [List.mem_append, not_or]
      exact ⟨by decide, hs⟩
  have hline : '\n' ∉ margin p.entry pc ++
      (op.mnemonic.toList ++ numerals operands ++ remark.toList) := by
    simp only [List.mem_append, not_or]
    exact ⟨newline_notMem_margin p.entry pc, ⟨hnewline, newline_notMem_numerals _⟩, htells.2⟩
  rw [lines_append hline]
  have hlength : pc + (op.word :: operands).length = pc + 1 + operands.length := by
    rw [List.length_cons]
    omega
  refine .cons (List.cons_ne_nil _ _) (offset?_margin ..) (head?_margin ..) ?_ (hlength ▸ h)
  rw [remainder_margin]
  · have hword : Text.afterLead? ".word".toList
        (op.mnemonic.toList ++ numerals operands ++ remark.toList) = none := by
      rw [hop]
      exact if_neg (Ne.symm hdot)
    rw [hword]
    exact htells.1
  · rw [hop]
    exact fun h => hblank (Option.some.inj h)

theorem lists_listingFrom (hdata : ∀ v ∈ p.data, '\n' ∉ (v.inspected st).toList) (pc : Nat)
    (ws : List Int64) : Lists p.entry pc (lines (p.listingFrom st pc ws).toList) ws := by
  have hmargin (pc : Nat) : ((if pc = p.entry then ">" else " ") ++ Program.fiveDigits pc ++
      "  ").toList = margin p.entry pc := by
    rw [String.toList_append, String.toList_append, margin]
    split <;> rfl
  induction pc, ws using Program.listingFrom.induct p with
  | case1 pc =>
    rw [Program.listingFrom]
    exact .nil
  | case2 pc w rest ho ih =>
    have hline : (p.listingFrom st pc (w :: rest)).toList = margin p.entry pc ++
        (".word".toList ++ numerals [w]) ++ '\n' :: (p.listingFrom st (pc + 1) rest).toList := by
      rw [Program.listingFrom]
      simp only [ho, String.toList_append, ← hmargin, numerals, List.flatMap_singleton]
      simp
    rw [hline]
    exact .word w ih
  | case3 pc w rest op ho n ih =>
    have hline : (p.listingFrom st pc (w :: rest)).toList = margin p.entry pc ++
        (op.mnemonic.toList ++ numerals (rest.take n) ++
          (p.annotation st op (rest.take n)).toList) ++
        '\n' :: (p.listingFrom st (pc + 1 + n) (rest.drop n)).toList := by
      rw [Program.listingFrom]
      simp only [ho, String.toList_append, ← hmargin, numerals, String.toList_join,
        List.flatMap_map]
      simp [n]
    -- The code may end before the operand; then it is the end of the listing too.
    have hrest : Lists p.entry (pc + 1 + (rest.take n).length)
        (lines (p.listingFrom st (pc + 1 + n) (rest.drop n)).toList) (rest.drop n) := by
      rcases Nat.lt_or_ge rest.length n with hn | hn
      · rw [List.drop_eq_nil_of_le hn.le, Program.listingFrom]
        exact .nil
      · rw [List.length_take, Nat.min_eq_left hn]
        exact ih
    have hremark : p.annotation st op (rest.take n) = "" ∨ ∃ s : String, '\n' ∉ s.toList ∧
        p.annotation st op (rest.take n) = "    ; " ++ s := by
      rcases annotation_cases p st op (rest.take n) with h | ⟨v, hv, h⟩
      · exact .inl h
      · exact .inr ⟨_, hdata v hv, h⟩
    have h := Lists.instruction op (rest.take n) hremark hrest
    rw [hline]
    rwa [List.cons_append, List.take_append_drop, Opcode.word_of_ofWord? ho] at h

/-- A listing can be read back if no constant is inspected in more than one line. -/
theorem readsBack_of_inspected (hdata : ∀ v ∈ p.data, '\n' ∉ (v.inspected st).toList) :
    ReadsBack p (p.listing st) := by
  have h : Lists p.entry 0 (lines (p.listing st).toList) p.code.toList :=
    lists_listingFrom hdata 0 p.code.toList
  refine ⟨h.yields, h.yields_apart, fun before line after hlines => ?_⟩
  rw [hlines] at h
  obtain ⟨pre, post, hcode, hpost, hbefore, hoffset, hhead⟩ := h.split
  rw [Nat.zero_add] at hoffset hhead
  refine ⟨pre.length, hoffset, ?_, ?_, hhead⟩
  · have hlength := congrArg List.length hcode
    have hpos := List.length_pos_of_ne_nil hpost
    rw [Array.length_toList, List.length_append] at hlength
    omega
  · rw [hcode, List.take_left]
    exact hbefore.yields

end Listing

/-! ## Constants of assembled programs -/

@[simp] theorem Value.inspected_number (n : Int64) (st : Store) :
    (Value.number n).inspected st = toString n.toInt := by
  rw [inspected, shown_of_list? rfl, showWithin]
  all_goals intros; contradiction

@[simp] theorem Value.inspected_symbol (s : String) (st : Store) :
    (Value.symbol s).inspected st = s := by
  rw [inspected, shown_of_list? rfl, showWithin]
  all_goals intros; contradiction

/-- Numbers have no newlines, whatever their base. -/
theorem newline_notMem_toDigits {b : Nat} (hb : 1 < b) (n : Nat) : '\n' ∉ Nat.toDigits b n := by
  induction n using Nat.strongRecOn with
  | ind n ih =>
    have hdigit (d : Nat) : '\n' ∉ [d.digitChar] := by
      rw [List.mem_singleton]
      exact (Nat.digitChar_ne '\n' (by decide)).symm
    rw [Nat.toDigits_eq_if hb]
    split
    · exact hdigit n
    · rename_i hn
      rw [List.mem_append, not_or]
      exact ⟨ih _ (Nat.div_lt_self (by omega) hb), hdigit _⟩

theorem newline_notMem_quoted (s : String) : '\n' ∉ (Text.quoted s).toList := by
  have hc (c : Char) : '\n' ∉ (Text.quotedChar c).toList := by
    unfold Text.quotedChar
    split
    case h_7 _ _ _ hnewline _ _ =>
      split
      · have hhex : '\n' ∉ (Text.hexadecimal c.toNat).toList := by
          rw [Text.hexadecimal, String.toList_ofList]
          exact newline_notMem_toDigits (by decide) _
        rw [String.toList_append, String.toList_append, List.mem_append, List.mem_append, not_or,
          not_or]
        exact ⟨⟨by decide, hhex⟩, by decide⟩
      · rw [String.toList_singleton, List.mem_singleton]
        exact Ne.symm hnewline
    all_goals decide
  rw [Text.quoted, String.toList_append, String.toList_append, String.toList_join,
    List.mem_append, List.mem_append, not_or, not_or, List.mem_flatMap]
  refine ⟨⟨by decide, ?_⟩, by decide⟩
  rintro ⟨t, ht, hn⟩
  obtain ⟨c, -, rfl⟩ := List.mem_map.mp ht
  exact hc c hn

namespace Assembler

/-- What every constant has that a program can get from assembly text: those of the text, and those
that have names from the start. -/
structure Closed (empty : ListRef) (P : Value → Prop) : Prop where
  text : ∀ s, P (.text s)
  number : ∀ n, P (.number n)
  empty : P (.list empty)
  truth : ∀ b, P (.ofBool b)

/-- All constants of a program under construction, and those that it has names for, have a
property. -/
structure Every (P : Value → Prop) (asm : Assembler) : Prop where
  labels : ∀ name v, asm.labels.get? name = some (.data v) → P v
  data : ∀ v ∈ asm.data.toList, P v

variable {empty : ListRef} {P : Value → Prop} {a b : Assembler} {s : Statement}
  {ss : List Statement}

theorem Closed.predefined (hP : Closed empty P) {name : String} {v : Value}
    (h : (Assembler.predefined empty).get? name = some (.data v)) : P v := by
  obtain ⟨⟨other, l⟩, hfind, rfl⟩ := Option.map_eq_some_iff.mp h
  have hmem := List.mem_of_find?_eq_some hfind
  rw [Assembler.predefined, List.mem_append, List.mem_append] at hmem
  rcases hmem with (hmem | hmem) | hmem
  · obtain ⟨op, -, hop⟩ := List.mem_map.mp hmem
    cases hop
  · obtain ⟨k, -, hk⟩ := List.mem_map.mp hmem
    cases hk
  · simp only [List.mem_cons, Prod.mk.injEq, Label.data.injEq, List.not_mem_nil, or_false] at hmem
    rcases hmem with ⟨-, rfl⟩ | ⟨-, rfl⟩ | ⟨-, rfl⟩ | ⟨-, rfl⟩
    · exact hP.empty
    · exact hP.truth true
    · exact hP.truth false
    · exact hP.text "\n"

theorem Every.push (h : Every P a) {v : Value} (hv : P v) {slot : Slot} :
    Every P { a with slots := a.slots.push slot, data := a.data.push v } := by
  refine ⟨h.labels, fun u hu => ?_⟩
  rw [Array.toList_push, List.mem_append, List.mem_singleton] at hu
  rcases hu with hu | rfl
  · exact h.data u hu
  · exact hv

/-- Naming something that is no constant, or one that has a name already, gives no new constant. -/
theorem Every.declare (h : Every P a) {name : String} {l : Label} (hl : ∀ v, l = .data v → P v) :
    Every P { a with labels := (name, l) :: a.labels } := by
  refine ⟨fun other v hv => ?_, h.data⟩
  rw [Labels.get?_cons] at hv
  split at hv
  · exact hl v (Option.some.inj hv)
  · exact h.labels other v hv

theorem Every.takes (hP : Closed empty P) (h : Every P a) (ht : Takes s a b) : Every P b := by
  cases ht with
  | text t _ => exact h.push (hP.text t)
  | @constant _ n _ _ => exact h.push (hP.number n)
  | literal _ _ => exact ⟨h.labels, h.data⟩
  | reference _ _ => exact ⟨h.labels, h.data⟩
  | label _ => exact h.declare nofun
  | @definition _ value l _ _ hv =>
    refine h.declare fun v hl => ?_
    rw [hl, Labels.denoted?] at hv
    split at hv
    · cases hv
    · exact h.labels value v hv

theorem Every.feeds (hP : Closed empty P) (hf : Feeds a ss b) (h : Every P a) : Every P b := by
  induction hf with
  | nil => exact h
  | cons ht _ ih => exact ih (h.takes hP ht)

theorem Every.finish (h : Every P a) {entry : String} {p : Program}
    (hf : Assembler.finish entry a = (.ok p, b)) : ∀ v ∈ p.data, P v := by
  intro v hv
  obtain ⟨-, hdata, -⟩ := finish_ok hf
  rw [← Array.mem_toList_iff, hdata, List.mem_append, List.mem_filterMap] at hv
  rcases hv with hv | ⟨slot, -, hv⟩
  · exact h.data v hv
  · cases slot with
    | word _ => cases hv
    | delayed name =>
      rw [Slot.constant?, Labels.constant?] at hv
      split at hv
      · rename_i hname
        cases hv
        exact h.labels name _ hname
      · cases hv

/-- A property of all texts, all numbers, the empty list and the truth values is one of all
constants that the assembler puts into a program. -/
theorem data_of_assemble {source entry : String} {st st' : Store} {p : Program}
    (h : assemble source entry st = (.ok p, st')) (hP : Closed ⟨st.lists.size⟩ P) :
    ∀ v ∈ p.data, P v := by
  have hrun : ((do feed source; finish entry : Assembling Program)
      { labels := predefined ⟨st.lists.size⟩ }).1 = .ok p := congrArg Prod.fst h
  rcases hr : (do feed source; finish entry : Assembling Program)
    { labels := predefined ⟨st.lists.size⟩ } with ⟨r, asm'⟩
  rw [hr] at hrun
  obtain rfl : r = .ok p := hrun
  obtain ⟨_, asm, hfeed, hfinish⟩ := bind_eq_ok hr
  obtain ⟨ts, ss, -, -, hf⟩ := feeds_of_feed hfeed
  have hstart : Every P { labels := predefined ⟨st.lists.size⟩ } :=
    ⟨fun _ _ => hP.predefined, by simp⟩
  exact (Every.feeds hP hf hstart).finish hfinish

/-- The constants of an assembled program are inspected in one line. -/
theorem inspected_of_assemble {source entry : String} {st st' : Store} {p : Program}
    (h : assemble source entry st = (.ok p, st')) :
    ∀ v ∈ p.data, '\n' ∉ (v.inspected st').toList := by
  have hst : st' = (st.newList []).2 := (congrArg Prod.snd h).symm
  have hlist : (Value.list ⟨st.lists.size⟩).inspected st' = "()" := by
    have hitems : st'.items ⟨st.lists.size⟩ = [] := by
      rw [hst]
      simp [Store.items, Store.newList]
    have hend : Value.endsWithin st' 1 (.list ⟨st.lists.size⟩) = true :=
      Value.endsWithin_succ.mpr fun w hw => by
        rw [Value.nested, hitems] at hw
        cases hw
    rw [Value.inspected, Value.shown_eq hend, Value.showWithin, hitems, List.map_nil]
    · decide
    all_goals intros; contradiction
  refine data_of_assemble h ⟨newline_notMem_quoted, fun n hn => ?_, ?_, fun b => ?_⟩
  · rw [Value.inspected_number] at hn
    cases Listing.isPlain_of_isDecimal (Reader.isDecimal_toString n.toInt) _ hn
  · rw [hlist]
    decide
  · rw [Value.ofBool, Value.inspected_symbol]
    cases b <;> decide

end Assembler

namespace Listing

/-- Disassembly loses nothing: without markers, offsets and `.word`, a listing is a text of the
program's code, each line has the offset of its words, and the line at the entry is marked.  This
holds as long as no constant is inspected in more than one line, and so of all that the assembler
makes. -/
theorem readsBack_listing :
    (∀ (p : Program) (st : Store), (∀ v ∈ p.data, '\n' ∉ (v.inspected st).toList) →
      ReadsBack p (p.listing st)) ∧
    ∀ (source entry : String) (st st' : Store) (p : Program),
      Assembler.assemble source entry st = (.ok p, st') → ReadsBack p (p.listing st') :=
  ⟨fun _ _ => readsBack_of_inspected,
    fun _ _ _ _ _ h => readsBack_of_inspected (Assembler.inspected_of_assemble h)⟩

/-- A program with an operand that looks like an instruction, remarks that look like text, at its
entry a word that is no instruction, and no operand for its last instruction. -/
def cutOff : Program where
  code := #[9, 0, 45, 1, 99, -5, 15, 9, 9, 7, 15]
  data := #[.symbol "; DATA \"\\", .text "a\n;\"b"]
  entry := 4

/-- What `cutOff` looks like. -/
def cutOffText : String :=
  " 00000  DATA 0    ; ; DATA \"\\\n 00002  HALTMSG 1    ; \"a\\n;\\\"b\"\n>00004  .word 99\n" ++
  " 00005  .word -5\n 00006  JMP 9\n 00008  DATA 7\n 00010  JMP\n"

theorem listing_cutOff : cutOff.listing {} = cutOffText := by
  have hcode : cutOff.code.toList = [9, 0, 45, 1, 99, -5, 15, 9, 9, 7, 15] := rfl
  have hdata : Opcode.ofWord? 9 = some .data := by decide
  have hhalt : Opcode.ofWord? 45 = some .halt := by decide
  have hjump : Opcode.ofWord? 15 = some .jump := by decide
  have hnone : Opcode.ofWord? 99 = none ∧ Opcode.ofWord? (-5) = none := by decide
  have h₀ : cutOff.constant? 0 = some (.symbol "; DATA \"\\") := rfl
  have h₁ : cutOff.constant? 1 = some (.text "a\n;\"b") := rfl
  have h₇ : cutOff.constant? 7 = none := rfl
  simp only [Program.listing, hcode, Program.listingFrom, hdata, hhalt, hjump, hnone,
    Opcode.operandCount, List.take, List.drop, Program.annotation, h₀, h₁, h₇,
    Value.inspected_symbol]
  decide +kernel

theorem readsBack_listing_of_cutOff :
    ReadsBack cutOff cutOffText ∧
    ∃ p st', Assembler.assemble "main: DATA \";\\n\" DATA Nil NewLine EXIT" "main" {} =
        (.ok p, st') ∧
      ReadsBack p (p.listing st') := by
  have hdata : ∀ v ∈ cutOff.data, '\n' ∉ (v.inspected {}).toList := by
    intro v hv
    have hcases : v = .symbol "; DATA \"\\" ∨ v = .text "a\n;\"b" := by simpa [cutOff] using hv
    rcases hcases with rfl | rfl
    · rw [Value.inspected_symbol]
      decide
    · exact newline_notMem_quoted _
  have hok : (Assembler.assemble "main: DATA \";\\n\" DATA Nil NewLine EXIT" "main" {}
      ).1.toOption.isSome = true := by decide +kernel
  rcases ha : Assembler.assemble "main: DATA \";\\n\" DATA Nil NewLine EXIT" "main" {} with
    ⟨e | p, st'⟩
  · rw [ha] at hok
    cases hok
  · refine ⟨?_, p, st', rfl, readsBack_listing.2 _ _ _ st' p ha⟩
    rw [← listing_cutOff]
    exact readsBack_listing.1 cutOff {} hdata

end Listing

end LispEngines
