import LispEngines.Reader.Form
import Mathlib.Init

/-!
# The grammar of forms

A parsing expression takes a beginning of the characters before it, or refuses them.  A choice
tries its second side only where its first refuses, a repetition takes as much as it can, and a
lookahead takes nothing.  `Parses` says what an expression does; it never does two things
(`Parses.unique`).

`grammar` is the grammar of forms in these terms.  Blanks and comments may stand between the parts
of a program and of a list, and nowhere else: that is what `Peg.apart` and `Peg.spaced` say, where
the plain `Peg.seq` and `Peg.many` leave no room for them.  `formsOf` gives a parse its forms.
-/

namespace LispEngines.Reader

/-! ## Parsing expressions -/

/-- A parsing expression over rules of some kind. -/
inductive Peg (R : Type) where
  /-- Nothing. -/
  | empty
  /-- The end of the characters. -/
  | finish
  /-- A character of a sort. -/
  | one (p : Char → Bool)
  /-- What a rule says. -/
  | rule (r : R)
  /-- One after the other. -/
  | seq (a b : Peg R)
  /-- The second where the first refuses. -/
  | either (a b : Peg R)
  /-- As often as it goes. -/
  | many (a : Peg R)
  /-- Nothing, where `a` refuses. -/
  | no (a : Peg R)

/-- What a rule has taken, and the rules inside. -/
inductive Tree (R : Type) where
  | node (rule : R) (taken : List Char) (children : List (Tree R))

variable {R : Type} {g : R → Peg R}

/-- What an expression makes of the characters before it: trees and the characters that are left,
or nothing. -/
inductive Parses (g : R → Peg R) : Peg R → List Char → Option (List (Tree R) × List Char) → Prop
  | empty {cs : List Char} : Parses g .empty cs (some ([], cs))
  | finish : Parses g .finish [] (some ([], []))
  | finish_refuses {cs : List Char} (h : cs ≠ []) : Parses g .finish cs none
  | one {p : Char → Bool} {c : Char} {cs : List Char} (h : p c = true) :
      Parses g (.one p) (c :: cs) (some ([], cs))
  | one_refuses {p : Char → Bool} {cs : List Char} (h : ∀ c ∈ cs.head?, p c = false) :
      Parses g (.one p) cs none
  | rule {r : R} {taken cs ds : List Char} {ts : List (Tree R)} (hc : cs = taken ++ ds)
      (h : Parses g (g r) cs (some (ts, ds))) :
      Parses g (.rule r) cs (some ([.node r taken ts], ds))
  | rule_refuses {r : R} {cs : List Char} (h : Parses g (g r) cs none) :
      Parses g (.rule r) cs none
  | seq {a b : Peg R} {cs ds es : List Char} {ts us : List (Tree R)}
      (ha : Parses g a cs (some (ts, ds))) (hb : Parses g b ds (some (us, es))) :
      Parses g (.seq a b) cs (some (ts ++ us, es))
  | seq_first {a b : Peg R} {cs : List Char} (ha : Parses g a cs none) :
      Parses g (.seq a b) cs none
  | seq_second {a b : Peg R} {cs ds : List Char} {ts : List (Tree R)}
      (ha : Parses g a cs (some (ts, ds))) (hb : Parses g b ds none) :
      Parses g (.seq a b) cs none
  | either_first {a b : Peg R} {cs ds : List Char} {ts : List (Tree R)}
      (ha : Parses g a cs (some (ts, ds))) : Parses g (.either a b) cs (some (ts, ds))
  | either_second {a b : Peg R} {cs : List Char} {o : Option (List (Tree R) × List Char)}
      (ha : Parses g a cs none) (hb : Parses g b cs o) : Parses g (.either a b) cs o
  | many_stop {a : Peg R} {cs : List Char} (ha : Parses g a cs none) :
      Parses g (.many a) cs (some ([], cs))
  | many_more {a : Peg R} {cs ds es : List Char} {ts us : List (Tree R)}
      (ha : Parses g a cs (some (ts, ds))) (hm : Parses g (.many a) ds (some (us, es))) :
      Parses g (.many a) cs (some (ts ++ us, es))
  | no {a : Peg R} {cs : List Char} (ha : Parses g a cs none) :
      Parses g (.no a) cs (some ([], cs))
  | no_refuses {a : Peg R} {cs ds : List Char} {ts : List (Tree R)}
      (ha : Parses g a cs (some (ts, ds))) : Parses g (.no a) cs none

/-- An expression does one thing. -/
theorem Parses.unique {e : Peg R} {cs : List Char} {o o' : Option (List (Tree R) × List Char)}
    (h : Parses g e cs o) (h' : Parses g e cs o') : o' = o := by
  induction h generalizing o' with
  | empty => cases h'; rfl
  | finish =>
    cases h' with
    | finish => rfl
    | finish_refuses h => exact absurd rfl h
  | finish_refuses h =>
    cases h' with
    | finish => exact absurd rfl h
    | finish_refuses => rfl
  | one h =>
    cases h' with
    | one => rfl
    | one_refuses h' => cases h.symm.trans (h' _ rfl)
  | one_refuses h =>
    cases h' with
    | one h' => cases h'.symm.trans (h _ rfl)
    | one_refuses => rfl
  | rule hc _ ih =>
    cases h' with
    | rule hc' h' =>
      cases ih h'
      cases List.append_cancel_right (hc.symm.trans hc')
      rfl
    | rule_refuses h' => cases ih h'
  | rule_refuses _ ih =>
    cases h' with
    | rule _ h' => cases ih h'
    | rule_refuses => rfl
  | seq _ _ iha ihb =>
    cases h' with
    | seq ha hb => cases iha ha; cases ihb hb; rfl
    | seq_first ha => cases iha ha
    | seq_second ha hb => cases iha ha; cases ihb hb
  | seq_first _ iha =>
    cases h' with
    | seq ha hb => cases iha ha
    | seq_first ha => rfl
    | seq_second ha hb => rfl
  | seq_second _ _ iha ihb =>
    cases h' with
    | seq ha hb => cases iha ha; cases ihb hb
    | seq_first ha => rfl
    | seq_second ha hb => rfl
  | either_first _ iha =>
    cases h' with
    | either_first ha => cases iha ha; rfl
    | either_second ha hb => cases iha ha
  | either_second _ _ iha ihb =>
    cases h' with
    | either_first ha => cases iha ha
    | either_second ha hb => exact ihb hb
  | many_stop _ iha =>
    cases h' with
    | many_stop ha => rfl
    | many_more ha hm => cases iha ha
  | many_more _ _ iha ihm =>
    cases h' with
    | many_stop ha => cases iha ha
    | many_more ha hm => cases iha ha; cases ihm hm; rfl
  | no _ iha =>
    cases h' with
    | no => rfl
    | no_refuses ha => cases iha ha
  | no_refuses _ iha =>
    cases h' with
    | no ha => cases iha ha
    | no_refuses => rfl

/-- What is left is an end of the characters. -/
theorem Parses.suffix {e : Peg R} {cs ds : List Char} {ts : List (Tree R)}
    (h : Parses g e cs (some (ts, ds))) : ∃ taken, cs = taken ++ ds := by
  generalize ho : some (ts, ds) = o at h
  induction h generalizing ts ds with
  | empty => cases ho; exact ⟨[], rfl⟩
  | finish => cases ho; exact ⟨[], rfl⟩
  | @one p c cs h => cases ho; exact ⟨[c], rfl⟩
  | @rule r taken cs ds ts hc h ih => cases ho; exact ⟨taken, hc⟩
  | seq _ _ iha ihb =>
    cases ho
    obtain ⟨u, rfl⟩ := iha rfl
    obtain ⟨v, rfl⟩ := ihb rfl
    exact ⟨u ++ v, (List.append_assoc ..).symm⟩
  | either_first _ iha => exact iha ho
  | either_second _ _ _ ihb => exact ihb ho
  | many_stop => cases ho; exact ⟨[], rfl⟩
  | many_more _ _ iha ihm =>
    cases ho
    obtain ⟨u, rfl⟩ := iha rfl
    obtain ⟨v, rfl⟩ := ihm rfl
    exact ⟨u ++ v, (List.append_assoc ..).symm⟩
  | no => cases ho; exact ⟨[], rfl⟩
  | _ => cases ho

theorem Parses.length_le {e : Peg R} {cs ds : List Char} {ts : List (Tree R)}
    (h : Parses g e cs (some (ts, ds))) : ds.length ≤ cs.length := by
  obtain ⟨taken, rfl⟩ := h.suffix
  rw [List.length_append]
  omega

/-! ## The grammar -/

/-- The rules that leave a tree. -/
inductive Rule where
  | program
  | list
  | string
  | text
  | number
  | symbol
  deriving DecidableEq, Repr

namespace Peg

/-- One certain character. -/
def char (c : Char) : Peg Rule := .one (· == c)

/-- Any character but those of a sort. -/
def but (p : Char → Bool) : Peg Rule := .seq (.no (.one p)) (.one fun _ => true)

/-- A blank. -/
def blank : Peg Rule :=
  .either (char ' ') (.either (char '\t') (.either (char '\r') (char '\n')))

/-- A comment, up to the end of its line. -/
def comment : Peg Rule := .seq (char ';') (.many (but (· == '\n')))

/-- Blanks and comments. -/
def skip : Peg Rule := .seq (.many blank) (.many (.seq comment (.many blank)))

/-- One after the other, with blanks and comments between. -/
def apart (a b : Peg Rule) : Peg Rule := .seq a (.seq skip b)

/-- As often as it goes, with blanks and comments between. -/
def spaced (a : Peg Rule) : Peg Rule := .either (.seq a (.many (.seq skip a))) .empty

/-- A form. -/
def expr : Peg Rule :=
  .either (.rule .list) (.either (.rule .string) (.either (.rule .number) (.rule .symbol)))

/-- A backslash and any character. -/
def escape : Peg Rule := .seq (char '\\') (.one fun _ => true)

/-- What ends a symbol. -/
def delimiter : Peg Rule :=
  .either (char ' ') (.either (char '\t') (.either (char '\r') (.either (char '\n')
    (.either (char '(') (.either (char ')') (.either (char '"') (char ';')))))))

/-- A character of a symbol. -/
def symbolChar : Peg Rule := .seq (.no delimiter) (.one fun _ => true)

end Peg

/-- What each rule says. -/
def grammar : Rule → Peg Rule
  | .program => .seq .skip (.apart (.spaced .expr) .finish)
  | .list => .apart (.char '(') (.apart (.spaced .expr) (.char ')'))
  | .string => .seq (.char '"') (.seq (.rule .text) (.char '"'))
  | .text => .many (.either .escape (.but fun c => c == '"' || c == '\\'))
  | .number =>
    .seq (.either (.char '-') .empty)
      (.seq (.seq (.one Char.isDigit) (.many (.one Char.isDigit))) (.no .symbolChar))
  | .symbol => .seq .symbolChar (.many .symbolChar)

/-! ## The forms of a parse -/

/-- The text between quotes, its escapes resolved. -/
def unescape : List Char → List Char
  | '\\' :: c :: cs => unescaped c :: unescape cs
  | ['\\'] => []
  | c :: cs => c :: unescape cs
  | [] => []

mutual

/-- The form of a tree. -/
def formOf : Tree Rule → Except ReadError Form
  | .node .list _ ts => return .list (← formsOf ts)
  | .node .string _ (.node _ raw _ :: _) => .ok (.text (String.ofList (unescape raw)))
  | .node .string _ [] => .ok (.text "")
  | .node .number taken _ =>
    match Text.int64? (String.ofList taken) with
    | some n => .ok (.number n)
    | none => .error (.outOfRange (String.ofList taken))
  | .node .symbol taken _ => .ok (.symbol (String.ofList taken))
  -- no form is a program or a text
  | .node .program _ _ | .node .text _ _ => .error .unterminated

/-- The forms of trees, or the first error. -/
def formsOf : List (Tree Rule) → Except ReadError (List Form)
  | [] => .ok []
  | t :: ts => do
    let f ← formOf t
    return f :: (← formsOf ts)

end

end LispEngines.Reader
