import LispEngines.Proofs.Reader.Writing
import LispEngines.Settings.Variables

/-!
# Texts that are taken for other values

A variable has a text, and a guess makes a value of it.  This is a specification of the guess that
does not mention the readers of numbers: `IntegerText` and `IsNumber` say how integers and numbers
are spelled, and `PrintedAs` says in which text a value is printed that was given as a text.

The readers accept exactly the texts that are spelled so (`integer?_eq_some_iff`,
`isSome_double?_iff`), and therefore the printed text of a guess is the one that `PrintedAs` names
(`printedAs_iff`).  A text is left as it is when it spells no other value, or when it spells one
and is already the text in which that value is printed (`printed_eq_self_iff`).
-/

namespace LispEngines.Text

/-! ## The spelling of numbers -/

/-- At least one digit, and nothing else. -/
def IsDigits (cs : List Char) : Prop := cs ≠ [] ∧ cs.all Char.isDigit = true

/-- What may stand before a number. -/
def signs : List (List Char) := [[], ['-'], ['+']]

/-- The number that digits denote. -/
def digitsValue (ds : List Char) : Nat := Nat.ofDigitChars 10 ds 0

/-- The text of an integer: digits, perhaps after a sign. -/
inductive IntegerText : List Char → Int → Prop
  | plain {ds : List Char} (h : IsDigits ds) : IntegerText ds (digitsValue ds)
  | minus {ds : List Char} (h : IsDigits ds) : IntegerText ('-' :: ds) (-digitsValue ds)
  | plus {ds : List Char} (h : IsDigits ds) : IntegerText ('+' :: ds) (digitsValue ds)

/-- An exponent, which may be absent. -/
inductive Exponent : List Char → Prop
  | absent : Exponent []
  | given {c : Char} {sign ds : List Char} (hc : c = 'e' ∨ c = 'E') (hs : sign ∈ signs)
    (hd : IsDigits ds) : Exponent (c :: (sign ++ ds))

/-- A number without a sign.  A point may stand among the digits, before or behind them. -/
inductive Magnitude : List Char → Prop
  | named {cs : List Char}
    (h : String.ofList (cs.map Char.toLower) ∈ ["inf", "infinity", "nan"]) : Magnitude cs
  | whole {ds e : List Char} (hd : IsDigits ds) (he : Exponent e) : Magnitude (ds ++ e)
  | pointed {ds places e : List Char} (hd : IsDigits (ds ++ places)) (he : Exponent e) :
    Magnitude (ds ++ '.' :: (places ++ e))

/-- The text of a number. -/
def IsNumber (cs : List Char) : Prop := ∃ sign ∈ signs, ∃ m, Magnitude m ∧ cs = sign ++ m

variable {cs ds e m : List Char} {c : Char} {i : Int} {n : Nat}

/-! ## Integers -/

theorem ne_sign_of_isDigit (h : c.isDigit = true) : c ≠ '-' ∧ c ≠ '+' := by
  constructor <;> rintro rfl <;> cases h

theorem toLower_of_isDigit (h : c.isDigit = true) : c.toLower = c :=
  dif_neg fun hu => by grind [Char.isDigit]

theorem digits?_eq_some_iff : digits? cs = some n ↔ IsDigits cs ∧ digitsValue cs = n :=
  Reader.digits?_eq_some_iff.trans and_assoc.symm

theorem isSome_digits?_iff : (digits? cs).isSome = true ↔ IsDigits cs := by
  simp only [Option.isSome_iff_exists, digits?_eq_some_iff]
  exact ⟨fun ⟨_, h, _⟩ => h, fun h => ⟨_, h, rfl⟩⟩

theorem IsDigits.exists_cons (h : IsDigits cs) : ∃ c ds, cs = c :: ds ∧ c.isDigit = true := by
  obtain ⟨c, ds, rfl⟩ := List.exists_cons_of_ne_nil h.1
  exact ⟨c, ds, rfl, List.all_eq_true.mp h.2 c List.mem_cons_self⟩

theorem map_digits?_eq_some_iff {f : Nat → Int} :
    (digits? cs).map f = some i ↔ IsDigits cs ∧ f (digitsValue cs) = i := by
  rw [Option.map_eq_some_iff]
  simp only [digits?_eq_some_iff]
  exact ⟨fun ⟨_, ⟨hd, hn⟩, h⟩ => ⟨hd, hn ▸ h⟩, fun ⟨hd, h⟩ => ⟨_, ⟨hd, rfl⟩, h⟩⟩

theorem map_neg_digits? (cs : List Char) : ((digits? cs).map fun n => -(n : Int)) =
    (digits? cs).map fun n : Nat => (-n : Int) := by
  cases digits? cs <;> rfl

/-- The integers are read from exactly the texts that spell them. -/
theorem integer?_eq_some_iff {s : String} : integer? s = some i ↔ IntegerText s.toList i := by
  unfold integer?
  constructor
  · intro h
    split at h
    · rename_i hs
      rw [map_neg_digits?] at h
      obtain ⟨hd, rfl⟩ := map_digits?_eq_some_iff.mp h
      exact hs ▸ .minus hd
    · rename_i hs
      obtain ⟨hd, rfl⟩ := map_digits?_eq_some_iff.mp h
      exact hs ▸ .plus hd
    · obtain ⟨hd, rfl⟩ := map_digits?_eq_some_iff.mp h
      exact .plain hd
  · generalize s.toList = cs
    intro h
    cases h with
    | minus hd =>
      exact (map_neg_digits? _).trans (map_digits?_eq_some_iff.mpr ⟨hd, rfl⟩)
    | plus hd => exact map_digits?_eq_some_iff.mpr ⟨hd, rfl⟩
    | plain hd =>
      obtain ⟨c, ds, rfl, hc⟩ := hd.exists_cons
      obtain ⟨hminus, hplus⟩ := ne_sign_of_isDigit hc
      split
      · rename_i heq
        exact absurd (List.cons.inj heq).1 hminus
      · rename_i heq
        exact absurd (List.cons.inj heq).1 hplus
      · exact map_digits?_eq_some_iff.mpr ⟨hd, rfl⟩

/-- A bounded integer is read from the texts that spell it. -/
theorem int64?_eq_some_iff {s : String} {k : Int64} :
    int64? s = some k ↔ IntegerText s.toList k.toInt := by
  rw [← integer?_eq_some_iff, int64?, Option.bind_eq_some_iff]
  constructor
  · rintro ⟨i, hi, h⟩
    unfold signed64? at h
    split at h
    · rename_i hb
      cases h
      rwa [Int64.toInt_ofInt_of_le hb.1 hb.2]
    · cases h
  · exact fun h => ⟨_, h, Reader.signed64?_toInt k⟩

/-- The text of an integer is the text of a number. -/
theorem IntegerText.isNumber (h : IntegerText cs i) : IsNumber cs := by
  have whole {ds : List Char} (hd : IsDigits ds) : Magnitude ds := by
    have h := Magnitude.whole hd .absent
    rwa [List.append_nil] at h
  cases h with
  | plain hd => exact ⟨[], by decide, _, whole hd, rfl⟩
  | minus hd => exact ⟨['-'], by decide, _, whole hd, rfl⟩
  | plus hd => exact ⟨['+'], by decide, _, whole hd, rfl⟩

/-! ## Numbers with a fraction -/

/-- What follows the sign, if there is one. -/
def afterSign : List Char → List Char
  | '-' :: cs => cs
  | '+' :: cs => cs
  | cs => cs

theorem exists_sign (cs : List Char) : ∃ sign ∈ signs, cs = sign ++ afterSign cs := by
  unfold afterSign
  split
  · exact ⟨['-'], by decide, rfl⟩
  · exact ⟨['+'], by decide, rfl⟩
  · exact ⟨[], by decide, rfl⟩

theorem afterSign_append {sign : List Char} (hs : sign ∈ signs)
    (hm : ∀ c ∈ m.head?, c ≠ '-' ∧ c ≠ '+') : afterSign (sign ++ m) = m := by
  simp only [signs, List.mem_cons, List.not_mem_nil, or_false] at hs
  obtain rfl | rfl | rfl := hs
  · unfold afterSign
    split
    · rename_i heq
      exact absurd rfl (hm '-' (by rw [show m = _ from heq]; rfl)).1
    · rename_i heq
      exact absurd rfl (hm '+' (by rw [show m = _ from heq]; rfl)).2
    · rfl
  · rfl
  · rfl

theorem IsDigits.head (h : IsDigits cs) : ∀ c ∈ cs.head?, c ≠ '-' ∧ c ≠ '+' := by
  obtain ⟨c, ds, rfl, hc⟩ := h.exists_cons
  rintro _ ⟨⟩
  exact ne_sign_of_isDigit hc

theorem isSome_exponent?_cons : (exponent? (c :: cs)).isSome = true ↔
    (c = 'e' ∨ c = 'E') ∧ IsDigits (afterSign cs) := by
  by_cases hc : c = 'e' ∨ c = 'E'
  · rw [exponent?.eq_def]
    dsimp only
    rw [if_pos hc, and_iff_right hc, ← isSome_digits?_iff]
    split
    · rw [map_neg_digits?, Option.isSome_map]
      rfl
    · rw [Option.isSome_map]
      rfl
    · rename_i hminus hplus
      rw [Option.isSome_map, afterSign.eq_3 cs hminus hplus]
  · simp [exponent?, hc]

/-- The exponents are accepted that are spelled as such. -/
theorem isSome_exponent?_iff : (exponent? cs).isSome = true ↔ Exponent cs := by
  constructor
  · intro h
    match cs, h with
    | [], _ => exact .absent
    | c :: rest, h =>
      obtain ⟨hc, hd⟩ := isSome_exponent?_cons.mp h
      obtain ⟨sign, hs, hrest⟩ := exists_sign rest
      rw [hrest]
      exact .given hc hs hd
  · rintro (_ | ⟨hc, hs, hd⟩)
    · rfl
    · exact isSome_exponent?_cons.mpr ⟨hc, (afterSign_append hs hd.head).symm ▸ hd⟩

theorem Exponent.head (h : Exponent cs) : ∀ c ∈ cs.head?, c = 'e' ∨ c = 'E' := by
  cases h with
  | absent => exact fun _ => nofun
  | given hc =>
    rintro _ ⟨⟩
    exact hc

/-- A run of digits ends before a character that is none. -/
theorem span_digits (hd : cs.all Char.isDigit = true) (hm : ∀ c ∈ m.head?, c.isDigit = false) :
    (cs ++ m).takeWhile Char.isDigit = cs ∧ (cs ++ m).dropWhile Char.isDigit = m := by
  have hd := List.all_eq_true.mp hd
  rw [List.takeWhile_append_of_pos hd, List.dropWhile_append_of_pos hd]
  cases m with
  | nil => simp
  | cons c m => simp [hm c rfl]

theorem Exponent.not_digit (h : Exponent e) : ∀ c ∈ e.head?, c.isDigit = false := by
  intro c hc
  obtain rfl | rfl := h.head c hc <;> rfl

/-- A number is put together when there is a digit and what follows the digits is an exponent. -/
theorem isSome_nearest_iff {whole places : List Char} :
    (do
      let exponent ← exponent? e
      let coefficient ← digits? (whole ++ places)
      return nearestDouble coefficient (exponent - places.length)).isSome = true ↔
      Exponent e ∧ IsDigits (whole ++ places) := by
  rw [← isSome_exponent?_iff, ← isSome_digits?_iff]
  cases exponent? e <;> cases digits? (whole ++ places) <;> simp

/-- Without a sign those numbers are accepted that are spelled with digits. -/
theorem isSome_unsignedDouble?_iff : (unsignedDouble? cs).isSome = true ↔
    (∃ ds e, IsDigits ds ∧ Exponent e ∧ cs = ds ++ e) ∨
      ∃ ds places e, IsDigits (ds ++ places) ∧ Exponent e ∧ cs = ds ++ '.' :: (places ++ e) := by
  unfold unsignedDouble?
  dsimp only
  constructor
  · intro h
    have hcs := List.takeWhile_append_dropWhile (p := Char.isDigit) (l := cs)
    split at h
    · rename_i ds hrest
      obtain ⟨he, hd⟩ := isSome_nearest_iff.mp h
      refine .inr ⟨_, _, _, hd, he, ?_⟩
      rw [List.takeWhile_append_dropWhile, ← hrest, hcs]
    · obtain ⟨he, hd⟩ := isSome_nearest_iff.mp h
      rw [List.append_nil] at hd
      exact .inl ⟨_, _, hd, he, hcs.symm⟩
  · rintro (⟨ds, e, hd, he, rfl⟩ | ⟨ds, places, e, hd, he, rfl⟩)
    · obtain ⟨ht, hr⟩ := span_digits hd.2 he.not_digit
      rw [ht, hr]
      split
      · -- an exponent does not begin with a point
        obtain h | h := he.head '.' rfl <;> cases h
      · exact isSome_nearest_iff.mpr ⟨he, (List.append_nil ds).symm ▸ hd⟩
    · have hall : ds.all Char.isDigit = true ∧ places.all Char.isDigit = true := by
        rw [← Bool.and_eq_true, ← List.all_append]
        exact hd.2
      have hpoint : ∀ c ∈ ('.' :: (places ++ e)).head?, c.isDigit = false := by
        rintro _ ⟨⟩
        rfl
      obtain ⟨ht, hr⟩ := span_digits hall.1 hpoint
      obtain ⟨ht', hr'⟩ := span_digits hall.2 he.not_digit
      rw [ht, hr]
      refine isSome_nearest_iff.mpr ?_
      show Exponent ((places ++ e).dropWhile Char.isDigit) ∧
        IsDigits (ds ++ (places ++ e).takeWhile Char.isDigit)
      rw [ht', hr']
      exact ⟨he, hd⟩

/-- Read a number without a sign. -/
def magnitude? (cs : List Char) : Option Float :=
  let name := String.ofList (cs.map Char.toLower)
  if name = "inf" ∨ name = "infinity" then some (1.0 / 0.0)
  else if name = "nan" then some (0.0 / 0.0)
  else unsignedDouble? cs

theorem double?_eq (s : String) :
    ∃ negative : Bool, double? s =
      (magnitude? (afterSign s.toList)).map fun x => if negative then -x else x := by
  unfold double?
  dsimp only
  split
  · rename_i hs
    rw [hs]
    exact ⟨true, rfl⟩
  · rename_i hs
    rw [hs]
    exact ⟨false, rfl⟩
  · rename_i hminus hplus
    rw [afterSign.eq_3 _ hminus hplus]
    exact ⟨false, rfl⟩

theorem isSome_magnitude?_iff : (magnitude? cs).isSome = true ↔ Magnitude cs := by
  have hnames : Magnitude cs ↔
      String.ofList (cs.map Char.toLower) ∈ ["inf", "infinity", "nan"] ∨
        (unsignedDouble? cs).isSome = true := by
    rw [isSome_unsignedDouble?_iff]
    constructor
    · rintro (h | ⟨hd, he⟩ | ⟨hd, he⟩)
      · exact .inl h
      · exact .inr (.inl ⟨_, _, hd, he, rfl⟩)
      · exact .inr (.inr ⟨_, _, _, hd, he, rfl⟩)
    · rintro (h | ⟨ds, e, hd, he, rfl⟩ | ⟨ds, places, e, hd, he, rfl⟩)
      · exact .named h
      · exact .whole hd he
      · exact .pointed hd he
  rw [hnames, magnitude?]
  simp only [List.mem_cons, List.not_mem_nil, or_false]
  split
  · rename_i h
    obtain h | h := h <;> simp [h]
  · split <;> simp [*]

/-- Numbers begin with a digit, with a point or with a letter of a name. -/
theorem Magnitude.head (h : Magnitude cs) :
    ∀ c ∈ cs.head?, c.isDigit = true ∨ c = '.' ∨ c.toLower = 'i' ∨ c.toLower = 'n' := by
  cases h with
  | named h =>
    intro c hc
    have hhead : (cs.map Char.toLower).head? = some c.toLower := by
      rw [List.head?_map, Option.mem_def.mp hc, Option.map_some]
    simp only [List.mem_cons, List.not_mem_nil, or_false] at h
    obtain h | h | h := h <;> rw [← String.toList_ofList (l := cs.map Char.toLower), h] at hhead
    · exact .inr (.inr (.inl (Option.some.inj hhead).symm))
    · exact .inr (.inr (.inl (Option.some.inj hhead).symm))
    · exact .inr (.inr (.inr (Option.some.inj hhead).symm))
  | whole hd =>
    obtain ⟨c, ds, rfl, hc⟩ := hd.exists_cons
    rintro _ ⟨⟩
    exact .inl hc
  | @pointed ds places e hd he =>
    cases ds with
    | nil =>
      rintro _ ⟨⟩
      exact .inr (.inl rfl)
    | cons c ds =>
      rintro _ ⟨⟩
      exact .inl (List.all_eq_true.mp hd.2 c List.mem_cons_self)

theorem Magnitude.unsigned (h : Magnitude cs) : ∀ c ∈ cs.head?, c ≠ '-' ∧ c ≠ '+' := by
  intro c hc
  constructor <;> rintro rfl <;> obtain h | h | h | h := h.head _ hc <;> revert h <;> decide

/-- The numbers are read from exactly the texts that spell them. -/
theorem isSome_double?_iff {s : String} : (double? s).isSome = true ↔ IsNumber s.toList := by
  obtain ⟨negative, heq⟩ := double?_eq s
  rw [heq, Option.isSome_map, isSome_magnitude?_iff]
  constructor
  · intro h
    obtain ⟨sign, hs, hcs⟩ := exists_sign s.toList
    exact ⟨sign, hs, _, h, hcs⟩
  · rintro ⟨sign, hs, m, hm, hcs⟩
    rwa [hcs, afterSign_append hs hm.unsigned]

end LispEngines.Text

namespace LispEngines.Settings

open Setting (lowerText)

variable {v w : String} {b : Bool}

/-! ## What a text is taken for -/

/-- The text of a 64-bit integer. -/
def IsInt64 (v : String) : Prop := ∃ n : Int64, Text.IntegerText v.toList n.toInt

/-- The text that is left of a text: it may spell a truth value in any case, a 64-bit integer or a
number, and otherwise it stands for itself. -/
inductive PrintedAs (v : String) : String → Prop
  | switch (b : Bool) (h : lowerText v = toString b) : PrintedAs v (toString b)
  | integer (n : Int64) (h : Text.IntegerText v.toList n.toInt) : PrintedAs v (toString n.toInt)
  | real (x : Float) (hx : Text.double? v = some x) (hn : ¬IsInt64 v) :
    PrintedAs v (Text.doubleText x)
  | plain (hs : ∀ b : Bool, lowerText v ≠ toString b) (hn : ¬Text.IsNumber v.toList) :
    PrintedAs v v

/-- The text of what a text is taken for. -/
def printed (v : String) : String :=
  match guess v with
  | .nothing => ""
  | .boolean b => toString b
  | .integer n => toString n.toInt
  | .real x => Text.doubleText x
  | .text s => s

/-- The words for on and off spell no number. -/
theorem not_isNumber_of_switch (h : lowerText v = toString b) : ¬Text.IsNumber v.toList := by
  rintro ⟨sign, hs, m, hm, hv⟩
  have hlist : (sign ++ m).map Char.toLower = (toString b).toList := by
    rw [← hv, ← h, lowerText, String.toList_ofList]
  have hfirst : ∀ c ∈ (sign ++ m).head?, c.toLower = 't' ∨ c.toLower = 'f' := by
    intro c hc
    have := congrArg List.head? hlist
    rw [List.head?_map, Option.mem_def.mp hc] at this
    cases b
    · exact .inr (Option.some.inj this)
    · exact .inl (Option.some.inj this)
  simp only [Text.signs, List.mem_cons, List.not_mem_nil, or_false] at hs
  obtain rfl | rfl | rfl := hs
  · obtain ⟨c, m, rfl⟩ : ∃ c ds, m = c :: ds := by
      cases m with
      | nil => cases b <;> cases hlist
      | cons c ds => exact ⟨c, ds, rfl⟩
    have hc := hfirst c rfl
    obtain h | rfl | h | h := hm.head c rfl
    · rw [Text.toLower_of_isDigit h] at hc
      obtain rfl | rfl := hc <;> cases h
    · revert hc
      decide
    · rw [h] at hc
      revert hc
      decide
    · rw [h] at hc
      revert hc
      decide
  · exact absurd (hfirst '-' rfl) (by decide)
  · exact absurd (hfirst '+' rfl) (by decide)

theorem guess_of_switch (h : lowerText v = toString b) : guess v = .boolean b := by
  unfold guess
  rw [h]
  cases b <;> rfl

theorem guess_of_not_switch (hs : ∀ b : Bool, lowerText v ≠ toString b) :
    guess v = match Text.int64? v with
      | some n => .integer n
      | none =>
        match Text.double? v with
        | some x => .real x
        | none => .text v := by
  unfold guess
  exact (if_neg (show lowerText v ≠ "true" from hs true)).trans
    (if_neg (show lowerText v ≠ "false" from hs false))

theorem int64?_eq_none_iff : Text.int64? v = none ↔ ¬IsInt64 v := by
  rw [Option.eq_none_iff_forall_ne_some]
  exact ⟨fun h ⟨n, hn⟩ => h n (Text.int64?_eq_some_iff.mpr hn),
    fun h n hn => h ⟨n, Text.int64?_eq_some_iff.mp hn⟩⟩

theorem double?_eq_none_iff : Text.double? v = none ↔ ¬Text.IsNumber v.toList := by
  rw [← Text.isSome_double?_iff, Bool.not_eq_true, Option.isSome_eq_false_iff,
    Option.isNone_iff_eq_none]

/-- The guess prints the text that the spelling says. -/
theorem printed_eq_of_printedAs (h : PrintedAs v w) : printed v = w := by
  have not_switch (hn : Text.IsNumber v.toList) : ∀ b : Bool, lowerText v ≠ toString b :=
    fun b hb => not_isNumber_of_switch hb hn
  unfold printed
  cases h with
  | switch b h => rw [guess_of_switch h]
  | integer n h =>
    rw [guess_of_not_switch (not_switch h.isNumber), Text.int64?_eq_some_iff.mpr h]
  | real x hx hn =>
    have hnumber : Text.IsNumber v.toList :=
      Text.isSome_double?_iff.mp (Option.isSome_iff_exists.mpr ⟨x, hx⟩)
    rw [guess_of_not_switch (not_switch hnumber), int64?_eq_none_iff.mpr hn, hx]
  | plain hs hn =>
    have hi : ¬IsInt64 v := fun ⟨_, h⟩ => hn h.isNumber
    rw [guess_of_not_switch hs, int64?_eq_none_iff.mpr hi, double?_eq_none_iff.mpr hn]

theorem printedAs_printed (v : String) : PrintedAs v (printed v) := by
  unfold printed
  by_cases hs : ∃ b : Bool, lowerText v = toString b
  · obtain ⟨b, hb⟩ := hs
    rw [guess_of_switch hb]
    exact .switch b hb
  rw [not_exists] at hs
  rw [guess_of_not_switch hs]
  cases hi : Text.int64? v with
  | some n => exact .integer n (Text.int64?_eq_some_iff.mp hi)
  | none =>
    cases hd : Text.double? v with
    | some x => exact .real x hd (int64?_eq_none_iff.mp hi)
    | none => exact .plain hs (double?_eq_none_iff.mp hd)

/-- The printed text of a guess is the one that the spelling says, and no other. -/
theorem printedAs_iff : PrintedAs v w ↔ w = printed v :=
  ⟨fun h => (printed_eq_of_printedAs h).symm, fun h => h ▸ printedAs_printed v⟩

/-! ## Texts that are left alone -/

/-- The texts that spell no other value, and those in which the value that they spell is
printed. -/
inductive Kept : String → Prop
  | switch (b : Bool) : Kept (toString b)
  | integer (n : Int64) : Kept (toString n.toInt)
  | real {v : String} {x : Float} (hx : Text.double? v = some x) (hn : ¬IsInt64 v)
    (hv : Text.doubleText x = v) : Kept v
  | plain {v : String} (hs : ∀ b : Bool, lowerText v ≠ toString b)
    (hn : ¬Text.IsNumber v.toList) : Kept v

theorem PrintedAs.kept (h : PrintedAs v w) (hw : w = v) : Kept v := by
  cases h with
  | switch b => exact hw ▸ .switch b
  | integer n => exact hw ▸ .integer n
  | real x hx hn => exact .real hx hn hw
  | plain hs hn => exact .plain hs hn

/-- A text is left as it is in these cases only. -/
theorem printed_eq_self_iff : printed v = v ↔ Kept v := by
  constructor
  · exact (printedAs_printed v).kept
  · rintro (b | n | ⟨hx, hn, hv⟩ | ⟨hs, hn⟩)
    · exact printed_eq_of_printedAs (.switch b (by cases b <;> rfl))
    · exact printed_eq_of_printedAs
        (.integer n (Text.integer?_eq_some_iff.mp (Reader.isDecimal_toString _).integer?))
    · rw [printed_eq_of_printedAs (.real _ hx hn), hv]
    · exact printed_eq_of_printedAs (.plain hs hn)

/-! ## No value is printed as nothing -/

theorem positional_ne_empty (d : Text.ScaledDecimal) : d.positional ≠ "" := by
  refine fun h => absurd (String.toList_eq_nil_iff.mpr h) ?_
  unfold Text.ScaledDecimal.positional
  dsimp only
  split <;> rw [String.toList_ofList]
  · refine List.append_ne_nil_of_left_ne_nil ?_ _
    rw [show (toString d.coefficient).toList = _ from Nat.toList_repr]
    exact Nat.toDigits_ne_nil
  · exact List.append_ne_nil_of_right_ne_nil _ (List.cons_ne_nil _ _)

theorem doubleText_ne_empty (x : Float) : Text.doubleText x ≠ "" := by
  have hsize : (if x.isInf then "inf" else (Text.shortest x).positional) ≠ "" := by
    split
    · decide
    · exact positional_ne_empty _
  unfold Text.doubleText
  dsimp only
  split
  · decide
  · split
    · exact fun h => hsize (String.append_eq_empty_iff.mp h).2
    · exact hsize

theorem PrintedAs.ne_empty (h : PrintedAs v w) (hv : v ≠ "") : w ≠ "" := by
  cases h with
  | switch b => cases b <;> decide
  | integer n =>
    exact fun h => (Reader.isDecimal_toString n.toInt).ne_nil (String.toList_eq_nil_iff.mpr h)
  | real x => exact doubleText_ne_empty x
  | plain => exact hv

theorem guess_ne_nothing (v : String) : guess v ≠ .nothing := by
  unfold guess
  dsimp only
  split
  · exact nofun
  split
  · exact nofun
  split
  · exact nofun
  split <;> exact nofun

/-- A text that was guessed at is read back as its printed text. -/
theorem toText_guess (source : Option String) (v : String) :
    (Setting.scalar source (guess v)).toText = .ok (printed v) := by
  unfold printed
  cases hg : guess v with
  | nothing => exact absurd hg (guess_ne_nothing v)
  | _ => rfl

theorem toText?_guess (source : Option String) (v : String) :
    (Setting.scalar source (guess v)).toText? = .ok (some (printed v)) := by
  have h := toText_guess source v
  unfold Setting.toText?
  split
  · rename_i hg
    exact absurd (Setting.scalar.inj hg).2 (guess_ne_nothing v)
  · rw [h]
    rfl

end LispEngines.Settings
