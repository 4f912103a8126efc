import Mathlib.Data.Nat.Digits.Defs
import Mathlib.Tactic.Ring
import SchemaBridge.EnumGroup
import SchemaBridge.Proofs.PartByPart

/-!
# Integer literals of constants

An integer literal is at most one sign, `0x` or `0X` if the number is hexadecimal, and digits
(`Text.Literal`). The reader takes all of them, and besides a sign just before the digits where
another sign or the mark of a hexadecimal number precedes it (`Text.SignInside`), and nothing else
(`Text.integerLiteral?_eq_some_iff`). So a constant becomes a value of an enum exactly if it is of an
integer type and such a literal of a 32-bit number (`ofConstants_exact`).
-/

namespace SchemaBridge

namespace Text

/-! ## Digits -/

/-- The digits in the order of their values; a decimal digit is one of the first ten. -/
def digitChars : List Char := "0123456789abcdef".toList

/-- The character is the digit of the value in the base, in either case. -/
def IsDigit (base : Nat) (c : Char) (value : Nat) : Prop :=
  digitChars.idxOf? c.toLower = some value ∧ value < base

/-- The digits spell the number in the base, the most significant one first. -/
def Spells (base : Nat) (digits : List Char) (n : Nat) : Prop :=
  digits ≠ [] ∧ ∃ values, List.Forall₂ (IsDigit base) digits values ∧
    n = Nat.ofDigits base values.reverse

variable {base n : Nat} {number : Int} {c : Char} {cs digits rest mark : List Char}

theorem digitValue?_ascii : ∀ n < 128,
    digitValue? (Char.ofNat n) = digitChars.idxOf? (Char.ofNat n).toLower := by
  decide +kernel

/-- The value of a digit is its position among the digits. -/
theorem digitValue?_eq (c : Char) : digitValue? c = digitChars.idxOf? c.toLower := by
  by_cases hascii : c.toNat < 128
  · simpa using digitValue?_ascii c.toNat hascii
  -- beyond ASCII there are no digits, and no capitals that would become letters of ASCII
  have hle : ∀ d : Char, d.toNat < 128 → ¬ c ≤ d := by
    intro d hd h
    rw [Char.le_def, UInt32.le_iff_toNat_le] at h
    have : c.toNat ≤ d.toNat := h
    omega
  have hdigit : c.isDigit = false := by
    rw [Char.isDigit, Bool.and_eq_false_iff]
    exact .inr (decide_eq_false (hle '9' (by decide)))
  have hlower : c.toLower = c := dif_neg fun h => hle 'Z' (by decide) h.2
  have hmem : c ∉ digitChars := by
    intro hmem
    have hsmall : digitChars.all (·.toNat < 128) = true := by decide
    exact hascii (of_decide_eq_true (List.all_eq_true.1 hsmall c hmem))
  rw [hlower, List.idxOf?_eq_none_iff.2 hmem]
  simp [digitValue?, hdigit, hle]

theorem digitIn?_eq_some_iff {value : Nat} : digitIn? base c = some value ↔ IsDigit base c value := by
  rw [digitIn?, digitValue?_eq, Option.filter_eq_some_iff, decide_eq_true_eq, IsDigit]

/-- Reading digits after a number appends them to it. -/
theorem digitsFrom?_eq_some_iff {start : Nat} :
    digitsFrom? base start digits = some n ↔
      ∃ values, List.Forall₂ (IsDigit base) digits values ∧
        n = start * base ^ values.length + Nat.ofDigits base values.reverse := by
  induction digits generalizing start with
  | nil => simp [digitsFrom?, eq_comm]
  | cons c digits ih =>
    simp only [digitsFrom?, Option.bind_eq_some_iff, digitIn?_eq_some_iff, ih]
    constructor
    · rintro ⟨value, hvalue, values, hvalues, rfl⟩
      refine ⟨value :: values, .cons hvalue hvalues, ?_⟩
      simp only [List.length_cons, List.reverse_cons, Nat.ofDigits_append, Nat.ofDigits_singleton,
        List.length_reverse]
      ring
    · rintro ⟨values, hvalues, rfl⟩
      cases hvalues with
      | @cons _ value _ values hvalue hvalues =>
        refine ⟨value, hvalue, values, hvalues, ?_⟩
        simp only [List.length_cons, List.reverse_cons, Nat.ofDigits_append, Nat.ofDigits_singleton,
          List.length_reverse]
        ring

theorem digits?_eq_some_iff : digits? base digits = some n ↔ Spells base digits n := by
  cases digits with
  | nil => simp [digits?, Spells]
  | cons c digits => simp [digits?, Spells, digitsFrom?_eq_some_iff]

/-! ## Signs and marks -/

inductive Sign where
  | none
  | plus
  | minus
deriving DecidableEq

namespace Sign

def text : Sign → List Char
  | none => []
  | plus => ['+']
  | minus => ['-']

/-- A number with the sign in front of it. -/
def of (sign : Sign) (n : Int) : Int :=
  match sign with
  | minus => -n
  | _ => n

end Sign

/-- What stands in front of the digits in a base. -/
inductive Mark : Nat → List Char → Prop
  | decimal : Mark 10 []
  | lower : Mark 16 ['0', 'x']
  | upper : Mark 16 ['0', 'X']

/-- What is no digit in any base is not among the digits of a number. -/
theorem Spells.ne_of_idxOf?_eq_none (h : Spells base digits n) (hc : c ∈ digits) {d : Char}
    (hd : digitChars.idxOf? d.toLower = none) : c ≠ d := by
  rintro rfl
  obtain ⟨-, values, hvalues, -⟩ := h
  obtain ⟨value, -, hvalue, -⟩ := exists_of_mem_left hvalues c hc
  rw [hd] at hvalue
  cases hvalue

theorem Spells.ne_sign (h : Spells base digits n) (hc : c ∈ digits) : c ≠ '-' ∧ c ≠ '+' :=
  ⟨h.ne_of_idxOf?_eq_none hc (by decide), h.ne_of_idxOf?_eq_none hc (by decide)⟩

theorem Spells.ne_mark (h : Spells base digits n) (hc : c ∈ digits) : c ≠ 'x' ∧ c ≠ 'X' :=
  ⟨h.ne_of_idxOf?_eq_none hc (by decide), h.ne_of_idxOf?_eq_none hc (by decide)⟩

/-! ## Readers -/

theorem signed?_minus (base : Nat) (cs : List Char) :
    signed? base ('-' :: cs) = (digits? base cs).map fun n : Nat => -(n : Int) := by
  rw [signed?]
  cases digits? base cs <;> rfl

theorem signed?_eq_some_iff :
    signed? base cs = some number ↔
      ∃ sign : Sign, ∃ digits n, Spells base digits n ∧ cs = sign.text ++ digits ∧
        number = sign.of n := by
  constructor
  · intro h
    unfold signed? at h
    split at h
    · change signed? base ('-' :: _) = _ at h
      rw [signed?_minus] at h
      obtain ⟨n, hn, rfl⟩ := Option.map_eq_some_iff.1 h
      exact ⟨.minus, _, n, digits?_eq_some_iff.1 hn, rfl, rfl⟩
    · obtain ⟨n, hn, rfl⟩ := Option.map_eq_some_iff.1 h
      exact ⟨.plus, _, n, digits?_eq_some_iff.1 hn, rfl, rfl⟩
    · obtain ⟨n, hn, rfl⟩ := Option.map_eq_some_iff.1 h
      exact ⟨.none, _, n, digits?_eq_some_iff.1 hn, rfl, rfl⟩
  · rintro ⟨sign, digits, n, hdigits, rfl, rfl⟩
    cases sign with
    | minus => simp [signed?_minus, Sign.text, Sign.of, digits?_eq_some_iff.2 hdigits]
    | plus => simp [signed?, Sign.text, Sign.of, digits?_eq_some_iff.2 hdigits]
    | none =>
      rw [Sign.text, List.nil_append, signed?]
      · simp [digits?_eq_some_iff.2 hdigits, Sign.of]
      · rintro rest rfl
        exact (hdigits.ne_sign (List.mem_cons_self ..)).1 rfl
      · rintro rest rfl
        exact (hdigits.ne_sign (List.mem_cons_self ..)).2 rfl

theorem based?_append (hmark : Mark base mark) (h : signed? base rest = some number) :
    based? (mark ++ rest) = some number := by
  cases hmark with
  | lower => exact h
  | upper => exact h
  | decimal =>
    obtain ⟨sign, digits, n, hdigits, htext, -⟩ := signed?_eq_some_iff.1 h
    -- after a zero there is a digit, and not the mark of another base
    have hsecond : ∀ c rest', rest = '0' :: c :: rest' → c ≠ 'x' ∧ c ≠ 'X' := by
      rintro c rest' rfl
      cases sign with
      | minus => cases htext
      | plus => cases htext
      | none =>
        obtain rfl := htext
        exact hdigits.ne_mark (List.mem_cons_of_mem _ (List.mem_cons_self ..))
    rw [List.nil_append, based?]
    · exact h
    · exact fun rest' heq => (hsecond _ _ heq).1 rfl
    · exact fun rest' heq => (hsecond _ _ heq).2 rfl

theorem based?_eq_some_iff :
    based? cs = some number ↔
      ∃ base mark rest, Mark base mark ∧ signed? base rest = some number ∧ cs = mark ++ rest := by
  constructor
  · intro h
    unfold based? at h
    split at h
    · exact ⟨16, _, _, .lower, h, rfl⟩
    · exact ⟨16, _, _, .upper, h, rfl⟩
    · exact ⟨10, _, _, .decimal, h, rfl⟩
  · rintro ⟨base, mark, rest, hmark, h, rfl⟩
    exact based?_append hmark h

/-- What the reader of literals takes: a sign may stand at the start, and another one just before the
digits. -/
theorem integerLiteral?_eq_some_iff_signs :
    integerLiteral? cs = some number ↔
      ∃ outer inner : Sign, ∃ base mark digits n, Mark base mark ∧ Spells base digits n ∧
        trim cs = outer.text ++ (mark ++ (inner.text ++ digits)) ∧ number = outer.of (inner.of n) := by
  constructor
  · intro h
    have hread : ∃ outer : Sign, ∃ rest m, based? rest = some m ∧ trim cs = outer.text ++ rest ∧
        number = outer.of m := by
      unfold integerLiteral? at h
      split at h
      · next rest htrim =>
        obtain ⟨m, hm, rfl⟩ := Option.map_eq_some_iff.1 h
        exact ⟨.minus, rest, m, hm, htrim, rfl⟩
      · next rest htrim => exact ⟨.plus, rest, number, h, htrim, rfl⟩
      · exact ⟨.none, trim cs, number, h, rfl, rfl⟩
    obtain ⟨outer, rest, m, hm, htrim, rfl⟩ := hread
    obtain ⟨base, mark, rest, hmark, hsigned, rfl⟩ := based?_eq_some_iff.1 hm
    obtain ⟨inner, digits, n, hdigits, rfl, rfl⟩ := signed?_eq_some_iff.1 hsigned
    exact ⟨outer, inner, base, mark, digits, n, hmark, hdigits, htrim, rfl⟩
  · rintro ⟨outer, inner, base, mark, digits, n, hmark, hdigits, htrim, rfl⟩
    have hread : ∀ sign : Sign, based? (mark ++ (sign.text ++ digits)) = some (sign.of n) :=
      fun sign => based?_append hmark (signed?_eq_some_iff.2 ⟨sign, digits, n, hdigits, rfl, rfl⟩)
    have hnegate : ∀ {rest : List Char} {m : Int}, based? rest = some m →
        (based? rest).map (fun m => -m) = some (-m) := fun h => by rw [h, Option.map_some]
    rw [integerLiteral?, htrim]
    cases outer with
    | minus => exact hnegate (hread inner)
    | plus => exact hread inner
    | none =>
      cases hmark with
      | lower => exact hread inner
      | upper => exact hread inner
      | decimal =>
        cases inner with
        -- the sign before the digits is the one that the reader takes first
        | minus => exact hnegate (hread .none)
        | plus => exact hread .none
        | none =>
          obtain ⟨c, rest, rfl⟩ := List.exists_cons_of_ne_nil hdigits.1
          obtain ⟨hminus, hplus⟩ := hdigits.ne_sign (List.mem_cons_self ..)
          simp only [Sign.text, List.nil_append]
          split
          · next heq => exact absurd (List.cons.inj heq).1 hminus
          · next heq => exact absurd (List.cons.inj heq).1 hplus
          · exact hread .none

/-! ## Literals -/

/-- The text is an integer literal of the number: at most one sign, and then decimal digits, or
hexadecimal ones after their mark. -/
def Literal (text : List Char) (number : Int) : Prop :=
  ∃ sign : Sign, ∃ base mark digits n, Mark base mark ∧ Spells base digits n ∧
    text = sign.text ++ (mark ++ digits) ∧ number = sign.of n

/-- The text is no literal, for a sign stands between its digits and what is in front of them; it is
read as the number all the same. -/
def SignInside (text : List Char) (number : Int) : Prop :=
  ∃ outer inner : Sign, ∃ base mark digits n, Mark base mark ∧ Spells base digits n ∧
    text = outer.text ++ (mark ++ (inner.text ++ digits)) ∧ number = outer.of (inner.of n) ∧
    outer.text ++ mark ≠ [] ∧ inner ≠ .none

/-- Literals are read, texts with a sign inside are, and no others. -/
theorem integerLiteral?_eq_some_iff :
    integerLiteral? cs = some number ↔ Literal (trim cs) number ∨ SignInside (trim cs) number := by
  rw [integerLiteral?_eq_some_iff_signs]
  constructor
  · rintro ⟨outer, inner, base, mark, digits, n, hmark, hdigits, htext, hnumber⟩
    by_cases hinner : inner = .none
    · subst hinner
      exact .inl ⟨outer, base, mark, digits, n, hmark, hdigits, htext, hnumber⟩
    · by_cases hfront : outer.text ++ mark = []
      · obtain ⟨houter, rfl⟩ := List.append_eq_nil_iff.1 hfront
        cases outer with
        | none => exact .inl ⟨inner, base, [], digits, n, hmark, hdigits, htext, hnumber⟩
        | plus => cases houter
        | minus => cases houter
      · exact .inr ⟨outer, inner, base, mark, digits, n, hmark, hdigits, htext, hnumber, hfront, hinner⟩
  · rintro (⟨sign, base, mark, digits, n, hmark, hdigits, htext, hnumber⟩ |
      ⟨outer, inner, base, mark, digits, n, hmark, hdigits, htext, hnumber, -, -⟩)
    · exact ⟨sign, .none, base, mark, digits, n, hmark, hdigits, htext, hnumber⟩
    · exact ⟨outer, inner, base, mark, digits, n, hmark, hdigits, htext, hnumber⟩

/-- A literal has no sign after its first character. -/
theorem sign_not_mem_tail_of_literal {text : List Char} (h : Literal text number) :
    '-' ∉ text.tail ∧ '+' ∉ text.tail := by
  obtain ⟨sign, base, mark, digits, n, hmark, hdigits, rfl, -⟩ := h
  have hrest : ∀ c ∈ mark ++ digits, c ≠ '-' ∧ c ≠ '+' := by
    refine List.forall_mem_append.2 ⟨?_, fun c => hdigits.ne_sign⟩
    cases hmark <;> simp
  have htail : ∀ c ∈ (sign.text ++ (mark ++ digits)).tail, c ≠ '-' ∧ c ≠ '+' := by
    cases sign with
    | none => exact fun c hc => hrest c (List.mem_of_mem_tail hc)
    | minus => exact hrest
    | plus => exact hrest
  exact ⟨fun h => (htail _ h).1 rfl, fun h => (htail _ h).2 rfl⟩

/-- A text with a sign inside has a sign after its first character. -/
theorem sign_mem_tail_of_signInside {text : List Char} (h : SignInside text number) :
    '-' ∈ text.tail ∨ '+' ∈ text.tail := by
  obtain ⟨outer, inner, base, mark, digits, n, -, -, rfl, -, hfront, hinner⟩ := h
  obtain ⟨c, front, hfront⟩ := List.exists_cons_of_ne_nil hfront
  rw [← List.append_assoc, hfront, List.cons_append, List.tail_cons]
  cases inner with
  | none => exact absurd rfl hinner
  | minus => exact .inl (by simp [Sign.text])
  | plus => exact .inr (by simp [Sign.text])

end Text

/-! ## Constants -/

/-- The constant becomes the value: it is of an integer type, and its literal, of the given kind, is
that of the value's number, without the blanks around it. -/
structure Constant.Becomes (literal : List Char → Int → Prop) (c : Constant) (v : EnumValue) :
    Prop where
  type : c.type.isInteger = true
  number : literal (Text.trim c.value.toList) v.number.toInt
  name : v.name = c.name
  comments : v.comments = c.comments

/-- The values are what the constants become, in their order; those that become none are left out. -/
inductive ValuesOf (literal : List Char → Int → Prop) : List Constant → List EnumValue → Prop
  | nil : ValuesOf literal [] []
  | taken {c : Constant} {v : EnumValue} {constants : List Constant} {values : List EnumValue}
      (hvalue : c.Becomes literal v) (hrest : ValuesOf literal constants values) :
      ValuesOf literal (c :: constants) (v :: values)
  | skipped {c : Constant} {constants : List Constant} {values : List EnumValue}
      (hnone : ∀ v, ¬ c.Becomes literal v) (hrest : ValuesOf literal constants values) :
      ValuesOf literal (c :: constants) values

theorem int32Literal?_eq_some_iff {cs : List Char} {m : Int32} :
    Text.int32Literal? cs = some m ↔ Text.integerLiteral? cs = some m.toInt := by
  rw [Text.int32Literal?, Option.bind_eq_some_iff]
  constructor
  · rintro ⟨n, hn, h⟩
    split at h
    · next hrange =>
      obtain rfl := Option.some.inj h
      rw [hn, Int32.toInt_ofInt_of_le hrange.1 (Int.lt_add_one_of_le hrange.2)]
    · cases h
  · intro h
    refine ⟨m.toInt, h, ?_⟩
    rw [if_pos ⟨m.minValue_le_toInt, m.toInt_le⟩, Int32.ofInt_toInt]

/-- What the reader of literals takes for one. -/
def Text.Read (text : List Char) (number : Int) : Prop :=
  Text.Literal text number ∨ Text.SignInside text number

theorem valueOf?_eq_some_iff {c : Constant} {v : EnumValue} :
    EnumDef.valueOf? c = some v ↔ c.Becomes Text.Read v := by
  unfold EnumDef.valueOf?
  split
  · next hinteger =>
    rw [Option.map_eq_some_iff]
    constructor
    · rintro ⟨m, hm, rfl⟩
      rw [int32Literal?_eq_some_iff, Text.integerLiteral?_eq_some_iff] at hm
      exact ⟨hinteger, hm, rfl, rfl⟩
    · rintro ⟨-, hnumber, hname, hcomments⟩
      obtain ⟨name, number, comments⟩ := v
      obtain rfl : name = c.name := hname
      obtain rfl : comments = c.comments := hcomments
      exact ⟨number, int32Literal?_eq_some_iff.2 (Text.integerLiteral?_eq_some_iff.2 hnumber), rfl⟩
  · next hother =>
    simp only [reduceCtorEq, false_iff]
    exact fun h => hother h.type

theorem valuesOf_filterMap {literal : List Char → Int → Prop} {constants : List Constant}
    {value? : Constant → Option EnumValue}
    (h : ∀ c ∈ constants, ∀ v, value? c = some v ↔ c.Becomes literal v) :
    ValuesOf literal constants (constants.filterMap value?) := by
  induction constants with
  | nil => exact .nil
  | cons c constants ih =>
    obtain ⟨hc, h⟩ := List.forall_mem_cons.1 h
    cases hvalue : value? c with
    | some v =>
      rw [List.filterMap_cons_some hvalue]
      exact .taken ((hc v).1 hvalue) (ih h)
    | none =>
      rw [List.filterMap_cons_none hvalue]
      refine .skipped (fun v hv => ?_) (ih h)
      rw [(hc v).2 hv] at hvalue
      cases hvalue

/-- The constants that become values of the enum, apart from the zero value put in front, are those of
an integer type whose text is read as a 32-bit number: each that is a literal of one, and each with a
sign inside that would be one. All others are left out. So the values are those of the literals if no
constant of an integer type has a sign inside. -/
theorem ofConstants_exact (name : String) (constants : List Constant) :
    ∃ values, EnumDef.HasZeroInFront { name, values } (EnumDef.ofConstants name constants) ∧
      ValuesOf Text.Read constants values ∧
      ((∀ c ∈ constants, c.type.isInteger = true → ∀ number,
          ¬ Text.SignInside (Text.trim c.value.toList) number) →
        ValuesOf Text.Literal constants values) := by
  refine ⟨constants.filterMap EnumDef.valueOf?, EnumDef.hasZeroInFront_zeroFirst _,
    valuesOf_filterMap fun c _ v => valueOf?_eq_some_iff, fun h => ?_⟩
  refine valuesOf_filterMap fun c hc v => valueOf?_eq_some_iff.trans ?_
  constructor
  · rintro ⟨htype, hread, hname, hcomments⟩
    exact ⟨htype, hread.resolve_right (h c hc htype _), hname, hcomments⟩
  · rintro ⟨htype, hliteral, hname, hcomments⟩
    exact ⟨htype, .inl hliteral, hname, hcomments⟩

/-- Constants of a gearbox; a label is no number, and one number is too large for 32 bits. -/
def gearConstants : List Constant :=
  [{ name := "REVERSE", type := .int8, value := "-0x1" },
   { name := "NEUTRAL", type := .uint8, value := " 0 " },
   { name := "LABEL", type := .string, value := "2" },
   { name := "TOP", type := .int64, value := "2147483648" },
   { name := "LOW", type := .int32, value := "-2147483648" }]

/-- The literals among the constants become values. A text that is no literal does as well if nothing
but a second sign is wrong with it. -/
theorem ofConstants_exact_gearConstants :
    (∃ values, EnumDef.HasZeroInFront { name := "Gear", values }
        (EnumDef.ofConstants "Gear" gearConstants) ∧
      ValuesOf Text.Literal gearConstants values) ∧
      EnumDef.ofConstants "Gear" gearConstants =
        { name := "Gear"
          values := [⟨"NEUTRAL", 0, []⟩, ⟨"REVERSE", -1, []⟩, ⟨"LOW", -2147483648, []⟩] } ∧
      EnumDef.ofConstants "Gear" [{ name := "REVERSE", type := .int32, value := "--5" }] =
        { name := "Gear", values := [⟨"GEAR_UNSPECIFIED", 0, []⟩, ⟨"REVERSE", 5, []⟩] } ∧
      ∀ number, ¬ Text.Literal "--5".toList number := by
  have hplain : ∀ c ∈ gearConstants, c.type.isInteger = true →
      '-' ∉ (Text.trim c.value.toList).tail ∧ '+' ∉ (Text.trim c.value.toList).tail := by decide
  obtain ⟨values, hfront, -, hvalues⟩ := ofConstants_exact "Gear" gearConstants
  refine ⟨⟨values, hfront, hvalues fun c hc htype number hsign => ?_⟩, by decide +kernel,
    by decide +kernel, fun number h => ?_⟩
  · obtain ⟨hminus, hplus⟩ := hplain c hc htype
    exact (Text.sign_mem_tail_of_signInside hsign).elim hminus hplus
  · exact (Text.sign_not_mem_tail_of_literal h).1 (by decide)

end SchemaBridge
