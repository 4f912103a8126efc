import SchemaBridge.Proofs.Trim
import SchemaBridge.RosText.Line

/-!
# The grammar of a declaration

What a line of a ROS message may look like, said without the readers. A declaration is a field or a
constant, of which `DeclaresField` and `DeclaresConstant` name the pieces: the text before them is
blank, and spaces and tabs separate them.

* `TypeSpelling`: a scalar keyword, with a bound if it is a text type, or one to three identifiers
  joined by slashes, the first of which is no keyword; and then an array suffix or nothing.
* `FieldEnd`: what may follow the name of a field, a default value and a comment.
* `ConstantEnd`: what may follow the equals sign of a constant.

For each reader of a part of a line there is one lemma that says which texts it reads
(`identifier?_eq_some_iff`, `natural?_eq_some_iff`, `arraySuffix?_eq_some_iff`, …).
-/

namespace SchemaBridge.RosText

open Text

variable {cs rest text word : List Char}

/-! ## Words, gaps and numbers -/

/-- A letter or `_`, and then letters, digits and `_`. -/
def IsIdentifier : List Char → Prop
  | [] => False
  | c :: cs => isWordStart c = true ∧ ∀ d ∈ cs, isWordChar d = true

instance : DecidablePred IsIdentifier
  | [] => inferInstanceAs (Decidable False)
  | c :: cs =>
    -- the search for an instance would look through all characters
    @instDecidableAnd (isWordStart c = true) _ _ (List.decidableBAll (isWordChar · = true) cs)

/-- One or more spaces and tabs. -/
def IsGap (cs : List Char) : Prop := cs ≠ [] ∧ ∀ c ∈ cs, isGap c = true

/-- The decimal digits of a number below `2 ^ 64`. -/
structure IsNumber (digits : List Char) (n : Nat) : Prop where
  ne_nil : digits ≠ []
  digit : ∀ c ∈ digits, c.isDigit = true
  value : Nat.ofDigitChars 10 digits 0 = n
  lt : n < UInt64.size

theorem isWordChar_of_isWordStart {c : Char} (h : isWordStart c = true) : isWordChar c = true := by
  simp only [isWordStart, isWordChar, Char.isAlphanum, Bool.or_eq_true] at h ⊢
  rcases h with h | h
  · exact .inl (.inl h)
  · exact .inr h

theorem isWordChar_of_isDigit {c : Char} (h : c.isDigit = true) : isWordChar c = true := by
  simp [isWordChar, Char.isAlphanum, h]

theorem isBlank_of_isGap {c : Char} (h : isGap c = true) : isBlank c = true := by
  simp only [isGap, Bool.or_eq_true, decide_eq_true_eq] at h
  rcases h with rfl | rfl <;> decide

theorem isBlank_of_isLineEnd {c : Char} (h : isLineEnd c = true) : isBlank c = true := by
  simp only [isLineEnd, Bool.or_eq_true, decide_eq_true_eq] at h
  rcases h with rfl | rfl <;> decide

/-- The code points of letters, digits and `_`. -/
theorem toNat_of_isWordChar {c : Char} (h : isWordChar c = true) :
    48 ≤ c.toNat ∧ c.toNat ≤ 122 := by
  have h : ((decide (c.val ≥ 'A'.val ∧ c.val ≤ 'Z'.val) || (c.val ≥ 'a'.val && c.val ≤ 'z'.val)) ||
      (c.val ≥ '0'.val && c.val ≤ '9'.val) || c = '_') = true := h
  simp only [Bool.or_eq_true, Bool.and_eq_true, decide_eq_true_eq, ge_iff_le,
    UInt32.le_iff_toNat_le] at h
  change ((65 ≤ c.toNat ∧ c.toNat ≤ 90 ∨ 97 ≤ c.toNat ∧ c.toNat ≤ 122) ∨
    48 ≤ c.toNat ∧ c.toNat ≤ 57) ∨ c = '_' at h
  rcases h with h | rfl
  · omega
  · decide

theorem not_isBlank_of_isWordChar {c : Char} (h : isWordChar c = true) : isBlank c = false := by
  obtain ⟨h1, h2⟩ := toNat_of_isWordChar h
  simp only [isBlank, blankRanges, List.any_cons, List.any_nil, Bool.or_false, Bool.or_eq_false_iff,
    Bool.and_eq_false_iff, decide_eq_false_iff_not, Nat.not_le]
  omega

theorem not_isWordChar_of_isBlank {c : Char} (h : isBlank c = true) : isWordChar c = false := by
  by_contra hc
  rw [not_isBlank_of_isWordChar (by simpa using hc)] at h
  cases h

theorem IsIdentifier.ne_nil (h : IsIdentifier word) : word ≠ [] := by
  rintro rfl
  exact h

theorem IsIdentifier.forall (h : IsIdentifier word) : ∀ c ∈ word, isWordChar c = true := by
  cases word with
  | nil => exact h.elim
  | cons c cs => exact List.forall_mem_cons.2 ⟨isWordChar_of_isWordStart h.1, h.2⟩

theorem IsIdentifier.stopsAt {p : Char → Bool} (h : IsIdentifier word)
    (hp : ∀ c, isWordStart c = true → p c = false) : StopsAt p (word ++ rest) := by
  cases word with
  | nil => exact h.elim
  | cons c cs => exact stopsAt_cons.2 (hp c h.1)

theorem not_isBlank_of_isWordStart {c : Char} (h : isWordStart c = true) : isBlank c = false :=
  not_isBlank_of_isWordChar (isWordChar_of_isWordStart h)

theorem not_isGap_of_isWordStart {c : Char} (h : isWordStart c = true) : isGap c = false := by
  by_contra hc
  have := isBlank_of_isGap (Bool.not_eq_false _ ▸ hc)
  rw [not_isBlank_of_isWordStart h] at this
  cases this

theorem IsGap.stopsAt {p : Char → Bool} (h : IsGap cs) (hp : ∀ c, isBlank c = true → p c = false) :
    StopsAt p (cs ++ rest) := by
  cases cs with
  | nil => exact absurd rfl h.1
  | cons c cs => exact stopsAt_cons.2 (hp c (isBlank_of_isGap (h.2 c (List.mem_cons_self ..))))

theorem identifier?_eq_some_iff :
    identifier? cs = some (word, rest) ↔
      IsIdentifier word ∧ cs = word ++ rest ∧ StopsAt isWordChar rest := by
  constructor
  · intro h
    cases cs with
    | nil => simp [identifier?] at h
    | cons c cs =>
      simp only [identifier?] at h
      split at h
      · next hc =>
        simp only [Option.some.injEq, Prod.mk.injEq] at h
        obtain ⟨rfl, rfl⟩ := h
        refine ⟨⟨hc, takeWhile_forall isWordChar cs⟩, ?_, stopsAt_dropWhile isWordChar cs⟩
        rw [List.cons_append, List.takeWhile_append_dropWhile]
      · cases h
  · rintro ⟨hw, rfl, hr⟩
    cases word with
    | nil => exact hw.elim
    | cons c word =>
      simp only [List.cons_append, identifier?, hw.1, if_true, takeWhile_run hw.2 hr,
        dropWhile_run hw.2 hr]

theorem gap?_eq_some_iff :
    gap? cs = some rest ↔ ∃ gap, IsGap gap ∧ cs = gap ++ rest ∧ StopsAt isGap rest := by
  constructor
  · intro h
    cases cs with
    | nil => simp [gap?] at h
    | cons c cs =>
      simp only [gap?] at h
      split at h
      · next hc =>
        obtain rfl : cs.dropWhile isGap = rest := by simpa using h
        refine ⟨c :: cs.takeWhile isGap, ⟨by simp, ?_⟩, ?_, stopsAt_dropWhile isGap cs⟩
        · exact List.forall_mem_cons.2 ⟨hc, takeWhile_forall isGap cs⟩
        · rw [List.cons_append, List.takeWhile_append_dropWhile]
      · cases h
  · rintro ⟨gap, ⟨hne, hg⟩, rfl, hr⟩
    cases gap with
    | nil => exact absurd rfl hne
    | cons c gap =>
      obtain ⟨hc, hg⟩ := List.forall_mem_cons.1 hg
      simp only [List.cons_append, gap?, hc, if_true, dropWhile_run hg hr]

theorem digitIn?_ten (c : Char) :
    digitIn? 10 c = if c.isDigit then some (c.toNat - '0'.toNat) else none := by
  unfold digitIn? digitValue?
  split
  · next h =>
    simp only [Char.isDigit, Bool.and_eq_true, decide_eq_true_eq, ge_iff_le,
      UInt32.le_iff_toNat_le] at h
    change 48 ≤ c.toNat ∧ c.toNat ≤ 57 at h
    simp [Option.filter]
    omega
  · split
    · simp [Option.filter]
    · split <;> simp [Option.filter]

theorem digitsFrom?_ten {digits : List Char} {value : Nat} (h : ∀ c ∈ digits, c.isDigit = true) :
    digitsFrom? 10 value digits = some (Nat.ofDigitChars 10 digits value) := by
  induction digits generalizing value with
  | nil => simp [digitsFrom?]
  | cons c digits ih =>
    obtain ⟨hc, h⟩ := List.forall_mem_cons.1 h
    rw [digitsFrom?, digitIn?_ten, if_pos hc, Option.bind_some, ih h, Nat.ofDigitChars_cons,
      Nat.mul_comm]

theorem natural?_eq_some_iff {n : Nat} :
    natural? cs = some (n, rest) ↔
      ∃ digits, IsNumber digits n ∧ cs = digits ++ rest ∧ StopsAt Char.isDigit rest := by
  constructor
  · intro h
    unfold natural? at h
    split at h
    · next m hm =>
      split at h
      · next hlt =>
        obtain ⟨rfl, rfl⟩ : m = n ∧ cs.dropWhile Char.isDigit = rest := by simpa using h
        unfold digits? at hm
        split at hm
        · cases hm
        · next hne =>
          have hd := takeWhile_forall Char.isDigit cs
          rw [digitsFrom?_ten hd] at hm
          exact ⟨_, ⟨by simpa using hne, hd, by simpa using hm, hlt⟩,
            List.takeWhile_append_dropWhile.symm, stopsAt_dropWhile _ cs⟩
      · cases h
    · cases h
  · rintro ⟨digits, ⟨hne, hd, rfl, hlt⟩, rfl, hr⟩
    have hm : digits? 10 digits = some (Nat.ofDigitChars 10 digits 0) := by
      rw [digits?, if_neg (by simpa using hne), digitsFrom?_ten hd]
    simp only [natural?, takeWhile_run hd hr, dropWhile_run hd hr, hm, if_pos hlt]

/-! ## Types -/

/-- The spellings of a type without array suffix, and the bound that goes with them. -/
inductive BaseSpelling : List Char → BaseType → Option Nat → Prop
  | scalar {word : List Char} {s : Scalar} (hs : s.rosKeyword? = some (String.ofList word)) :
      BaseSpelling word (.scalar s) none
  | bounded {word digits : List Char} {s : Scalar} {n : Nat}
      (hs : s.rosKeyword? = some (String.ofList word)) (ht : s.isText = true)
      (hn : IsNumber digits n) : BaseSpelling (word ++ '<' :: '=' :: digits) (.scalar s) (some n)
  | named {first : List Char} {more : List (List Char)} (hf : IsIdentifier first)
      (hk : ∀ s : Scalar, s.rosKeyword? ≠ some (String.ofList first)) (hl : more.length ≤ 2)
      (hm : ∀ word ∈ more, IsIdentifier word) :
      BaseSpelling (first ++ more.flatMap ('/' :: ·))
        (.named (String.ofList (first ++ more.flatMap ('/' :: ·)))) none

/-- The spellings of an array suffix. -/
inductive SuffixSpelling : List Char → ArraySuffix → Prop
  | unbounded : SuffixSpelling ['[', ']'] .unbounded
  | fixed {digits : List Char} {n : Nat} (hn : IsNumber digits n) :
      SuffixSpelling ('[' :: digits ++ [']']) (.fixed n)
  | bounded {digits : List Char} {n : Nat} (hn : IsNumber digits n) :
      SuffixSpelling ('[' :: '<' :: '=' :: digits ++ [']']) (.bounded n)

/-- The spellings of what stands after the base of a type. -/
inductive ArraySpelling : List Char → Option ArraySuffix → Prop
  | single : ArraySpelling [] none
  | array {suffix : List Char} {a : ArraySuffix} (ha : SuffixSpelling suffix a) :
      ArraySpelling suffix (some a)

/-- The spellings of a type. -/
def TypeSpelling (text : List Char) (t : FieldType) : Prop :=
  ∃ base suffix, text = base ++ suffix ∧ BaseSpelling base t.base t.stringBound ∧
    ArraySpelling suffix t.array

theorem isIdentifier_of_rosKeyword? {s : Scalar} (h : s.rosKeyword? = some (String.ofList word)) :
    IsIdentifier word := by
  have hs : ∀ s : Scalar, ∀ w ∈ s.rosKeyword?, IsIdentifier w.toList := by
    intro s w hw
    cases s <;> simp only [Scalar.rosKeyword?, Option.mem_def, Option.some.injEq, reduceCtorEq] at hw
    all_goals subst hw; decide
  simpa using hs s _ h

theorem lengthBound?_eq_some_iff {n : Nat} :
    lengthBound? cs = some (n, rest) ↔
      ∃ digits, IsNumber digits n ∧ cs = '<' :: '=' :: (digits ++ rest) ∧
        StopsAt Char.isDigit rest := by
  constructor
  · intro h
    unfold lengthBound? at h
    split at h
    · obtain ⟨digits, hn, rfl, hr⟩ := natural?_eq_some_iff.1 h
      exact ⟨digits, hn, rfl, hr⟩
    · cases h
  · rintro ⟨digits, hn, rfl, hr⟩
    exact natural?_eq_some_iff.2 ⟨digits, hn, rfl, hr⟩

theorem closed?_eq_some_iff {suffix : Nat → ArraySuffix} {o : Option (Nat × List Char)}
    {a : ArraySuffix} :
    closed? suffix o = some (a, rest) ↔ ∃ n, o = some (n, ']' :: rest) ∧ a = suffix n := by
  constructor
  · intro h
    unfold closed? at h
    split at h
    · obtain ⟨rfl, rfl⟩ := by simpa using h
      exact ⟨_, rfl, rfl⟩
    · cases h
  · rintro ⟨n, rfl, rfl⟩
    rfl

theorem arraySuffix?_eq_some_iff {a : ArraySuffix} :
    arraySuffix? cs = some (a, rest) ↔ ∃ suffix, SuffixSpelling suffix a ∧ cs = suffix ++ rest := by
  constructor
  · intro h
    unfold arraySuffix? at h
    split at h
    · obtain ⟨rfl, rfl⟩ := by simpa using h
      exact ⟨_, .unbounded, rfl⟩
    · obtain ⟨n, hn, rfl⟩ := closed?_eq_some_iff.1 h
      obtain ⟨digits, hd, rfl, -⟩ := natural?_eq_some_iff.1 hn
      exact ⟨_, .bounded hd, by simp⟩
    · obtain ⟨n, hn, rfl⟩ := closed?_eq_some_iff.1 h
      obtain ⟨digits, hd, rfl, -⟩ := natural?_eq_some_iff.1 hn
      exact ⟨_, .fixed hd, by simp⟩
    · cases h
  · have hclose : StopsAt Char.isDigit (']' :: rest) := stopsAt_cons.2 (by decide)
    rintro ⟨suffix, hs, rfl⟩
    cases hs with
    | unbounded => rfl
    | @bounded digits n hn =>
      have : natural? (digits ++ ']' :: rest) = some (n, ']' :: rest) :=
        natural?_eq_some_iff.2 ⟨digits, hn, rfl, hclose⟩
      simp [arraySuffix?, this, closed?]
    | @fixed digits n hn =>
      have hread : natural? (digits ++ ']' :: rest) = some (n, ']' :: rest) :=
        natural?_eq_some_iff.2 ⟨digits, hn, rfl, hclose⟩
      obtain ⟨d, ds, rfl⟩ : ∃ d ds, digits = d :: ds := List.exists_cons_of_ne_nil hn.ne_nil
      have hd := hn.digit d (List.mem_cons_self ..)
      -- a digit is none of the characters that the first two forms begin with
      have h1 : d ≠ ']' := by rintro rfl; revert hd; decide
      have h2 : d ≠ '<' := by rintro rfl; revert hd; decide
      simp only [List.cons_append, List.append_assoc, List.nil_append] at hread ⊢
      unfold arraySuffix?
      split
      · next h => simp [h1] at h
      · next h => simp [h2] at h
      · next h =>
        obtain rfl : d :: (ds ++ ']' :: rest) = _ := by simpa using h
        rw [hread]
        rfl
      · next h => exact absurd rfl (h _)

theorem slashWords_sound {count : Nat} {words : List Char} (h : slashWords count cs = (words, rest)) :
    ∃ more : List (List Char), more.length ≤ count ∧ (∀ w ∈ more, IsIdentifier w) ∧
      words = more.flatMap ('/' :: ·) ∧ cs = words ++ rest := by
  fun_induction slashWords count cs generalizing words rest with
  | case1 count cs word tail hw words' tail' hrec ih =>
    obtain ⟨hid, rfl, -⟩ := identifier?_eq_some_iff.1 hw
    obtain ⟨more, hl, hm, rfl, rfl⟩ := ih hrec
    obtain ⟨rfl, rfl⟩ := by simpa using h
    exact ⟨word :: more, by simpa using hl, List.forall_mem_cons.2 ⟨hid, hm⟩, by simp, by simp⟩
  | case2 count cs hw =>
    obtain ⟨rfl, rfl⟩ := by simpa using h
    exact ⟨[], by simp⟩
  | case3 count cs hcs =>
    obtain ⟨rfl, rfl⟩ := by simpa using h
    exact ⟨[], by simp⟩

theorem slashWords_complete {more : List (List Char)} {count : Nat} (hl : more.length ≤ count)
    (hm : ∀ w ∈ more, IsIdentifier w) (hr : StopsAt (fun c => isWordChar c || c = '/') rest) :
    slashWords count (more.flatMap ('/' :: ·) ++ rest) = (more.flatMap ('/' :: ·), rest) := by
  have hword : StopsAt isWordChar rest := hr.mono fun c hc => by simp [hc]
  induction more generalizing count with
  | nil =>
    cases count with
    | zero => rfl
    | succ count =>
      rw [List.flatMap_nil, List.nil_append]
      unfold slashWords
      split
      · simp at hr
      · rfl
  | cons word more ih =>
    cases count with
    | zero => simp at hl
    | succ count =>
      obtain ⟨hw, hm⟩ := List.forall_mem_cons.1 hm
      -- the next word begins with a slash, where this one stops
      have hstop : StopsAt isWordChar (more.flatMap ('/' :: ·) ++ rest) := by
        cases more with
        | nil => exact hword
        | cons w more => exact stopsAt_cons.2 (by decide)
      have hread : identifier? (word ++ (more.flatMap ('/' :: ·) ++ rest)) =
          some (word, more.flatMap ('/' :: ·) ++ rest) :=
        identifier?_eq_some_iff.2 ⟨hw, rfl, hstop⟩
      have : slashWords count (more.flatMap ('/' :: ·) ++ rest) = (more.flatMap ('/' :: ·), rest) :=
        ih (by simpa using hl) hm
      simp only [List.flatMap_cons, List.append_assoc, List.cons_append, slashWords, hread, this]

end SchemaBridge.RosText
