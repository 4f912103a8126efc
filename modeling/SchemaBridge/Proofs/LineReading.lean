import SchemaBridge.Proofs.LineGrammar

/-!
# The parts of a line are read by their grammar

For each reader of a part of a declaration, what it reads is the part by the grammar, and a part by
the grammar is read.

* `fieldType?_sound`, `fieldType?_complete`: types.
* `default?_sound`, `default?_complete`: default values.
* `fieldEnd_of_grammar`, `grammar_of_fieldEnd`: what follows the name of a field.
* `constantEnd_iff`: what follows the equals sign of a constant.
* `not_fieldEnd_equals`: no field goes on with an equals sign after its name.
-/

namespace SchemaBridge.RosText

open Text

variable {cs rest text line start left : List Char}

/-! ## Types -/

theorem ofRosKeyword?_eq_none_iff {word : String} :
    Scalar.ofRosKeyword? word = none ↔ ∀ s : Scalar, s.rosKeyword? ≠ some word := by
  constructor
  · intro h s hs
    rw [Scalar.ofRosKeyword?_eq_some_iff.2 hs] at h
    cases h
  · intro h
    cases hs : Scalar.ofRosKeyword? word with
    | none => rfl
    | some s => exact absurd (Scalar.ofRosKeyword?_eq_some_iff.1 hs) (h s)

theorem baseType?_sound {base : BaseType} {bound : Option Nat}
    (h : baseType? cs = some ((base, bound), rest)) :
    ∃ text, BaseSpelling text base bound ∧ cs = text ++ rest := by
  unfold baseType? at h
  split at h
  · cases h
  · next word tail hw =>
    obtain ⟨hid, rfl, -⟩ := identifier?_eq_some_iff.1 hw
    split at h
    · next s hs =>
      have hs := Scalar.ofRosKeyword?_eq_some_iff.1 hs
      split at h
      · next ht =>
        cases hb : lengthBound? tail with
        | none =>
          simp only [optionally, hb, Option.some.injEq, Prod.mk.injEq] at h
          obtain ⟨⟨rfl, rfl⟩, rfl⟩ := h
          exact ⟨word, .scalar hs, rfl⟩
        | some found =>
          obtain ⟨n, tail'⟩ := found
          obtain ⟨digits, hn, rfl, -⟩ := lengthBound?_eq_some_iff.1 hb
          simp only [optionally, hb, Option.some.injEq, Prod.mk.injEq] at h
          obtain ⟨⟨rfl, rfl⟩, rfl⟩ := h
          exact ⟨_, .bounded hs ht hn, by simp⟩
      · simp only [Option.some.injEq, Prod.mk.injEq] at h
        obtain ⟨⟨rfl, rfl⟩, rfl⟩ := h
        exact ⟨word, .scalar hs, rfl⟩
    · next hk =>
      cases hsl : slashWords 2 tail with
      | mk words tail' =>
        obtain ⟨more, hl, hm, rfl, rfl⟩ := slashWords_sound hsl
        simp only [hsl, Option.some.injEq, Prod.mk.injEq] at h
        obtain ⟨⟨rfl, rfl⟩, rfl⟩ := h
        exact ⟨_, .named hid (ofRosKeyword?_eq_none_iff.1 hk) hl hm, by simp⟩

/-- A character that may follow the base of a type. -/
def endsBase (c : Char) : Bool := isGap c || c = '['

theorem baseType?_complete {base : BaseType} {bound : Option Nat} {c : Char}
    (h : BaseSpelling text base bound) (hc : endsBase c = true) :
    baseType? (text ++ c :: rest) = some ((base, bound), c :: rest) := by
  have hword : isWordChar c = false ∧ c ≠ '<' ∧ c ≠ '/' := by
    simp only [endsBase, isGap, Bool.or_eq_true, decide_eq_true_eq] at hc
    rcases hc with (rfl | rfl) | rfl <;> decide
  obtain ⟨hword, hlt, hslash⟩ := hword
  cases h with
  | @scalar _ s hs =>
    have hread : identifier? (text ++ c :: rest) = some (text, c :: rest) :=
      identifier?_eq_some_iff.2 ⟨isIdentifier_of_rosKeyword? hs, rfl, stopsAt_cons.2 hword⟩
    have hbound : lengthBound? (c :: rest) = none := by
      unfold lengthBound?
      split
      · next h => exact absurd (List.cons.inj h).1 hlt
      · rfl
    simp only [baseType?, hread, Scalar.ofRosKeyword?_eq_some_iff.2 hs, optionally, hbound]
    split <;> rfl
  | @bounded word digits s n hs ht hn =>
    have hdigit : StopsAt Char.isDigit (c :: rest) :=
      (stopsAt_cons.2 hword).mono fun _ => isWordChar_of_isDigit
    have hread : identifier? (word ++ '<' :: '=' :: (digits ++ c :: rest)) =
        some (word, '<' :: '=' :: (digits ++ c :: rest)) :=
      identifier?_eq_some_iff.2 ⟨isIdentifier_of_rosKeyword? hs, rfl, stopsAt_cons.2 (by decide)⟩
    have hbound : lengthBound? ('<' :: '=' :: (digits ++ c :: rest)) = some (n, c :: rest) :=
      lengthBound?_eq_some_iff.2 ⟨digits, hn, rfl, hdigit⟩
    simp only [List.append_assoc, List.cons_append, baseType?, hread,
      Scalar.ofRosKeyword?_eq_some_iff.2 hs, ht, if_true, optionally, hbound]
  | @named first more hf hk hl hm =>
    have hstop : StopsAt (fun c => isWordChar c || c = '/') (c :: rest) :=
      stopsAt_cons.2 (by simp [hword, hslash])
    have hnext : StopsAt isWordChar (more.flatMap ('/' :: ·) ++ c :: rest) := by
      cases more with
      | nil => exact stopsAt_cons.2 hword
      | cons w more => exact stopsAt_cons.2 (by decide)
    have hread : identifier? (first ++ (more.flatMap ('/' :: ·) ++ c :: rest)) =
        some (first, more.flatMap ('/' :: ·) ++ c :: rest) :=
      identifier?_eq_some_iff.2 ⟨hf, rfl, hnext⟩
    simp only [List.append_assoc, baseType?, hread, ofRosKeyword?_eq_none_iff.2 hk,
      slashWords_complete hl hm hstop]

theorem fieldType?_sound {t : FieldType} (h : fieldType? cs = some (t, rest)) :
    ∃ text, TypeSpelling text t ∧ cs = text ++ rest := by
  unfold fieldType? at h
  split at h
  · cases h
  · next base bound tail hb =>
    obtain ⟨text, htext, rfl⟩ := baseType?_sound hb
    cases ha : arraySuffix? tail with
    | none =>
      simp only [optionally, ha, Option.some.injEq, Prod.mk.injEq] at h
      obtain ⟨rfl, rfl⟩ := h
      exact ⟨text, ⟨text, [], by simp, htext, .single⟩, rfl⟩
    | some found =>
      obtain ⟨a, tail'⟩ := found
      obtain ⟨suffix, hs, rfl⟩ := arraySuffix?_eq_some_iff.1 ha
      simp only [optionally, ha, Option.some.injEq, Prod.mk.injEq] at h
      obtain ⟨rfl, rfl⟩ := h
      exact ⟨text ++ suffix, ⟨text, suffix, rfl, htext, .array hs⟩, by simp⟩

theorem fieldType?_complete {t : FieldType} {c : Char} (h : TypeSpelling text t)
    (hc : isGap c = true) : fieldType? (text ++ c :: rest) = some (t, c :: rest) := by
  obtain ⟨base, suffix, rfl, hb, ha⟩ := h
  obtain ⟨tbase, tbound, tarray⟩ := t
  cases ha with
  | single =>
    have hne : c ≠ '[' := by rintro rfl; revert hc; decide
    have hnone : arraySuffix? (c :: rest) = none := by
      unfold arraySuffix?
      split
      · next h => exact absurd (List.cons.inj h).1 hne
      · next h => exact absurd (List.cons.inj h).1 hne
      · next h => exact absurd (List.cons.inj h).1 hne
      · rfl
    rw [List.append_nil]
    simp only [fieldType?, baseType?_complete hb (show endsBase c = true by simp [endsBase, hc]),
      optionally, hnone]
  | array hs =>
    have hsuffix : arraySuffix? (suffix ++ c :: rest) = some (_, c :: rest) :=
      arraySuffix?_eq_some_iff.2 ⟨suffix, hs, rfl⟩
    obtain ⟨tail, rfl⟩ : ∃ tail, suffix = '[' :: tail := by cases hs <;> exact ⟨_, rfl⟩
    rw [List.append_assoc, List.cons_append]
    simp only [fieldType?, baseType?_complete hb (show endsBase '[' = true by decide), optionally]
    rw [← List.cons_append, hsuffix]

/-! ## Comments and values -/

/-- A comment: one or more marks, and a text that is read without the blanks around it. -/
def IsComment (text : List Char) (comment : String) : Prop :=
  ∃ marks body, text = marks ++ body ∧ marks ≠ [] ∧ (∀ c ∈ marks, c = '#') ∧
    body.head? ≠ some '#' ∧ comment = String.ofList (trim body)

/-- A comment, or nothing. -/
def IsOptionalComment (text : List Char) : Option String → Prop
  | none => text = []
  | some comment => IsComment text comment

/-- The text of a value: it has no comment mark, and is not blank. -/
structure IsValue (text : List Char) : Prop where
  unmarked : '#' ∉ text
  ne_nil : trim text ≠ []

/-- What may follow the name of a field: blanks, a comment after spaces and tabs, or a default value
that begins with no equals sign. -/
inductive FieldEnd : List Char → Option String → Option String → Prop
  | plain {blanks : List Char} (hb : AllBlank blanks) : FieldEnd blanks none none
  | comment {gap text : List Char} {comment : String} (hg : ∀ c ∈ gap, isGap c = true)
      (hc : IsComment text comment) : FieldEnd (gap ++ text) none (some comment)
  | default {gap value text : List Char} {comment : Option String} (hg : IsGap gap)
      (hv : IsValue value) (he : (trim value).head? ≠ some '=') (hc : IsOptionalComment text comment) :
      FieldEnd (gap ++ (value ++ text)) (some (String.ofList (trim value))) comment

/-- What may follow the equals sign of a constant: the value of a `string` is all of it, any other
value may have a comment after it. -/
inductive ConstantEnd : Scalar → List Char → String → Option String → Prop
  | string (text : List Char) : ConstantEnd .string text (String.ofList (trim text)) none
  | other {s : Scalar} {value text : List Char} {comment : Option String} (hs : s ≠ .string)
      (hv : IsValue value) (hc : IsOptionalComment text comment) :
      ConstantEnd s (value ++ text) (String.ofList (trim value)) comment

theorem comment?_eq_some_iff {comment : String} :
    comment? cs = some comment ↔ IsComment cs comment := by
  constructor
  · intro h
    unfold comment? at h
    split at h
    · next tail =>
      obtain rfl := by simpa using h
      refine ⟨'#' :: tail.takeWhile (· = '#'), tail.dropWhile (· = '#'), ?_, by simp, ?_, ?_, rfl⟩
      · rw [List.cons_append, List.takeWhile_append_dropWhile]
      · exact List.forall_mem_cons.2
          ⟨rfl, fun c hc => by simpa using takeWhile_forall (· = '#') tail c hc⟩
      · intro hh
        simpa using stopsAt_dropWhile (· = '#') tail '#' hh
    · cases h
  · rintro ⟨marks, body, rfl, hne, hm, hb, rfl⟩
    obtain ⟨c, marks, rfl⟩ := List.exists_cons_of_ne_nil hne
    obtain ⟨rfl, hm⟩ := List.forall_mem_cons.1 hm
    have hstop : StopsAt (· = '#') body := by
      rintro c hc
      have : c ≠ '#' := by rintro rfl; exact hb hc
      simpa using this
    rw [List.cons_append, comment?, dropWhile_run (by simpa using hm) hstop]

theorem IsComment.exists_cons {comment : String} (h : IsComment text comment) :
    ∃ tail, text = '#' :: tail := by
  obtain ⟨marks, body, rfl, hne, hm, -, -⟩ := h
  obtain ⟨c, marks, rfl⟩ := List.exists_cons_of_ne_nil hne
  obtain rfl := hm c (List.mem_cons_self ..)
  exact ⟨_, rfl⟩

/-- A text that is empty or begins with a comment mark is an optional comment. -/
theorem isOptionalComment_iff {comment : Option String} (h : StopsAt (· ≠ '#') text) :
    IsOptionalComment text comment ↔ comment? text = comment := by
  cases comment with
  | some comment => exact comment?_eq_some_iff.symm
  | none =>
    cases text with
    | nil => simp [IsOptionalComment, comment?]
    | cons c cs =>
      obtain rfl : c = '#' := by simpa using stopsAt_cons.1 h
      simp [IsOptionalComment, comment?]

theorem IsOptionalComment.stopsAt {comment : Option String} (h : IsOptionalComment text comment) :
    StopsAt (· ≠ '#') text := by
  cases comment with
  | none =>
    obtain rfl : text = [] := h
    exact stopsAt_nil
  | some comment =>
    obtain ⟨tail, rfl⟩ := IsComment.exists_cons h
    exact stopsAt_cons.2 (by decide)

theorem IsValue.not_allBlank {value : List Char} (h : IsValue value) : ¬ AllBlank value :=
  fun hb => h.ne_nil (trim_of_allBlank hb)

theorem not_isBlank_mark : isBlank '#' = false := by decide

theorem not_isBlank_equals : isBlank '=' = false := by decide

theorem forall_ne_mark {value : List Char} (h : '#' ∉ value) :
    ∀ c ∈ value, decide (c ≠ '#') = true := by
  intro c hc
  have : c ≠ '#' := by rintro rfl; exact h hc
  simpa using this

theorem default?_sound {value : String} (h : default? cs = some (value, rest)) :
    ∃ gap v, IsGap gap ∧ cs = gap ++ (v ++ rest) ∧ IsValue v ∧ (trim v).head? ≠ some '=' ∧
      StopsAt (· ≠ '#') rest ∧ value = String.ofList (trim v) := by
  unfold default? at h
  split at h
  · cases h
  · next tail htail =>
    obtain ⟨gap, hg, rfl, -⟩ := gap?_eq_some_iff.1 htail
    dsimp only at h
    split at h
    · cases h
    · next hv =>
      simp only [valueText, Bool.or_eq_true, List.isEmpty_iff, not_or] at hv
      simp only [Option.some.injEq, Prod.mk.injEq] at h
      obtain ⟨rfl, rfl⟩ := h
      refine ⟨gap, tail.takeWhile (· ≠ '#'), hg, ?_, ⟨fun hm => ?_, hv.1⟩, by simpa using hv.2,
        stopsAt_dropWhile _ tail, rfl⟩
      · rw [List.takeWhile_append_dropWhile]
      · simpa using takeWhile_forall (· ≠ '#') tail '#' hm

theorem default?_complete {gap v : List Char} (hg : IsGap gap) (hv : IsValue v)
    (he : (trim v).head? ≠ some '=') (hr : StopsAt (· ≠ '#') rest) :
    default? (gap ++ (v ++ rest)) = some (String.ofList (trim v), rest) := by
  -- the value may begin with gaps, which are read together with those before it
  have ht : trim (v.dropWhile isGap) = trim v := trim_dropWhile fun _ => isBlank_of_isGap
  have hne : v.dropWhile isGap ≠ [] := by
    intro hnil
    rw [hnil] at ht
    exact hv.ne_nil ht.symm
  have hgap : gap? (gap ++ (v ++ rest)) = some (v.dropWhile isGap ++ rest) := by
    refine gap?_eq_some_iff.2 ⟨gap ++ v.takeWhile isGap, ⟨by simp [hg.1], fun c hc => ?_⟩, ?_,
      (stopsAt_dropWhile isGap v).append hne⟩
    · rcases List.mem_append.1 hc with hc | hc
      · exact hg.2 c hc
      · exact takeWhile_forall isGap v c hc
    · rw [List.append_assoc, ← List.append_assoc (v.takeWhile isGap),
        List.takeWhile_append_dropWhile]
  have hmark := forall_ne_mark fun hm => hv.unmarked ((List.dropWhile_suffix isGap).subset hm)
  simp only [default?, hgap, valueText, takeWhile_run hmark hr, dropWhile_run hmark hr, ht]
  rw [if_neg (by simpa [hv.ne_nil] using he)]

/-- The default value and the comment after a field's name, and what is left of the line. -/
def fieldEnd (cs : List Char) : Option String × Option String × List Char :=
  ((optionally default? cs).1, lastComment (optionally default? cs).2)

/-- Without a value there is no default value. -/
theorem default?_eq_none (h : AllBlank (cs.takeWhile (· ≠ '#'))) : default? cs = none := by
  cases hd : default? cs with
  | none => rfl
  | some found =>
    obtain ⟨value, tail⟩ := found
    obtain ⟨gap, v, hg, rfl, hv, -, htail, -⟩ := default?_sound hd
    have hmark : ∀ c ∈ gap ++ v, decide (c ≠ '#') = true := by
      refine forall_ne_mark fun hm => ?_
      rcases List.mem_append.1 hm with hm | hm
      · exact absurd (hg.2 _ hm) (by decide)
      · exact hv.unmarked hm
    rw [← List.append_assoc, takeWhile_run hmark htail] at h
    exact absurd (fun c hc => h c (List.mem_append_right _ hc)) hv.not_allBlank

theorem lastComment_of_comment {gap : List Char} {comment : String}
    (hg : ∀ c ∈ gap, isGap c = true) (hc : IsComment text comment) :
    lastComment (gap ++ text) = (some comment, []) := by
  obtain ⟨tail, rfl⟩ := hc.exists_cons
  rw [lastComment, dropWhile_run hg (stopsAt_cons.2 (by decide)), comment?_eq_some_iff.2 hc]

theorem lastComment_of_allBlank (h : AllBlank cs) : lastComment cs = (none, cs) := by
  have hnone : comment? (cs.dropWhile isGap) = none := by
    cases hc : comment? (cs.dropWhile isGap) with
    | none => rfl
    | some comment =>
      obtain ⟨tail, htail⟩ := (comment?_eq_some_iff.1 hc).exists_cons
      have := h '#' ((List.dropWhile_suffix isGap).subset (htail ▸ List.mem_cons_self ..))
      rw [not_isBlank_mark] at this
      cases this
  rw [lastComment, hnone]

theorem fieldEnd_of_grammar {default comment : Option String} (h : FieldEnd cs default comment) :
    ∃ left, fieldEnd cs = (default, comment, left) ∧ AllBlank left := by
  cases h with
  | plain hb =>
    have hd : default? cs = none := default?_eq_none fun c hc => hb c (List.takeWhile_subset _ hc)
    exact ⟨cs, by simp [fieldEnd, optionally, hd, lastComment_of_allBlank hb], hb⟩
  | @comment gap text comment hg hc =>
    have hd : default? (gap ++ text) = none := by
      have hmark := forall_ne_mark fun hm => absurd (hg _ hm) (by decide)
      have hstop : StopsAt (· ≠ '#') text :=
        IsOptionalComment.stopsAt (show IsOptionalComment text (some comment) from hc)
      refine default?_eq_none ?_
      rw [takeWhile_run hmark hstop]
      exact fun c hc => isBlank_of_isGap (hg c hc)
    exact ⟨[], by simp [fieldEnd, optionally, hd, lastComment_of_comment hg hc], by simp [AllBlank]⟩
  | @default gap value text comment hg hv he hc =>
    have hd := default?_complete hg hv he hc.stopsAt
    refine ⟨[], ?_, by simp [AllBlank]⟩
    cases comment with
    | none =>
      obtain rfl : text = [] := hc
      simp only [fieldEnd, optionally, hd]
      rfl
    | some comment =>
      have : lastComment ([] ++ text) = (some comment, []) := lastComment_of_comment (by simp) hc
      rw [List.nil_append] at this
      simp only [fieldEnd, optionally, hd, this]

theorem grammar_of_fieldEnd {default comment : Option String}
    (h : fieldEnd cs = (default, comment, left)) (hleft : AllBlank left) :
    FieldEnd cs default comment := by
  unfold fieldEnd at h
  cases hd : default? cs with
  | some found =>
    obtain ⟨value, tail⟩ := found
    obtain ⟨gap, v, hg, rfl, hv, he, htail, rfl⟩ := default?_sound hd
    simp only [optionally, hd, Prod.mk.injEq] at h
    obtain ⟨rfl, h⟩ := h
    refine .default hg hv he ((isOptionalComment_iff htail).2 ?_)
    have hgap : tail.dropWhile isGap = tail :=
      dropWhile_of_stopsAt (htail.mono fun c hc => by
        have : c ≠ '#' := by rintro rfl; revert hc; decide
        simpa using this)
    rw [lastComment, hgap] at h
    split at h
    · next t ht =>
      obtain ⟨rfl, -⟩ := by simpa using h
      exact ht
    · next ht =>
      obtain ⟨rfl, -⟩ := by simpa using h
      exact ht
  | none =>
    simp only [optionally, hd, Prod.mk.injEq] at h
    obtain ⟨rfl, h⟩ := h
    unfold lastComment at h
    split at h
    · next t ht =>
      obtain ⟨rfl, -⟩ := by simpa using h
      have := FieldEnd.comment (takeWhile_forall isGap cs) (comment?_eq_some_iff.1 ht)
      rwa [List.takeWhile_append_dropWhile] at this
    · obtain ⟨rfl, rfl⟩ := by simpa using h
      exact .plain hleft

theorem FieldEnd.stopsAt {default comment : Option String} (h : FieldEnd cs default comment) :
    StopsAt isWordChar cs := by
  cases h with
  | plain hb =>
    cases cs with
    | nil => exact stopsAt_nil
    | cons c cs => exact stopsAt_cons.2 (not_isWordChar_of_isBlank (hb c (List.mem_cons_self ..)))
  | @comment gap text comment hg hc =>
    cases gap with
    | nil =>
      obtain ⟨tail, rfl⟩ := hc.exists_cons
      exact stopsAt_cons.2 (by decide)
    | cons c gap =>
      exact stopsAt_cons.2
        (not_isWordChar_of_isBlank (isBlank_of_isGap (hg c (List.mem_cons_self ..))))
  | default hg => exact hg.stopsAt fun _ => not_isWordChar_of_isBlank

/-- An equals sign, with a gap before it or none, ends a name. -/
theorem stopsAt_equals {space : List Char} (hspace : ∀ c ∈ space, isGap c = true)
    (literal : List Char) : StopsAt isWordChar (space ++ '=' :: literal) := by
  cases space with
  | nil => exact stopsAt_cons.2 (by decide)
  | cons c space =>
    have := isBlank_of_isGap (hspace c (List.mem_cons_self ..))
    exact stopsAt_cons.2 (not_isWordChar_of_isBlank this)

/-- No field goes on with an equals sign after its name. -/
theorem not_fieldEnd_equals {space literal : List Char} {default comment : Option String}
    (hs : ∀ c ∈ space, isGap c = true) : ¬ FieldEnd (space ++ '=' :: literal) default comment := by
  have hblank : AllBlank space := fun c hc => isBlank_of_isGap (hs c hc)
  have hstart : trimStart (space ++ '=' :: literal) = '=' :: literal := by
    rw [trimStart_append hblank, trimStart_of_stopsAt (stopsAt_cons.2 not_isBlank_equals)]
  intro h
  generalize hcs : space ++ '=' :: literal = cs at h hstart
  cases h with
  | plain hb => rw [trimStart_eq_nil_iff.2 hb] at hstart; cases hstart
  | @comment gap text comment hg hc =>
    obtain ⟨tail, rfl⟩ := hc.exists_cons
    rw [trimStart_append fun c hc => isBlank_of_isGap (hg c hc),
      trimStart_of_stopsAt (stopsAt_cons.2 not_isBlank_mark)] at hstart
    cases hstart
  | @default gap value text comment hg hv he hc =>
    obtain ⟨as, c, rest, rfl, has, hc, ht⟩ := exists_trimStart_cons hv.not_allBlank
    rw [trimStart_append fun c hc => isBlank_of_isGap (hg.2 c hc), List.append_assoc,
      trimStart_append has, List.cons_append, trimStart_of_stopsAt (stopsAt_cons.2 hc)] at hstart
    rw [ht, (List.cons.inj hstart).1] at he
    exact he rfl

theorem afterEquals?_eq_some_iff :
    afterEquals? cs = some rest ↔
      ∃ space, (∀ c ∈ space, isGap c = true) ∧ cs = space ++ '=' :: rest := by
  constructor
  · intro h
    unfold afterEquals? at h
    split at h
    · next tail ht =>
      obtain rfl := Option.some.inj h
      refine ⟨cs.takeWhile isGap, takeWhile_forall isGap cs, ?_⟩
      rw [← ht, List.takeWhile_append_dropWhile]
    · cases h
  · rintro ⟨space, hs, rfl⟩
    rw [afterEquals?, dropWhile_run hs (stopsAt_cons.2 (by decide))]
    rfl

/-- What follows the equals sign of a constant that is no `string`. -/
theorem constantEnd_iff {s : Scalar} {value : String} {comment : Option String}
    (hs : s ≠ .string) :
    ConstantEnd s cs value comment ↔
      valueText cs ≠ [] ∧ String.ofList (valueText cs) = value ∧
        comment? (cs.dropWhile (· ≠ '#')) = comment := by
  constructor
  · intro h
    cases h with
    | string => exact absurd rfl hs
    | @other _ v text comment _ hv hc =>
      have hmark := forall_ne_mark hv.unmarked
      rw [valueText, takeWhile_run hmark hc.stopsAt, dropWhile_run hmark hc.stopsAt]
      exact ⟨hv.ne_nil, rfl, (isOptionalComment_iff hc.stopsAt).1 hc⟩
  · rintro ⟨hne, rfl, hc⟩
    have hunmarked : '#' ∉ cs.takeWhile (· ≠ '#') := by
      intro hm
      simpa using takeWhile_forall (· ≠ '#') cs '#' hm
    have := ConstantEnd.other hs ⟨hunmarked, hne⟩
      ((isOptionalComment_iff (stopsAt_dropWhile (· ≠ '#') cs)).2 hc)
    rwa [List.takeWhile_append_dropWhile] at this

/-! ## The end of a line -/

variable {ends : List Char}

theorem allBlank_of_isLineEnd (h : ∀ c ∈ ends, isLineEnd c = true) : AllBlank ends :=
  fun c hc => isBlank_of_isLineEnd (h c hc)

theorem head?_ne_of_isLineEnd {c : Char} (h : ∀ c ∈ ends, isLineEnd c = true)
    (hc : isLineEnd c = false) : ends.head? ≠ some c := by
  intro hh
  rw [h c (List.mem_of_mem_head? hh)] at hc
  cases hc

/-- The end of the line can be taken to be a part of the comment. -/
theorem IsComment.append {comment : String} (hc : IsComment text comment)
    (h : ∀ c ∈ ends, isLineEnd c = true) : IsComment (text ++ ends) comment := by
  obtain ⟨marks, body, rfl, hne, hm, hb, rfl⟩ := hc
  refine ⟨marks, body ++ ends, by simp, hne, hm, ?_, ?_⟩
  · cases body with
    | nil => exact head?_ne_of_isLineEnd h (by decide)
    | cons c body => exact hb
  · rw [trim_append_right (allBlank_of_isLineEnd h)]

/-- Nor does a comment lose anything with the end of its line. -/
theorem IsComment.dropEnd {comment : String} (hc : IsComment text comment) :
    IsComment (dropEndWhile isLineEnd text) comment := by
  obtain ⟨marks, body, rfl, hne, hm, hb, rfl⟩ := hc
  obtain ⟨marks, c, rfl⟩ := (List.eq_nil_or_concat' marks).resolve_left hne
  obtain rfl := hm c (by simp)
  refine ⟨marks ++ ['#'], dropEndWhile isLineEnd body, ?_, hne, hm, ?_, ?_⟩
  · rw [List.append_assoc, List.singleton_append, dropEndWhile_append_cons (by decide)]
    simp
  · obtain ⟨bs, hbs⟩ := prefix_dropEndWhile isLineEnd body
    intro hh
    rw [← hbs, List.head?_append, hh] at hb
    exact hb rfl
  · rw [trim_dropEndWhile fun _ => isBlank_of_isLineEnd]

section

variable {value : List Char} {comment : Option String}

/-- The end of the line can be taken to be a part of the comment, or else of the value. -/
theorem exists_value_append (hv : IsValue value) (hc : IsOptionalComment text comment)
    (h : ∀ c ∈ ends, isLineEnd c = true) :
    ∃ value' text', value ++ text ++ ends = value' ++ text' ∧ IsValue value' ∧
      trim value' = trim value ∧ IsOptionalComment text' comment := by
  cases comment with
  | some comment => exact ⟨value, text ++ ends, by simp, hv, rfl, IsComment.append hc h⟩
  | none =>
    obtain rfl : text = [] := hc
    have ht : trim (value ++ ends) = trim value := trim_append_right (allBlank_of_isLineEnd h)
    refine ⟨value ++ ends, [], by simp, ⟨fun hm => ?_, ht ▸ hv.ne_nil⟩, ht, rfl⟩
    rcases List.mem_append.1 hm with hm | hm
    · exact hv.unmarked hm
    · exact absurd (h _ hm) (by decide)

/-- Neither a value nor a comment loses anything with the end of the line. -/
theorem exists_value_dropEnd (before : List Char) (hv : IsValue value)
    (hc : IsOptionalComment text comment) :
    ∃ value' text', dropEndWhile isLineEnd (before ++ (value ++ text)) = before ++ (value' ++ text') ∧
      IsValue value' ∧ trim value' = trim value ∧ IsOptionalComment text' comment := by
  cases comment with
  | some comment =>
    refine ⟨value, dropEndWhile isLineEnd text, ?_, hv, rfl, IsComment.dropEnd hc⟩
    obtain ⟨tail, rfl⟩ := IsComment.exists_cons hc
    have hmark : isLineEnd '#' = false := by decide
    rw [← List.append_assoc, dropEndWhile_append_cons hmark, List.append_assoc]
    congr 2
    exact (@dropEndWhile_append_cons _ _ [] tail hmark).symm
  | none =>
    obtain rfl : text = [] := hc
    have ht : trim (dropEndWhile isLineEnd value) = trim value :=
      trim_dropEndWhile fun _ => isBlank_of_isLineEnd
    have hne : dropEndWhile isLineEnd value ≠ [] := by
      intro hnil
      rw [hnil] at ht
      exact hv.ne_nil ht.symm
    refine ⟨dropEndWhile isLineEnd value, [], ?_, ⟨fun hm => ?_, ht ▸ hv.ne_nil⟩, ht, rfl⟩
    · rw [List.append_nil, List.append_nil, dropEndWhile_append_of_ne_nil hne]
    · exact hv.unmarked ((prefix_dropEndWhile isLineEnd value).subset hm)

end

theorem FieldEnd.append {default comment : Option String} (h : FieldEnd cs default comment)
    (he : ∀ c ∈ ends, isLineEnd c = true) : FieldEnd (cs ++ ends) default comment := by
  cases h with
  | plain hb =>
    refine .plain fun c hc => ?_
    rcases List.mem_append.1 hc with hc | hc
    · exact hb c hc
    · exact isBlank_of_isLineEnd (he c hc)
  | comment hg hc =>
    rw [List.append_assoc]
    exact .comment hg (hc.append he)
  | @default gap value text _ hg hv hstart hc =>
    obtain ⟨value', text', heq, hv', ht, hc'⟩ := exists_value_append hv hc he
    rw [List.append_assoc, heq, ← ht]
    exact .default hg hv' (ht ▸ hstart) hc'

theorem FieldEnd.dropEnd {default comment : Option String} (h : FieldEnd cs default comment) :
    FieldEnd (dropEndWhile isLineEnd cs) default comment := by
  cases h with
  | plain hb => exact .plain fun c hc => hb c ((prefix_dropEndWhile isLineEnd cs).subset hc)
  | @comment gap text comment hg hc =>
    obtain ⟨tail, rfl⟩ := hc.exists_cons
    have hmark : isLineEnd '#' = false := by decide
    have hc' := hc.dropEnd
    rw [show '#' :: tail = [] ++ '#' :: tail from rfl, dropEndWhile_append_cons hmark] at hc'
    rw [dropEndWhile_append_cons hmark]
    exact .comment hg hc'
  | @default gap value text _ hg hv hstart hc =>
    obtain ⟨value', text', heq, hv', ht, hc'⟩ := exists_value_dropEnd gap hv hc
    rw [heq, ← ht]
    exact .default hg hv' (ht ▸ hstart) hc'

theorem ConstantEnd.append {s : Scalar} {value : String} {comment : Option String}
    (h : ConstantEnd s cs value comment) (he : ∀ c ∈ ends, isLineEnd c = true) :
    ConstantEnd s (cs ++ ends) value comment := by
  cases h with
  | string =>
    have ht : trim (cs ++ ends) = trim cs := trim_append_right (allBlank_of_isLineEnd he)
    rw [← ht]
    exact .string _
  | other hs hv hc =>
    obtain ⟨value', text', heq, hv', ht, hc'⟩ := exists_value_append hv hc he
    rw [heq, ← ht]
    exact .other hs hv' hc'

theorem ConstantEnd.dropEnd {s : Scalar} {value : String} {comment : Option String}
    (h : ConstantEnd s cs value comment) :
    ConstantEnd s (dropEndWhile isLineEnd cs) value comment := by
  cases h with
  | string =>
    have ht : trim (dropEndWhile isLineEnd cs) = trim cs :=
      trim_dropEndWhile fun _ => isBlank_of_isLineEnd
    rw [← ht]
    exact .string _
  | other hs hv hc =>
    obtain ⟨value', text', heq, hv', ht, hc'⟩ := exists_value_dropEnd [] hv hc
    rw [List.nil_append] at heq
    rw [heq, ← ht]
    exact .other hs hv' hc'

end SchemaBridge.RosText
