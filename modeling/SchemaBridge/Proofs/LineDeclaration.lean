import SchemaBridge.Proofs.LineReading

/-!
# Lines are read by their grammar

`Line.read` finds a declaration on a line exactly if the line is one by the grammar, and finds the
pieces that the grammar names (`Declares`).

* `fieldLine_eq_ok_iff`, `constantLine?_eq_some_iff`: the two forms of a declaration.
* `constantLine?_eq_none`: no field is read as a constant, so that trying constants first does no
  harm.
* `declares_of_declaration`, `declaration_of_declares`: the text of a line without its end.
* `declares_dropEnd`: the end of a line is blank text of its last part.
* `read_eq_ok_iff`: a whole line.
-/

namespace SchemaBridge.RosText

open Text

variable {cs rest text line start left : List Char}

/-! ## The two forms of a declaration -/

/-- A field: its type and its name, and what may follow the name. Columns count the bytes before. -/
def DeclaresField (line : List Char) (f : FieldLine) : Prop :=
  ∃ indent type gap name rest, line = indent ++ (type ++ (gap ++ (name ++ rest))) ∧
    AllBlank indent ∧ TypeSpelling type f.type ∧ IsGap gap ∧ IsIdentifier name ∧
    FieldEnd rest f.default f.comment ∧ f.name = String.ofList name ∧
    f.nameColumn = byteLength (indent ++ (type ++ gap)) + 1

/-- A constant: the keyword of a scalar and a name, an equals sign, and what may follow it. -/
def DeclaresConstant (line : List Char) (c : ConstantLine) : Prop :=
  ∃ indent keyword gap name space literal,
    line = indent ++ (keyword ++ (gap ++ (name ++ (space ++ '=' :: literal)))) ∧
    AllBlank indent ∧ c.type.rosKeyword? = some (String.ofList keyword) ∧ IsGap gap ∧
    IsIdentifier name ∧ (∀ d ∈ space, isGap d = true) ∧ ConstantEnd c.type literal c.value c.comment ∧
    c.name = String.ofList name ∧ c.nameColumn = byteLength (indent ++ (keyword ++ gap)) + 1

/-- The line is a declaration of the given pieces. -/
def Declares (line : List Char) : Line → Prop
  | .field f => DeclaresField line f
  | .constant c => DeclaresConstant line c
  | .blank => False
  | .comment _ => False

/-! ## The readers of the two forms -/

theorem byteLength_append (as bs : List Char) :
    byteLength (as ++ bs) = byteLength as + byteLength bs := by
  induction as with
  | nil => simp [byteLength]
  | cons a as ih =>
    have hcons : ∀ cs, byteLength (a :: cs) = a.utf8Size + byteLength cs := fun _ => rfl
    rw [List.cons_append, hcons, hcons, ih, Nat.add_assoc]

theorem columnOf_append (before rest : List Char) :
    columnOf (before ++ rest) rest = byteLength before + 1 := by
  rw [columnOf, byteLength_append]
  omega

theorem gap?_append {gap name : List Char} (hg : IsGap gap) (hn : IsIdentifier name) :
    gap? (gap ++ (name ++ rest)) = some (name ++ rest) :=
  gap?_eq_some_iff.2 ⟨gap, hg, rfl, hn.stopsAt fun _ => not_isGap_of_isWordStart⟩

theorem fieldType?_append {type gap : List Char} {t : FieldType} (ht : TypeSpelling type t)
    (hg : IsGap gap) : fieldType? (type ++ (gap ++ rest)) = some (t, gap ++ rest) := by
  obtain ⟨c, gap, rfl⟩ := List.exists_cons_of_ne_nil hg.1
  exact fieldType?_complete ht (hg.2 c (List.mem_cons_self ..))

/-- What is left of a line after type and name does not depend on how the line is taken apart. -/
theorem rest_unique {type type' gap gap' name name' rest rest' : List Char} {t t' : FieldType}
    (ht : TypeSpelling type t) (ht' : TypeSpelling type' t') (hg : IsGap gap) (hg' : IsGap gap')
    (hn : IsIdentifier name) (hn' : IsIdentifier name') (hr : StopsAt isWordChar rest)
    (hr' : StopsAt isWordChar rest')
    (h : type ++ (gap ++ (name ++ rest)) = type' ++ (gap' ++ (name' ++ rest'))) : rest = rest' := by
  have h1 : gap ++ (name ++ rest) = gap' ++ (name' ++ rest') := by
    have : fieldType? (type ++ (gap ++ (name ++ rest))) = some (t, gap ++ (name ++ rest)) :=
      fieldType?_append ht hg
    rw [h, fieldType?_append ht' hg'] at this
    simpa using (congrArg Prod.snd (Option.some.inj this)).symm
  have h2 : name ++ rest = name' ++ rest' := by
    have : gap? (gap ++ (name ++ rest)) = some (name ++ rest) := gap?_append hg hn
    rw [h1, gap?_append hg' hn'] at this
    exact (Option.some.inj this).symm
  have h3 : identifier? (name ++ rest) = some (name, rest) := identifier?_eq_some_iff.2 ⟨hn, rfl, hr⟩
  rw [h2, identifier?_eq_some_iff.2 ⟨hn', rfl, hr'⟩] at h3
  simpa using (congrArg Prod.snd (Option.some.inj h3)).symm

theorem fieldLine_eq_ok_iff {f : FieldLine} :
    fieldLine line start = .ok (f, left) ↔
      ∃ type gap name rest, start = type ++ (gap ++ (name ++ rest)) ∧ TypeSpelling type f.type ∧
        IsGap gap ∧ IsIdentifier name ∧ StopsAt isWordChar rest ∧ f.name = String.ofList name ∧
        f.nameColumn = columnOf line (name ++ rest) ∧
        fieldEnd rest = (f.default, f.comment, left) := by
  constructor
  · intro h
    unfold fieldLine at h
    split at h
    · cases h
    · next t tail ht =>
      obtain ⟨type, htype, rfl⟩ := fieldType?_sound ht
      split at h
      · cases h
      · next named hnamed =>
        obtain ⟨gap, hg, rfl, -⟩ := gap?_eq_some_iff.1 hnamed
        split at h
        · cases h
        · next name rest hname =>
          obtain ⟨hid, rfl, hr⟩ := identifier?_eq_some_iff.1 hname
          simp only [Except.ok.injEq, Prod.mk.injEq] at h
          obtain ⟨rfl, rfl⟩ := h
          exact ⟨type, gap, name, rest, rfl, htype, hg, hid, hr, rfl, rfl, rfl⟩
  · rintro ⟨type, gap, name, rest, rfl, ht, hg, hn, hr, hname, hcol, hend⟩
    have hread : identifier? (name ++ rest) = some (name, rest) :=
      identifier?_eq_some_iff.2 ⟨hn, rfl, hr⟩
    obtain ⟨t, fname, column, default, comment⟩ := f
    simp only at ht hname hcol hend
    simp only [fieldEnd, Prod.mk.injEq] at hend
    obtain ⟨hdefault, hcomment⟩ := hend
    simp only [fieldLine, fieldType?_append ht hg, gap?_append hg hn, hread, hname, hcol, hdefault,
      hcomment]

theorem constantLine?_eq_some_iff {c : ConstantLine} :
    constantLine? line start = some c ↔
      ∃ keyword gap name space literal,
        start = keyword ++ (gap ++ (name ++ (space ++ '=' :: literal))) ∧
        c.type.rosKeyword? = some (String.ofList keyword) ∧ IsGap gap ∧ IsIdentifier name ∧
        (∀ d ∈ space, isGap d = true) ∧ ConstantEnd c.type literal c.value c.comment ∧
        c.name = String.ofList name ∧
        c.nameColumn = columnOf line (name ++ (space ++ '=' :: literal)) := by
  constructor
  · intro h
    simp only [constantLine?, Option.bind_eq_bind, Option.bind_eq_some_iff, Prod.exists] at h
    obtain ⟨keyword, tail, hk, s, hs, named, hnamed, name, after, hname, literal, he, h⟩ := h
    obtain ⟨-, rfl, -⟩ := identifier?_eq_some_iff.1 hk
    obtain ⟨gap, hg, rfl, -⟩ := gap?_eq_some_iff.1 hnamed
    obtain ⟨hn, rfl, -⟩ := identifier?_eq_some_iff.1 hname
    obtain ⟨space, hspace, rfl⟩ := afterEquals?_eq_some_iff.1 he
    have hs := Scalar.ofRosKeyword?_eq_some_iff.1 hs
    refine ⟨keyword, gap, name, space, literal, rfl, ?_⟩
    by_cases hstring : s = .string
    · rw [if_pos hstring] at h
      obtain rfl := Option.some.inj h
      subst hstring
      exact ⟨hs, hg, hn, hspace, .string literal, rfl, rfl⟩
    · rw [if_neg hstring] at h
      split at h
      · cases h
      · next hv =>
        obtain rfl := Option.some.inj h
        exact ⟨hs, hg, hn, hspace, (constantEnd_iff hstring).2 ⟨by simpa using hv, rfl, rfl⟩, rfl,
          rfl⟩
  · rintro ⟨keyword, gap, name, space, literal, rfl, hs, hg, hn, hspace, hend, hname, hcol⟩
    obtain ⟨s, cname, column, value, comment⟩ := c
    simp only at hs hend hname hcol
    have hafter := stopsAt_equals hspace literal
    have hk : identifier? (keyword ++ (gap ++ (name ++ (space ++ '=' :: literal)))) =
        some (keyword, gap ++ (name ++ (space ++ '=' :: literal))) :=
      identifier?_eq_some_iff.2 ⟨isIdentifier_of_rosKeyword? hs, rfl,
        hg.stopsAt fun _ => not_isWordChar_of_isBlank⟩
    have hread : identifier? (name ++ (space ++ '=' :: literal)) = some (name, space ++ '=' :: literal) :=
      identifier?_eq_some_iff.2 ⟨hn, rfl, hafter⟩
    simp only [constantLine?, Option.bind_eq_bind, hk, Option.bind_some,
      Scalar.ofRosKeyword?_eq_some_iff.2 hs, gap?_append hg hn, hread,
      afterEquals?_eq_some_iff.2 ⟨space, hspace, rfl⟩, ← hname, ← hcol]
    by_cases hstring : s = .string
    · subst hstring
      rw [if_pos rfl]
      cases hend with
      | string => rfl
      | other hs => exact absurd rfl hs
    · rw [if_neg hstring]
      obtain ⟨hne, rfl, rfl⟩ := (constantEnd_iff hstring).1 hend
      rw [if_neg (by simpa using hne)]

/-- No field is read as a constant. -/
theorem constantLine?_eq_none {type gap name : List Char} {t : FieldType}
    {default comment : Option String} (ht : TypeSpelling type t) (hg : IsGap gap)
    (hn : IsIdentifier name) (he : FieldEnd rest default comment) :
    constantLine? line (type ++ (gap ++ (name ++ rest))) = none := by
  cases hc : constantLine? line (type ++ (gap ++ (name ++ rest))) with
  | none => rfl
  | some c =>
    obtain ⟨keyword, gap', name', space, literal, heq, hs, hg', hn', hspace, -, -, -⟩ :=
      constantLine?_eq_some_iff.1 hc
    have hkeyword : TypeSpelling keyword ⟨.scalar c.type, none, none⟩ :=
      ⟨keyword, [], by simp, .scalar hs, .single⟩
    have hstop := stopsAt_equals hspace literal
    obtain rfl := rest_unique ht hkeyword hg hg' hn hn' he.stopsAt hstop heq
    exact absurd he (not_fieldEnd_equals hspace)

/-! ## Lines -/

/-- A type begins with an identifier. -/
theorem TypeSpelling.exists_identifier {type : List Char} {t : FieldType}
    (ht : TypeSpelling type t) : ∃ word more, IsIdentifier word ∧ type = word ++ more := by
  obtain ⟨base, suffix, rfl, hb, -⟩ := ht
  generalize t.base = b at hb
  generalize t.stringBound = bound at hb
  cases hb with
  | scalar hs => exact ⟨_, _, isIdentifier_of_rosKeyword? hs, rfl⟩
  | bounded hs => exact ⟨_, _, isIdentifier_of_rosKeyword? hs, List.append_assoc ..⟩
  | named hf => exact ⟨_, _, hf, List.append_assoc ..⟩

theorem TypeSpelling.stopsAt {type : List Char} {t : FieldType} (ht : TypeSpelling type t) :
    StopsAt isBlank (type ++ rest) := by
  obtain ⟨word, more, hw, rfl⟩ := ht.exists_identifier
  rw [List.append_assoc]
  exact hw.stopsAt fun _ => not_isBlank_of_isWordStart

theorem columnOf_named (indent type gap named : List Char) :
    columnOf (indent ++ (type ++ (gap ++ named))) named = byteLength (indent ++ (type ++ gap)) + 1 := by
  have h : indent ++ (type ++ (gap ++ named)) = (indent ++ (type ++ gap)) ++ named := by simp
  rw [h, columnOf_append]

theorem trimStart_indent {indent type : List Char} {t : FieldType} (hi : AllBlank indent)
    (ht : TypeSpelling type t) : trimStart (indent ++ (type ++ rest)) = type ++ rest := by
  rw [trimStart_append hi, trimStart_of_stopsAt ht.stopsAt]

theorem keyword_typeSpelling {s : Scalar} {keyword : List Char}
    (hs : s.rosKeyword? = some (String.ofList keyword)) :
    TypeSpelling keyword ⟨.scalar s, none, none⟩ :=
  ⟨keyword, [], by simp, .scalar hs, .single⟩

theorem declares_of_declaration {d : Line} (h : declaration line (trimStart line) = .ok d) :
    Declares line d := by
  obtain ⟨indent, hline, hi⟩ := exists_trimStart line
  unfold declaration at h
  split at h
  · next c hc =>
    obtain rfl := Except.ok.inj h
    obtain ⟨keyword, gap, name, space, literal, hstart, hs, hg, hn, hspace, hend, hname, hcol⟩ :=
      constantLine?_eq_some_iff.1 hc
    rw [hstart] at hline
    rw [hline, columnOf_named] at hcol
    exact ⟨indent, keyword, gap, name, space, literal, hline, hi, hs, hg, hn, hspace, hend, hname,
      hcol⟩
  · split at h
    · cases h
    · next f left hf =>
      split at h
      · next hleft =>
        obtain rfl := Except.ok.inj h
        obtain ⟨type, gap, name, rest, hstart, ht, hg, hn, -, hname, hcol, hend⟩ :=
          fieldLine_eq_ok_iff.1 hf
        rw [hstart] at hline
        rw [hline, columnOf_named] at hcol
        exact ⟨indent, type, gap, name, rest, hline, hi, ht, hg, hn,
          grammar_of_fieldEnd hend (trimStart_eq_nil_iff.1 hleft), hname, hcol⟩
      · cases h

theorem declaration_of_declares {d : Line} (h : Declares line d) :
    declaration line (trimStart line) = .ok d := by
  cases d with
  | blank => exact h.elim
  | comment text => exact h.elim
  | constant c =>
    obtain ⟨indent, keyword, gap, name, space, literal, rfl, hi, hs, hg, hn, hspace, hend, hname,
      hcol⟩ := h
    rw [← columnOf_named indent keyword gap (name ++ (space ++ '=' :: literal))] at hcol
    rw [trimStart_indent hi (keyword_typeSpelling hs)]
    have hc := constantLine?_eq_some_iff.2
      ⟨keyword, gap, name, space, literal, rfl, hs, hg, hn, hspace, hend, hname, hcol⟩
    rw [declaration, hc]
  | field f =>
    obtain ⟨indent, type, gap, name, rest, rfl, hi, ht, hg, hn, hend, hname, hcol⟩ := h
    rw [← columnOf_named indent type gap (name ++ rest)] at hcol
    rw [trimStart_indent hi ht]
    obtain ⟨left, hread, hleft⟩ := fieldEnd_of_grammar hend
    have hf := fieldLine_eq_ok_iff.2
      ⟨type, gap, name, rest, rfl, ht, hg, hn, hend.stopsAt, hname, hcol, hread⟩
    simp only [declaration, constantLine?_eq_none ht hg hn hend, hf, trimStart_eq_nil_iff.2 hleft]

/-- A line that ends in a name and some text loses nothing of the name with its end. -/
theorem dropEnd_append_identifier {name : List Char} (before : List Char) (hn : IsIdentifier name) :
    dropEndWhile isLineEnd (before ++ (name ++ rest)) =
      before ++ (name ++ dropEndWhile isLineEnd rest) := by
  obtain ⟨word, c, rfl⟩ := (List.eq_nil_or_concat' name).resolve_left hn.ne_nil
  have hc : isLineEnd c = false := by
    by_contra he
    have := isBlank_of_isLineEnd (Bool.not_eq_false _ ▸ he)
    rw [not_isBlank_of_isWordChar (hn.forall c (by simp))] at this
    cases this
  have h : before ++ ((word ++ [c]) ++ rest) = (before ++ word) ++ c :: rest := by simp
  rw [h, dropEndWhile_append_cons hc]
  simp

/-- The end of a line is no part of what it declares. -/
theorem declares_dropEnd {d : Line} : Declares (dropEndWhile isLineEnd line) d ↔ Declares line d := by
  constructor
  · obtain ⟨ends, hline, he⟩ := exists_dropEndWhile isLineEnd line
    generalize dropEndWhile isLineEnd line = text at hline
    subst hline
    intro h
    cases d with
    | blank => exact h
    | comment text => exact h
    | field f =>
      obtain ⟨indent, type, gap, name, rest, rfl, hi, ht, hg, hn, hend, hname, hcol⟩ := h
      exact ⟨indent, type, gap, name, rest ++ ends, by simp, hi, ht, hg, hn, hend.append he, hname,
        hcol⟩
    | constant c =>
      obtain ⟨indent, keyword, gap, name, space, literal, rfl, hi, hs, hg, hn, hspace, hend, hname,
        hcol⟩ := h
      exact ⟨indent, keyword, gap, name, space, literal ++ ends, by simp, hi, hs, hg, hn, hspace,
        hend.append he, hname, hcol⟩
  · intro h
    cases d with
    | blank => exact h
    | comment text => exact h
    | field f =>
      obtain ⟨indent, type, gap, name, rest, rfl, hi, ht, hg, hn, hend, hname, hcol⟩ := h
      refine ⟨indent, type, gap, name, dropEndWhile isLineEnd rest, ?_, hi, ht, hg, hn, hend.dropEnd,
        hname, hcol⟩
      have : dropEndWhile isLineEnd ((indent ++ (type ++ gap)) ++ (name ++ rest)) = _ :=
        dropEnd_append_identifier _ hn
      simpa using this
    | constant c =>
      obtain ⟨indent, keyword, gap, name, space, literal, rfl, hi, hs, hg, hn, hspace, hend, hname,
        hcol⟩ := h
      refine ⟨indent, keyword, gap, name, space, dropEndWhile isLineEnd literal, ?_, hi, hs, hg, hn,
        hspace, hend.dropEnd, hname, hcol⟩
      have hequals : isLineEnd '=' = false := by decide
      have : dropEndWhile isLineEnd
          ((indent ++ (keyword ++ (gap ++ (name ++ space)))) ++ '=' :: literal) = _ :=
        dropEndWhile_append_cons hequals
      simpa using this

/-- What a line says by the grammar. -/
def Says (line : List Char) : Line → Prop
  | .blank => AllBlank line
  | .comment comment => ∃ indent text, line = indent ++ text ∧ AllBlank indent ∧ IsComment text comment
  | .constant c => Declares line (.constant c)
  | .field f => Declares line (.field f)

theorem says_dropEnd {d : Line} : Says (dropEndWhile isLineEnd line) d ↔ Says line d := by
  cases d with
  | field f => exact declares_dropEnd (d := .field f)
  | constant c => exact declares_dropEnd (d := .constant c)
  | blank =>
    have ht : trim (dropEndWhile isLineEnd line) = trim line :=
      trim_dropEndWhile fun _ => isBlank_of_isLineEnd
    rw [Says, Says, ← trim_eq_nil_iff, ht, trim_eq_nil_iff]
  | comment comment =>
    constructor
    · rintro ⟨indent, text, hline, hi, hc⟩
      obtain ⟨ends, hends, he⟩ := exists_dropEndWhile isLineEnd line
      rw [hline, List.append_assoc] at hends
      exact ⟨indent, text ++ ends, hends, hi, hc.append he⟩
    · rintro ⟨indent, text, rfl, hi, hc⟩
      refine ⟨indent, dropEndWhile isLineEnd text, ?_, hi, hc.dropEnd⟩
      obtain ⟨tail, rfl⟩ := hc.exists_cons
      have hmark : isLineEnd '#' = false := by decide
      have htext : dropEndWhile isLineEnd ([] ++ '#' :: tail) = _ := dropEndWhile_append_cons hmark
      rw [dropEndWhile_append_cons hmark, ← List.nil_append ('#' :: tail), htext, List.nil_append]

/-- A declaration begins with a character that is not the mark of a comment. -/
theorem Declares.exists_cons {d : Line} (h : Declares line d) :
    ∃ c cs, trimStart line = c :: cs ∧ c ≠ '#' := by
  have htype : ∃ type rest t, trimStart line = type ++ rest ∧ TypeSpelling type t := by
    cases d with
    | blank => exact h.elim
    | comment text => exact h.elim
    | field f =>
      obtain ⟨indent, type, gap, name, rest, rfl, hi, ht, -⟩ := h
      exact ⟨type, _, _, trimStart_indent hi ht, ht⟩
    | constant c =>
      obtain ⟨indent, keyword, gap, name, space, literal, rfl, hi, hs, -⟩ := h
      have ht := keyword_typeSpelling hs
      exact ⟨keyword, _, _, trimStart_indent hi ht, ht⟩
  obtain ⟨type, rest, t, hstart, ht⟩ := htype
  obtain ⟨word, more, hw, rfl⟩ := ht.exists_identifier
  cases word with
  | nil => exact hw.elim
  | cons c word =>
    refine ⟨c, word ++ more ++ rest, hstart, ?_⟩
    rintro rfl
    exact absurd hw.1 (by decide)

theorem read_of_declares {d : Line} (h : Declares line d) : Line.read line = .ok d := by
  have hd := declares_dropEnd.2 h
  obtain ⟨c, cs, hstart, hc⟩ := hd.exists_cons
  have hnone : comment? (trimStart (dropEndWhile isLineEnd line)) = none := by
    rw [hstart]
    unfold comment?
    split
    · next heq => exact absurd (List.cons.inj heq).1 hc
    · rfl
  have hne : (trimStart (dropEndWhile isLineEnd line)).isEmpty = false := by simp [hstart]
  simp only [Line.read, hne, hnone, Bool.false_eq_true, if_false]
  exact declaration_of_declares hd

theorem read_of_grammar {d : Line} (h : Says line d) : Line.read line = .ok d := by
  cases d with
  | constant c => exact read_of_declares h
  | field f => exact read_of_declares h
  | blank =>
    have hempty := trimStart_eq_nil_iff.2 (says_dropEnd.2 h)
    simp [Line.read, hempty]
  | comment comment =>
    obtain ⟨indent, mark, hline, hi, hc⟩ := says_dropEnd.2 h
    have hread := comment?_eq_some_iff.2 hc
    obtain ⟨tail, rfl⟩ := hc.exists_cons
    have hstart : trimStart (indent ++ '#' :: tail) = '#' :: tail := by
      rw [trimStart_append hi, trimStart_of_stopsAt (stopsAt_cons.2 not_isBlank_mark)]
    simp only [Line.read, hline, hstart, List.isEmpty_cons, Bool.false_eq_true, if_false, hread]

theorem says_of_read {d : Line} (h : Line.read line = .ok d) : Says line d := by
  refine says_dropEnd.1 ?_
  unfold Line.read at h
  dsimp only at h
  split at h
  · next hempty =>
    obtain rfl := Except.ok.inj h
    exact trimStart_eq_nil_iff.1 (by simpa using hempty)
  · split at h
    · next comment hc =>
      obtain rfl := Except.ok.inj h
      obtain ⟨indent, hline, hi⟩ := exists_trimStart (dropEndWhile isLineEnd line)
      exact ⟨indent, _, hline, hi, comment?_eq_some_iff.1 hc⟩
    · have hd := declares_of_declaration h
      cases d with
      | blank => exact hd.elim
      | comment text => exact hd.elim
      | constant c => exact hd
      | field f => exact hd

/-- A line is read as what it says by the grammar. -/
theorem read_eq_ok_iff {d : Line} : Line.read line = .ok d ↔ Says line d :=
  ⟨says_of_read, read_of_grammar⟩

/-- A line that is neither blank nor a comment is read as a declaration exactly if it is one by the
grammar, and then as that one. -/
theorem read_declaration_iff {d : Line} (hblank : ¬ AllBlank line)
    (hmark : (trimStart line).head? ≠ some '#') : Line.read line = .ok d ↔ Declares line d := by
  rw [read_eq_ok_iff]
  cases d with
  | constant c => exact Iff.rfl
  | field f => exact Iff.rfl
  | blank => exact iff_of_false hblank id
  | comment comment =>
    refine iff_of_false ?_ id
    rintro ⟨indent, text, rfl, hi, hc⟩
    obtain ⟨tail, rfl⟩ := hc.exists_cons
    rw [trimStart_append hi, trimStart_of_stopsAt (stopsAt_cons.2 not_isBlank_mark)] at hmark
    exact hmark rfl

/-- A field of three points, with blanks around and a comment after it. -/
theorem read_declaration_points :
    ¬ AllBlank "\tgeo/msg/Point[<=3] corners  ## of the area\r".toList ∧
      Declares "\tgeo/msg/Point[<=3] corners  ## of the area\r".toList
        (.field
          { type := { base := .named "geo/msg/Point", array := some (.bounded 3) }
            name := "corners"
            nameColumn := 21
            comment := some "of the area" }) := by
  have hblank : ¬ AllBlank "\tgeo/msg/Point[<=3] corners  ## of the area\r".toList := by
    rw [← trimStart_eq_nil_iff]
    decide
  exact ⟨hblank, (read_declaration_iff hblank (by decide)).1 (by rfl)⟩

end SchemaBridge.RosText
