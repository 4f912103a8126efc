import SchemaBridge.Proofs.GeneratedMessages

/-!
# Generated text can be parsed

The text of a generated message can be parsed under its own path exactly if the name of the message
begins with a letter and its references can be spelled (`Message.Spelled`, `parse_generated`,
`spelled_of_parse`). The message then comes back under its name, with the fields spelled as they were
written, in the package of the last directory.
-/

namespace SchemaBridge

open RosText Text

variable {s : Schema} {m : Message} {f : Field} {n : TypeName} {package : List String}

/-! ## Text that can be parsed -/

/-- A reference that a file of the package can spell: it needs no package, or has no more than three
words, of which the first is no scalar. -/
def TypeName.Spelled (package : List String) (n : TypeName) : Prop :=
  n.package = [] ∨ n.package = package ∨
    n.package.length ≤ 2 ∧ Scalar.ofRosKeyword? (n.package.headD "") = none

instance (package : List String) (n : TypeName) : Decidable (n.Spelled package) :=
  inferInstanceAs (Decidable (_ ∨ _ ∨ _))

/-- The message that the field refers to, if it refers to one, can be spelled. -/
def Field.Spelled (package : List String) (f : Field) : Prop :=
  ∀ n, f.type = .message n → n.Spelled package

instance (package : List String) (f : Field) : Decidable (f.Spelled package) :=
  inferInstanceAs (Decidable (∀ n, f.type = .message n → n.Spelled package))

/-- A message whose name begins with a letter, and whose references can be spelled. -/
structure Message.Spelled (package : List String) (m : Message) : Prop where
  name : isMessageName m.name = true
  references : ∀ f ∈ m.fields, f.Spelled package

instance (package : List String) (m : Message) : Decidable (m.Spelled package) :=
  decidable_of_iff (isMessageName m.name = true ∧ ∀ f ∈ m.fields, f.Spelled package)
    ⟨fun h => ⟨h.1, h.2⟩, fun h => ⟨h.name, h.references⟩⟩

/-- A word alone is a scalar or a reference. -/
theorem exists_baseSpelling {word : String} (h : IsIdentifier word.toList) :
    ∃ base, BaseSpelling word.toList base none := by
  cases hkeyword : Scalar.ofRosKeyword? word with
  | none => exact ⟨_, baseSpelling_own h hkeyword⟩
  | some k =>
    have hk := Scalar.ofRosKeyword?_eq_some_iff.1 hkeyword
    exact ⟨_, .scalar (by rwa [String.ofList_toList])⟩

theorem toList_intercalate_slash (first : String) (more : List String) :
    ("/".intercalate (first :: more)).toList =
      first.toList ++ (more.map String.toList).flatMap ('/' :: ·) := by
  induction more generalizing first with
  | nil => simp
  | cons second more ih => simp [String.intercalate_cons_cons, ih]

/-- Up to three words are a reference, if the first one is no scalar. -/
theorem baseSpelling_words {first : String} {more : List String}
    (hfirst : IsIdentifier first.toList) (hkeyword : Scalar.ofRosKeyword? first = none)
    (hlength : more.length ≤ 2) (hmore : ∀ word ∈ more, IsIdentifier word.toList) :
    BaseSpelling ("/".intercalate (first :: more)).toList
      (.named ("/".intercalate (first :: more))) none := by
  have hk : ∀ s : Scalar, s.rosKeyword? ≠ some (String.ofList first.toList) := by
    rw [String.ofList_toList]
    exact ofRosKeyword?_eq_none_iff.1 hkeyword
  have hspelling := BaseSpelling.named hfirst hk (show (more.map String.toList).length ≤ 2 by
    simpa using hlength) (List.forall_mem_map.2 hmore)
  rwa [← toList_intercalate_slash, String.ofList_toList] at hspelling

/-- A name that is not left bare is spelled as its package and its innermost segment. -/
theorem nameText_eq_intercalate (hempty : n.package ≠ []) (hother : n.package ≠ package) :
    nameText package n = "/".intercalate (n.package ++ [n.name]) := by
  have hwords : ∀ first : String, ∀ more : List String,
      "/".intercalate (first :: more) ++ "/" ++ n.name =
        "/".intercalate (first :: (more ++ [n.name])) := by
    intro first more
    apply String.toList_injective
    rw [String.toList_append, String.toList_append, toList_intercalate_slash, toList_intercalate_slash]
    simp
  rw [nameText, if_neg (by simp [hempty, hother])]
  obtain ⟨first, more, hpackage⟩ := List.exists_cons_of_ne_nil hempty
  rw [hpackage, hwords, List.cons_append]

theorem exists_baseSpelling_typeText {type : TypeRef} (h : type.IsGenerated)
    (hspelled : ∀ n, type = .message n → n.Spelled package) :
    ∃ base, BaseSpelling (typeText package type).toList base none := by
  cases h with
  | @scalar k hk => exact ⟨_, .scalar (by simpa [typeText] using hk)⟩
  | wellKnown w =>
    obtain ⟨outer, name, hrosName, houter, hkeyword, hname⟩ := exists_rosName w
    rw [typeText, hrosName]
    exact ⟨_, baseSpelling_qualified houter hkeyword hname⟩
  | @message n hn =>
    have hsegments : ∀ word ∈ n.flat.package ++ [n.flat.name], IsIdentifier word.toList :=
      hn.flat.segments
    by_cases hbare : n.flat.package = [] ∨ n.flat.package = package
    · rw [typeText, nameText, if_pos hbare]
      exact exists_baseSpelling (hsegments _ (by simp))
    · obtain ⟨hempty, hother⟩ := not_or.1 hbare
      obtain ⟨hlength, hkeyword⟩ := ((hspelled _ rfl).resolve_left hempty).resolve_left hother
      obtain ⟨first, inner, hpackage⟩ := List.exists_cons_of_ne_nil hempty
      rw [typeText, nameText_eq_intercalate hempty hother]
      simp only [hpackage, List.length_cons, List.headD_cons, List.cons_append]
        at hlength hkeyword hsegments ⊢
      obtain ⟨hfirst, hinner⟩ := List.forall_mem_cons.1 hsegments
      exact ⟨_, baseSpelling_words hfirst hkeyword (by simp; omega) hinner⟩

theorem Message.IsGenerated.writable (h : m.IsGenerated) (hspelled : m.Spelled package) :
    Writable package m where
  name := hspelled.name
  fields f hf := by
    obtain ⟨hname, htype, hcomments⟩ := h.fields f hf
    exact ⟨hname, exists_baseSpelling_typeText htype (hspelled.references f hf), hcomments⟩
  constants := h.constants
  comments := h.comments
  distinct := h.distinct

theorem isPathPart_of_isIdentifier {segment : String} (h : IsIdentifier segment.toList) :
    IsPathPart segment ∧ segment ≠ "." := by
  have hsegment := isSegment_of_isIdentifier h
  refine ⟨⟨hsegment.1, fun hm => ?_, fun hm => ?_⟩, fun heq => hsegment.2 (by simp [heq])⟩
  · exact absurd (h.forall _ hm) (by decide)
  · exact absurd (h.forall _ hm) (by decide)

/-- The text of a generated message is parsed under its own path, if it can be spelled: the message
comes back under its name, in the package of the last directory. -/
theorem parse_generated (h : m.IsGenerated)
    (hpackage : ∀ segment ∈ package, IsIdentifier segment.toList) (hspelled : m.Spelled package) :
    parse (render package m) (rosFileName package m.name) =
      .ok
        { name := rosFileName package m.name
          dialect := .ros
          package := packageOf package
          messages := [rereadMessage package m.name m] } := by
  refine parse_render (h.writable hspelled) ?_
  rw [namedByPath_rosFileName_eq_ok_iff (fun segment hsegment =>
    isPathPart_of_isIdentifier (hpackage segment hsegment)) h.name.forall]
  exact ⟨hspelled.name, rfl, rfl⟩

/-! ## Text that cannot be parsed -/

theorem slashWords_full {more : List (List Char)} {rest : List Char}
    (hm : ∀ word ∈ more, IsIdentifier word) (hstop : StopsAt isWordChar rest) :
    slashWords more.length (more.flatMap ('/' :: ·) ++ rest) = (more.flatMap ('/' :: ·), rest) := by
  induction more with
  | nil => rw [List.length_nil, List.flatMap_nil, List.nil_append, slashWords]; simp
  | cons word more ih =>
    obtain ⟨hword, hmore⟩ := List.forall_mem_cons.1 hm
    have hnext : StopsAt isWordChar (more.flatMap ('/' :: ·) ++ rest) := by
      cases more with
      | nil => exact hstop
      | cons => exact stopsAt_cons.2 (by decide)
    have hread := identifier?_eq_some_iff.2 ⟨hword, rfl, hnext⟩
    rw [List.flatMap_cons, List.length_cons, List.append_assoc, List.cons_append, slashWords]
    simp only [hread, ih hmore, List.cons_append]

/-- A type is read no further than to a slash after a scalar, or after a third word. -/
theorem exists_fieldType?_slash {first : List Char} {more : List (List Char)} {rest : List Char}
    (hfirst : IsIdentifier first) (hmore : ∀ word ∈ more, IsIdentifier word) (hne : more ≠ [])
    (h : Scalar.ofRosKeyword? (String.ofList first) ≠ none ∨ 2 < more.length) :
    ∃ t tail, fieldType? (first ++ (more.flatMap ('/' :: ·) ++ rest)) = some (t, '/' :: tail) := by
  have hslash : ∀ {left : List (List Char)}, left ≠ [] →
      ∃ tail, left.flatMap ('/' :: ·) ++ rest = '/' :: tail := by
    intro left hleft
    obtain ⟨word, left, rfl⟩ := List.exists_cons_of_ne_nil hleft
    exact ⟨_, rfl⟩
  have hsuffix : ∀ tail, arraySuffix? ('/' :: tail) = none := fun _ => rfl
  have hbound : ∀ tail, lengthBound? ('/' :: tail) = none := fun _ => rfl
  obtain ⟨tail, htail⟩ := hslash hne
  have hread : identifier? (first ++ (more.flatMap ('/' :: ·) ++ rest)) =
      some (first, more.flatMap ('/' :: ·) ++ rest) :=
    identifier?_eq_some_iff.2 ⟨hfirst, rfl, by rw [htail]; exact stopsAt_cons.2 (by decide)⟩
  cases hkeyword : Scalar.ofRosKeyword? (String.ofList first) with
  | some k =>
    refine ⟨{ base := .scalar k }, tail, ?_⟩
    rw [htail] at hread ⊢
    simp only [fieldType?, baseType?, hread, hkeyword, optionally, hbound, ite_self, hsuffix]
  | none =>
    have hlength := h.resolve_left (absurd hkeyword)
    obtain ⟨tail, htail⟩ := hslash (show more.drop 2 ≠ [] by simpa using hlength)
    have hwords : slashWords 2 (more.flatMap ('/' :: ·) ++ rest) =
        ((more.take 2).flatMap ('/' :: ·), '/' :: tail) := by
      have htwo : ∀ word ∈ more.take 2, IsIdentifier word := fun word hword =>
        hmore word (List.mem_of_mem_take hword)
      have hstop : StopsAt isWordChar ('/' :: tail) := stopsAt_cons.2 (by decide)
      have hfull := slashWords_full htwo hstop
      rw [List.length_take, Nat.min_eq_left (by omega), ← htail, ← List.append_assoc,
        ← List.flatMap_append, List.take_append_drop, htail] at hfull
      exact hfull
    simp only [fieldType?, baseType?, hread, hkeyword, hwords, optionally, hsuffix]
    exact ⟨_, tail, rfl⟩

/-- The type of a declaration is read up to the gap after it. -/
theorem exists_fieldType?_gap {line : List Char} {d : Line} (h : RosText.Declares line d) :
    ∃ t gap rest, fieldType? (trimStart line) = some (t, gap ++ rest) ∧ IsGap gap := by
  cases d with
  | blank => exact h.elim
  | comment text => exact h.elim
  | field f =>
    obtain ⟨indent, type, gap, name, rest, rfl, hi, ht, hg, -⟩ := h
    rw [trimStart_indent hi ht]
    exact ⟨_, gap, _, fieldType?_append ht hg, hg⟩
  | constant c =>
    obtain ⟨indent, keyword, gap, name, space, literal, rfl, hi, hs, hg, -⟩ := h
    rw [trimStart_indent hi (keyword_typeSpelling hs)]
    exact ⟨_, gap, _, fieldType?_append (keyword_typeSpelling hs) hg, hg⟩

/-- A line is not read if its type ends before a slash. -/
theorem read_ne_ok_of_slash {first tail rest : List Char} {t : FieldType} {d : Line}
    (hfirst : IsIdentifier first) (h : fieldType? (first ++ rest) = some (t, '/' :: tail)) :
    Line.read (first ++ rest) ≠ .ok d := by
  intro hread
  have hstart : StopsAt isBlank (first ++ rest) :=
    hfirst.stopsAt fun _ => not_isBlank_of_isWordStart
  have hmark : StopsAt (· = '#') (first ++ rest) := hfirst.stopsAt fun c hc => by
    have hne : c ≠ '#' := by
      rintro rfl
      exact absurd hc (by decide)
    simpa using hne
  have htrim := trimStart_of_stopsAt hstart
  have hblank : ¬ AllBlank (first ++ rest) := by
    rw [← trimStart_eq_nil_iff, htrim]
    simp [hfirst.ne_nil]
  have hhead : (trimStart (first ++ rest)).head? ≠ some '#' := by
    rw [htrim]
    exact fun heq => by simpa using hmark _ heq
  rw [read_declaration_iff hblank hhead] at hread
  obtain ⟨t', gap, rest', htype, hgap⟩ := exists_fieldType?_gap hread
  rw [htrim, h] at htype
  obtain ⟨c, gap, rfl⟩ := List.exists_cons_of_ne_nil hgap.1
  obtain ⟨-, hslash⟩ := Prod.mk.inj (Option.some.inj htype)
  obtain rfl := (List.cons.inj hslash).1
  exact absurd (hgap.2 _ (List.mem_cons_self ..)) (by decide)

/-- Every line that is written is read, if the text can be parsed. -/
theorem exists_read_of_parse {path text : String} (h : parse (render package m) path = .ok s)
    (htext : text ∈ messageLines package m) (hline : '\n' ∉ text.toList) :
    ∃ line, Line.read text.toList = .ok line := by
  have hmark : withoutMark (render package m).toList = (render package m).toList := by
    simp [render, messageLines, unlines, header, withoutMark]
  have hmem : dropReturn text.toList ∈ lines (render package m).toList := by
    rw [render, lines_unlines_eq]
    refine List.mem_flatMap.2 ⟨text, htext, ?_⟩
    rw [List.splitOn_eq_singleton hline]
    exact List.mem_singleton_self _
  unfold parse at h
  split at h
  · cases h
  · split at h
    · cases h
    · next found hfound =>
      rw [hmark] at hfound
      obtain ⟨line, -, hread⟩ := exists_of_mem_left (readLines_eq_ok_iff.1 hfound).1 _ hmem
      exact ⟨line, (read_dropReturn _).symm.trans hread⟩

/-- A reference can be spelled if the line that has it is read. -/
theorem spelled_of_read {line : Line} (hn : n.OfIdentifiers) (hf : f.type = .message n.flat)
    (h : Line.read (fieldText package f).toList = .ok line) : n.flat.Spelled package := by
  by_contra hspelled
  obtain ⟨hempty, hspelled⟩ := not_or.1 hspelled
  obtain ⟨hother, hlong⟩ := not_or.1 hspelled
  obtain ⟨first, inner, hpackage⟩ := List.exists_cons_of_ne_nil hempty
  have hsegments : ∀ word ∈ n.flat.package ++ [n.flat.name], IsIdentifier word.toList :=
    hn.flat.segments
  have htext := nameText_eq_intercalate hempty hother
  rw [hpackage, List.cons_append] at hsegments htext
  obtain ⟨hfirst, hinner⟩ := List.forall_mem_cons.1 hsegments
  have hline : (fieldText package f).toList =
      first.toList ++ (((inner ++ [n.flat.name]).map String.toList).flatMap ('/' :: ·) ++
        ((if f.repeated then "[]" else "") ++ " " ++ f.name).toList) := by
    rw [fieldText, hf, typeText, htext]
    simp only [String.toList_append, toList_intercalate_slash, List.append_assoc]
  have hlength : Scalar.ofRosKeyword? (String.ofList first.toList) ≠ none ∨
      2 < ((inner ++ [n.flat.name]).map String.toList).length := by
    rw [hpackage] at hlong
    by_contra hshort
    obtain ⟨hkeyword, hshort⟩ := not_or.1 hshort
    refine hlong ⟨?_, ?_⟩
    · simpa using hshort
    · simpa using hkeyword
  obtain ⟨t, tail, htype⟩ := exists_fieldType?_slash hfirst (List.forall_mem_map.2 hinner) (by simp)
    hlength
  rw [hline] at h
  exact read_ne_ok_of_slash hfirst htype h

theorem newline_not_mem_nameText (hn : n.OfIdentifiers) : '\n' ∉ (nameText package n.flat).toList := by
  have hsegments : ∀ word ∈ n.flat.package ++ [n.flat.name], IsIdentifier word.toList :=
    hn.flat.segments
  by_cases hbare : n.flat.package = [] ∨ n.flat.package = package
  · rw [nameText, if_pos hbare]
    exact newline_not_mem_of_isIdentifier (hsegments _ (by simp))
  · obtain ⟨hempty, hother⟩ := not_or.1 hbare
    obtain ⟨first, inner, hpackage⟩ := List.exists_cons_of_ne_nil hempty
    rw [nameText_eq_intercalate hempty hother]
    rw [hpackage, List.cons_append] at hsegments ⊢
    obtain ⟨hfirst, hinner⟩ := List.forall_mem_cons.1 hsegments
    rw [toList_intercalate_slash]
    exact newline_not_mem_words hfirst (List.forall_mem_map.2 hinner)

/-- The text of a generated message can be parsed only if the message can be spelled. -/
theorem spelled_of_parse (h : m.IsGenerated)
    (hpackage : ∀ segment ∈ package, IsIdentifier segment.toList)
    (hparse : parse (render package m) (rosFileName package m.name) = .ok s) : m.Spelled package := by
  obtain ⟨directories, name, -, hpath, -⟩ := exists_lines_of_parse hparse
  rw [namedByPath_rosFileName_eq_ok_iff (fun segment hsegment =>
    isPathPart_of_isIdentifier (hpackage segment hsegment)) h.name.forall] at hpath
  refine ⟨hpath.1, fun f hf k hk => ?_⟩
  obtain ⟨hname, htype, -⟩ := h.fields f hf
  rw [hk] at htype
  cases htype with
  | @message n hn =>
    have hmem : fieldText package f ∈ messageLines package m := by
      simp only [messageLines, fieldLines, List.mem_append, List.mem_flatMap]
      exact .inl (.inr ⟨f, hf, .inr (List.mem_singleton_self _)⟩)
    have htext : '\n' ∉ (fieldText package f).toList := by
      have hreference : '\n' ∉ (nameText package n.flat).toList := newline_not_mem_nameText hn
      have hword := newline_not_mem_of_isIdentifier hname
      rw [fieldText, hk, typeText]
      split <;> simp [hreference, hword]
    obtain ⟨line, hread⟩ := exists_read_of_parse hparse hmem htext
    exact spelled_of_read hn hk hread

end SchemaBridge
