import SchemaBridge.Proofs.RenderReading

/-!
# Messages are read again as they are written

What is read of a text without line feeds is well formed (`wellRead_of_grammar`), and so a message that
was parsed can be written in a file of any package (`writable_messageOfLines`). Its fields keep their
types (`rereadField_eq`) and its comments, which were trimmed already, stay as they are
(`rereadComment_eq`).
-/

namespace SchemaBridge.RosText

open Text

variable {package : List String} {name text path : String} {found : List Line} {line : List Char}

/-! ## Lines that were read -/

/-- A comment as it is read: one line, without blanks around it. -/
def IsTrimmed (comment : String) : Prop :=
  '\n' ∉ comment.toList ∧ trim comment.toList = comment.toList

/-- What can be read of a line: names, types and values have a spelling, and comments are trimmed. -/
def WellRead : Line → Prop
  | .blank => True
  | .comment comment => IsTrimmed comment
  | .constant c =>
    IsIdentifier c.name.toList ∧ c.type.rosKeyword? = some c.type.keyword ∧
      ConstantEnd c.type c.value.toList c.value none ∧ '\n' ∉ c.value.toList ∧
      ∀ comment ∈ c.comment, IsTrimmed comment
  | .field f =>
    IsIdentifier f.name.toList ∧ (∃ spelling, BaseSpelling spelling f.type.base none) ∧
      ∀ comment ∈ f.comment, IsTrimmed comment

theorem isTrimmed_of_isComment {comment : String} (hline : '\n' ∉ line)
    (h : IsComment line comment) : IsTrimmed comment := by
  obtain ⟨marks, body, rfl, -, -, -, rfl⟩ := h
  rw [IsTrimmed, String.toList_ofList]
  refine ⟨fun hm => hline ?_, trim_trim body⟩
  exact List.mem_append_right _ (trim_subset body hm)

theorem isTrimmed_of_isOptionalComment {comment : Option String} (hline : '\n' ∉ line)
    (h : IsOptionalComment line comment) : ∀ text ∈ comment, IsTrimmed text := by
  rintro text rfl
  exact isTrimmed_of_isComment hline h

theorem isTrimmed_of_fieldEnd {default comment : Option String} (hline : '\n' ∉ line)
    (h : FieldEnd line default comment) : ∀ text ∈ comment, IsTrimmed text := by
  cases h with
  | plain => simp
  | comment hg hc =>
    intro text htext
    obtain rfl := Option.some.inj htext
    exact isTrimmed_of_isComment (fun hm => hline (List.mem_append_right _ hm)) hc
  | default hg hv he hc =>
    refine isTrimmed_of_isOptionalComment (fun hm => hline ?_) hc
    exact List.mem_append_right _ (List.mem_append_right _ hm)

/-- The value of a constant is its own spelling. -/
theorem constantEnd_value {s : Scalar} {value : String} {comment : Option String}
    (h : ConstantEnd s line value comment) : ConstantEnd s value.toList value none := by
  cases h with
  | string =>
    rw [String.toList_ofList]
    have := ConstantEnd.string (trim line)
    rwa [trim_trim] at this
  | @other _ v text comment hs hv hc =>
    have hunmarked : '#' ∉ trim v := fun hm => hv.unmarked (trim_subset v hm)
    have hne : trim (trim v) ≠ [] := by rw [trim_trim]; exact hv.ne_nil
    rw [String.toList_ofList]
    have := ConstantEnd.other hs ⟨hunmarked, hne⟩ (show IsOptionalComment [] none from rfl)
    rwa [trim_trim, List.append_nil] at this

theorem oneLine_of_constantEnd {s : Scalar} {value : String} {comment : Option String}
    (hline : '\n' ∉ line) (h : ConstantEnd s line value comment) :
    '\n' ∉ value.toList ∧ ∀ text ∈ comment, IsTrimmed text := by
  cases h with
  | string => exact ⟨fun hm => hline (trim_subset line (by simpa using hm)), by simp⟩
  | @other _ v text comment hs hv hc =>
    refine ⟨fun hm => hline ?_, isTrimmed_of_isOptionalComment (fun hm => hline ?_) hc⟩
    · exact List.mem_append_left _ (trim_subset v (by simpa using hm))
    · exact List.mem_append_right _ hm

theorem wellRead_of_grammar {d : Line} (hline : '\n' ∉ line) (h : Says line d) : WellRead d := by
  cases d with
  | blank => trivial
  | comment comment =>
    obtain ⟨indent, text, rfl, -, hc⟩ := h
    exact isTrimmed_of_isComment (fun hm => hline (List.mem_append_right _ hm)) hc
  | constant c =>
    obtain ⟨indent, keyword, gap, name, space, literal, rfl, -, hs, -, hn, -, hend, hname, -⟩ := h
    have hliteral : '\n' ∉ literal := fun hm => hline (by simp [hm])
    obtain ⟨hvalue, hcomment⟩ := oneLine_of_constantEnd hliteral hend
    refine ⟨by simpa [hname] using hn, ?_, constantEnd_value hend, hvalue, hcomment⟩
    rw [Scalar.keyword, hs]
    rfl
  | field f =>
    obtain ⟨indent, type, gap, name, rest, rfl, -, ht, -, hn, hend, hname, -⟩ := h
    have hrest : '\n' ∉ rest := fun hm => hline (by simp [hm])
    refine ⟨by simpa [hname] using hn, ?_, isTrimmed_of_fieldEnd hrest hend⟩
    obtain ⟨base, suffix, -, hb, -⟩ := ht
    generalize f.type.base = b at hb ⊢
    generalize f.type.stringBound = bound at hb
    cases hb with
    | scalar hs => exact ⟨_, .scalar hs⟩
    | bounded hs => exact ⟨_, .scalar hs⟩
    | named hf hk hl hm => exact ⟨_, .named hf hk hl hm⟩

theorem wellRead_of_forall₂ {texts : List (List Char)}
    (hread : List.Forall₂ (fun text line => Line.read text = .ok line) texts found)
    (htexts : ∀ text ∈ texts, '\n' ∉ text) : ∀ l ∈ found, WellRead l := by
  induction hread with
  | nil => simp
  | cons h _ ih =>
    obtain ⟨htext, htexts⟩ := List.forall_mem_cons.1 htexts
    exact List.forall_mem_cons.2 ⟨wellRead_of_grammar htext (says_of_read h), ih htexts⟩

/-! ## Messages that were read -/

theorem mem_allComments_add {d : Draft} {l : Line} {comment : String}
    (h : comment ∈ (d.add l).allComments) : comment ∈ d.allComments ∨ comment ∈ l.comments := by
  cases l with
  | comment text =>
    simp only [Draft.add, Draft.allComments, List.mem_append, Line.comments] at h ⊢
    tauto
  | blank =>
    rw [Draft.add] at h
    split at h
    · simp only [Draft.allComments, List.mem_append, List.not_mem_nil, or_false] at h ⊢
      tauto
    · exact .inl h
  | constant c =>
    simp only [Draft.add, Draft.allComments, Line.comments, ConstantLine.constant,
      List.flatMap_append, List.flatMap_singleton, List.mem_append, List.not_mem_nil, or_false] at h ⊢
    tauto
  | field f =>
    simp only [Draft.add, Draft.allComments, Line.comments, FieldLine.field,
      List.flatMap_append, List.flatMap_singleton, List.mem_append, List.not_mem_nil, or_false] at h ⊢
    tauto

theorem mem_allComments_foldl {d : Draft} {comment : String}
    (h : comment ∈ (found.foldl Draft.add d).allComments) :
    comment ∈ d.allComments ∨ ∃ l ∈ found, comment ∈ l.comments := by
  induction found generalizing d with
  | nil => exact .inl h
  | cons l found ih =>
    rcases ih h with h | ⟨l', hl', h⟩
    · rcases mem_allComments_add h with h | h
      · exact .inl h
      · exact .inr ⟨l, List.mem_cons_self .., h⟩
    · exact .inr ⟨l', List.mem_cons_of_mem _ hl', h⟩

/-- Every comment of a message stands on one of its lines. -/
theorem mem_allComments {comment : String} (h : comment ∈ allComments (messageOfLines name found)) :
    ∃ l ∈ found, comment ∈ l.comments := by
  have hd : comment ∈ (found.foldl Draft.add {}).allComments := by
    simp only [allComments, messageOfLines, Draft.message, List.flatMap_map, anchoredBelow,
      List.mem_append] at h
    simp only [Draft.allComments, List.mem_append]
    tauto
  rcases mem_allComments_foldl hd with h | h
  · simp [Draft.allComments] at h
  · exact h

theorem fields_messageOfLines (name : String) (found : List Line) :
    (messageOfLines name found).fields.map bareField = found.filterMap Line.field? := by
  simpa [messageOfLines, Draft.message] using fields_foldl found {}

theorem constants_messageOfLines (name : String) (found : List Line) :
    (messageOfLines name found).constants.map bareConstant = found.filterMap Line.constant? := by
  have hbare : ∀ count, bareConstant ∘ anchoredBelow count = bareConstant := fun _ => rfl
  simpa [messageOfLines, Draft.message, hbare] using constants_foldl found {}

/-- Every field of a message stands on one of its lines. -/
theorem mem_fields {f : Field} (h : f ∈ (messageOfLines name found).fields) :
    ∃ l, .field l ∈ found ∧ bareField f = bareField (l.field []) := by
  have hf : bareField f ∈ found.filterMap Line.field? := by
    rw [← fields_messageOfLines name]
    exact List.mem_map_of_mem h
  obtain ⟨line, hline, hf⟩ := List.mem_filterMap.1 hf
  cases line with
  | field l => exact ⟨l, hline, (Option.some.inj hf).symm⟩
  | blank => cases hf
  | comment text => cases hf
  | constant c => cases hf

/-- Every constant of a message stands on one of its lines. -/
theorem mem_constants {c : Constant} (h : c ∈ (messageOfLines name found).constants) :
    ∃ l, .constant l ∈ found ∧ bareConstant c = bareConstant (l.constant [] 0) := by
  have hc : bareConstant c ∈ found.filterMap Line.constant? := by
    rw [← constants_messageOfLines name]
    exact List.mem_map_of_mem h
  obtain ⟨line, hline, hc⟩ := List.mem_filterMap.1 hc
  cases line with
  | constant l => exact ⟨l, hline, (Option.some.inj hc).symm⟩
  | blank => cases hc
  | comment text => cases hc
  | field f => cases hc

theorem isTrimmed_of_mem (hfound : ∀ l ∈ found, WellRead l) {comment : String}
    (h : comment ∈ allComments (messageOfLines name found)) : IsTrimmed comment := by
  obtain ⟨l, hl, hc⟩ := mem_allComments h
  have hread := hfound l hl
  cases l with
  | blank => cases hc
  | comment text =>
    obtain rfl := List.mem_singleton.1 hc
    exact hread
  | constant c => exact hread.2.2.2.2 comment (Option.mem_toList.1 hc)
  | field f => exact hread.2.2 comment (Option.mem_toList.1 hc)

theorem rereadComment_eq {comment : String} (h : IsTrimmed comment) :
    rereadComment comment = comment := by
  rw [rereadComment, h.2, String.ofList_toList]

/-- A type that was read is written as it was spelled. -/
theorem typeText_typeRef {spelling : List Char} {base : BaseType}
    (h : BaseSpelling spelling base none) :
    typeText package base.typeRef = String.ofList spelling := by
  generalize hbound : none = bound at h
  cases h with
  | scalar hs => simp only [BaseType.typeRef, typeText, Scalar.keyword, hs]; rfl
  | bounded => cases hbound
  | named => rfl

/-- A field that was read is read again with its type, but without default value and bounds. -/
theorem rereadField_eq {f : Field} {l : FieldLine} (hf : bareField f = bareField (l.field []))
    (hl : WellRead (.field l)) :
    rereadField package f = { bareField f with default := none, bounds := [] } := by
  obtain ⟨-, ⟨spelling, hbase⟩, -⟩ := hl
  have htype : f.type = l.type.base.typeRef := congrArg Field.type hf
  have hspelled : (spelledBase (typeText package f.type)).typeRef = f.type := by
    rw [htype, typeText_typeRef hbase, ← eq_spelledBase hbase]
  have hoptional : f.optional = false := congrArg Field.optional hf
  have hordinal : f.ordinal = none := congrArg Field.ordinal hf
  simp [rereadField, bareField, hspelled, hoptional, hordinal]

/-- A message that was read can be written in a file of any package. -/
theorem writable_messageOfLines (hname : isMessageName name = true)
    (hfound : ∀ l ∈ found, WellRead l) (hdistinct : (declaredNames found).Nodup) :
    Writable package (messageOfLines name found) where
  name := hname
  fields := by
    intro f hf
    obtain ⟨l, hl, heq⟩ := mem_fields hf
    obtain ⟨hident, ⟨spelling, hbase⟩, -⟩ := hfound _ hl
    have htype : f.type = l.type.base.typeRef := congrArg Field.type heq
    refine ⟨?_, ⟨l.type.base, ?_⟩, fun comment hc => ?_⟩
    · rw [show f.name = l.name from congrArg Field.name heq]
      exact hident
    · rw [htype, typeText_typeRef hbase, String.toList_ofList]
      exact hbase
    · have hmem : comment ∈ allComments (messageOfLines name found) := by
        simp only [allComments, List.mem_append, List.mem_flatMap]
        exact .inl (.inr ⟨f, hf, hc⟩)
      exact (isTrimmed_of_mem hfound hmem).1
  constants := by
    intro c hc
    obtain ⟨l, hl, heq⟩ := mem_constants hc
    obtain ⟨hident, hkeyword, hvalue, hline, -⟩ := hfound _ hl
    have hn : c.name = l.name := congrArg Constant.name heq
    have ht : c.type = l.type := congrArg Constant.type heq
    have hv : c.value = l.value := congrArg Constant.value heq
    rw [← hn] at hident
    rw [← ht] at hkeyword hvalue
    rw [← hv] at hvalue hline
    refine ⟨hident, hkeyword, hvalue, hline, fun comment hcomment => ?_⟩
    have hmem : comment ∈ allComments (messageOfLines name found) := by
      simp only [allComments, List.mem_append, List.mem_flatMap]
      exact .inr ⟨c, hc, hcomment⟩
    exact (isTrimmed_of_mem hfound hmem).1
  comments := by
    intro comment hc
    have hmem : comment ∈ allComments (messageOfLines name found) := by
      simp only [allComments, List.mem_append]
      exact .inl (.inl hc)
    exact (isTrimmed_of_mem hfound hmem).1
  distinct := by
    have hfields := congrArg (List.map (·.name)) (fields_messageOfLines name found)
    have hconstants := congrArg (List.map (·.name)) (constants_messageOfLines name found)
    rw [List.map_map] at hfields hconstants
    rw [(declaredNames_perm found).nodup_iff, ← hfields, ← hconstants] at hdistinct
    exact hdistinct

/-- What is known of a text that was parsed. -/
theorem exists_lines_of_parse {s : Schema} (h : parse text path = .ok s) :
    ∃ directories name found, namedByPath path = .ok (directories, name) ∧
      isMessageName name = true ∧ (declaredNames found).Nodup ∧ (∀ l ∈ found, WellRead l) ∧
      s = { name := path, dialect := .ros, package := directories,
            messages := [messageOfLines name found] } := by
  unfold parse at h
  split at h
  · cases h
  · next directories name hpath =>
    split at h
    · cases h
    · next found hfound =>
      obtain ⟨hread, hdistinct, -⟩ := readLines_eq_ok_iff.1 hfound
      obtain ⟨file, -, -, hname, -⟩ := namedByPath_eq_ok_iff.1 hpath
      exact ⟨directories, name, found, hpath, hname, hdistinct,
        wellRead_of_forall₂ hread fun _ => newline_not_mem_lines, (Except.ok.inj h).symm⟩

/-- A message that was parsed is written, in a file of any package, so that parsing the text under
the same path gives the same schema again, but for the bounds and default values of the fields and
the places of the comments: two come with the header, and then there are those of the message, of
its fields and of its constants in their order. -/
theorem parse_render_parse {s : Schema} (package : List String) (h : parse text path = .ok s) :
    ∃ m m', s.messages = [m] ∧ parse (render package m) path = .ok { s with messages := [m'] } ∧
      m'.name = m.name ∧
      m'.fields.map bareField =
        m.fields.map (fun f => { bareField f with default := none, bounds := [] }) ∧
      m'.constants.map bareConstant = m.constants.map bareConstant ∧
      allComments m' = [headerText, m.name] ++ allComments m := by
  obtain ⟨directories, name, found, hpath, hname, hdistinct, hfound, rfl⟩ := exists_lines_of_parse h
  have hw : Writable package (messageOfLines name found) :=
    writable_messageOfLines hname hfound hdistinct
  refine ⟨messageOfLines name found, _, rfl, parse_render hw hpath, rfl, ?_,
    constants_rendered package name _, ?_⟩
  · rw [fields_rendered]
    refine List.map_congr_left fun f hf => ?_
    obtain ⟨l, hl, heq⟩ := mem_fields hf
    exact rereadField_eq heq (hfound _ hl)
  · have hcomments : (allComments (messageOfLines name found)).map rereadComment =
        allComments (messageOfLines name found) :=
      (List.map_congr_left fun comment hc => rereadComment_eq (isTrimmed_of_mem hfound hc)).trans
        (List.map_id _)
    rw [allComments_rendered, hcomments]

/-- The schema of a point: its field has a default value and a comment, and the value of its constant
has marks of other lines. -/
def pointSchema : Schema :=
  { name := "geo/msg/Point.msg"
    package := ["geo"]
    messages :=
      [{ name := "Point"
         fields :=
           [{ name := "x", type := .scalar .float64, default := some "1.5", comments := ["east"] }]
         constants := [{ name := "LABEL", type := .string, value := "#1 = here" }]
         comments := ["a point"] }] }

theorem parse_render_parse_point :
    parse "# a point\n\nfloat64 x 1.5 # east\nstring LABEL = #1 = here\n" "geo/msg/Point.msg" =
        .ok pointSchema ∧
      ∃ m m', pointSchema.messages = [m] ∧
        parse (render ["geo"] m) "geo/msg/Point.msg" = .ok { pointSchema with messages := [m'] } ∧
        m'.name = m.name ∧
        m'.fields.map bareField =
          m.fields.map (fun f => { bareField f with default := none, bounds := [] }) ∧
        m'.constants.map bareConstant = m.constants.map bareConstant ∧
        allComments m' = [headerText, m.name] ++ allComments m := by
  have h : parse "# a point\n\nfloat64 x 1.5 # east\nstring LABEL = #1 = here\n"
      "geo/msg/Point.msg" = .ok pointSchema := by rfl
  exact ⟨h, parse_render_parse ["geo"] h⟩

end SchemaBridge.RosText
