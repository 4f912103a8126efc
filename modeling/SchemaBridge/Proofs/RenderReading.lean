import SchemaBridge.Proofs.LineDeclaration
import SchemaBridge.Proofs.MessageLines
import SchemaBridge.Proofs.TextLines
import SchemaBridge.RosText.Printer

/-!
# What a rendered message says

A message can be written (`Writable`) if its names, types and values have the spellings of a ROS
message. Every line that is written for it is then read as the line that was meant
(`readText_messageLines`), so that the text is read as a message (`parse_render`) with the same fields
and constants (`fields_rendered`, `constants_rendered`) and with all comments in their order, after
the two comments of the header (`allComments_rendered`).
-/

namespace SchemaBridge.RosText

open Text

variable {package : List String} {m : Message} {f : Field} {c : Constant}

/-! ## Messages that can be written -/

/-- The base type that a word or a reference spells. -/
def spelledBase (text : String) : BaseType :=
  match Scalar.ofRosKeyword? text with
  | some s => .scalar s
  | none => .named text

/-- A field whose name and type have a spelling in package `package`, and whose comments are lines. -/
structure WritableField (package : List String) (f : Field) : Prop where
  name : IsIdentifier f.name.toList
  type : ∃ base, BaseSpelling (typeText package f.type).toList base none
  comments : ∀ text ∈ f.comments, '\n' ∉ text.toList

/-- A constant whose name, type and value have a spelling, and whose comments are lines. -/
structure WritableConstant (c : Constant) : Prop where
  name : IsIdentifier c.name.toList
  type : c.type.rosKeyword? = some c.type.keyword
  value : ConstantEnd c.type c.value.toList c.value none
  oneLine : '\n' ∉ c.value.toList
  comments : ∀ text ∈ c.comments, '\n' ∉ text.toList

/-- A message that can be written as the text of a file of package `package`. -/
structure Writable (package : List String) (m : Message) : Prop where
  name : isMessageName m.name = true
  fields : ∀ f ∈ m.fields, WritableField package f
  constants : ∀ c ∈ m.constants, WritableConstant c
  comments : ∀ text ∈ m.comments, '\n' ∉ text.toList
  distinct : (m.fields.map (·.name) ++ m.constants.map (·.name)).Nodup

/-- The comments of a message, then of its fields, then of its constants. -/
def allComments (m : Message) : List String :=
  m.comments ++ m.fields.flatMap (·.comments) ++ m.constants.flatMap (·.comments)

/-! ## The lines that are meant -/

/-- A comment as it is read again: without the blanks around it. -/
def rereadComment (text : String) : String := String.ofList (trim text.toList)

/-- A field as it is read again, without its comments. -/
def rereadField (package : List String) (f : Field) : Field :=
  { name := f.name, type := (spelledBase (typeText package f.type)).typeRef, repeated := f.repeated }

/-- The text of the header. -/
def headerText : String := "This file was generated. DO NOT EDIT!"

/-- The suffix of a field's type. -/
def arraySpelling (f : Field) : String := if f.repeated then "[]" else ""

/-- The line that declares a field. -/
def fieldMeant (package : List String) (f : Field) : FieldLine :=
  { type :=
      { base := spelledBase (typeText package f.type)
        array := if f.repeated then some .unbounded else none }
    name := f.name
    nameColumn := byteLength (typeText package f.type ++ arraySpelling f ++ " ").toList + 1 }

/-- The line that declares a constant. -/
def constantMeant (c : Constant) : ConstantLine :=
  { type := c.type
    name := c.name
    nameColumn := byteLength (c.type.keyword ++ " ").toList + 1
    value := c.value }

/-- The lines of some comments. -/
def commentsMeant (comments : List String) : List Line :=
  comments.map fun text => .comment (rereadComment text)

/-- The lines of a field. -/
def fieldLinesMeant (package : List String) (f : Field) : List Line :=
  commentsMeant f.comments ++ [.field (fieldMeant package f)]

/-- The lines of a constant. -/
def constantLinesMeant (c : Constant) : List Line :=
  (if c.comments.isEmpty then [] else .blank :: commentsMeant c.comments) ++
    [.constant (constantMeant c)]

/-- The lines of a message. -/
def linesMeant (package : List String) (m : Message) : List Line :=
  [.comment headerText, .blank, .comment m.name] ++ commentsMeant m.comments ++
    m.fields.flatMap (fieldLinesMeant package) ++ m.constants.flatMap constantLinesMeant

/-! ## Every line is read as it is meant -/

theorem forall_isWordChar_of_isMessageName {name : String} (h : isMessageName name = true) :
    ∀ d ∈ name.toList, isWordChar d = true := by
  simp only [isMessageName, Bool.and_eq_true, List.all_eq_true] at h
  exact h.2

theorem trim_of_forall_not_isBlank {cs : List Char} (h : ∀ c ∈ cs, isBlank c = false) :
    trim cs = cs := by
  apply trim_of_stopsAt
  · exact fun c hc => h c (List.mem_of_mem_head? hc)
  · exact fun c hc => h c (List.mem_reverse.1 (List.mem_of_mem_head? hc))

theorem trim_of_forall_isWordChar {cs : List Char} (h : ∀ c ∈ cs, isWordChar c = true) :
    trim cs = cs :=
  trim_of_forall_not_isBlank fun c hc => not_isBlank_of_isWordChar (h c hc)

theorem says_comment (cs : List Char) :
    Says ('#' :: ' ' :: cs) (.comment (String.ofList (trim cs))) := by
  refine ⟨[], '#' :: ' ' :: cs, rfl, by simp [AllBlank], ['#'], ' ' :: cs, rfl, by simp, by simp,
    by simp, ?_⟩
  have : trim ([' '] ++ cs) = trim cs := trim_append_left (by simp [AllBlank]; decide)
  rw [← this, List.singleton_append]

theorem says_commentLine (text : String) :
    Says (commentLine "#" text).toList (.comment (rereadComment text)) := by
  unfold commentLine
  split
  · next h =>
    obtain rfl : text = "" := by simpa using h
    exact ⟨[], ['#'], rfl, by simp [AllBlank], ['#'], [], rfl, by simp, by simp, by simp, rfl⟩
  · have := says_comment text.toList
    simpa [rereadComment] using this

/-- A base type without bound is what its spelling names. -/
theorem eq_spelledBase {text : List Char} {base : BaseType} (h : BaseSpelling text base none) :
    base = spelledBase (String.ofList text) := by
  generalize hbound : none = bound at h
  cases h with
  | scalar hs => simp only [spelledBase, Scalar.ofRosKeyword?_eq_some_iff.2 hs]
  | bounded => cases hbound
  | @named first more hf hk hl hm =>
    have hnone : ∀ s : Scalar,
        s.rosKeyword? ≠ some (String.ofList (first ++ more.flatMap ('/' :: ·))) := by
      cases more with
      | nil => simpa using hk
      | cons word more =>
        -- a keyword is an identifier, which has no slash
        intro s hs
        have := (isIdentifier_of_rosKeyword? hs).forall '/' (by simp)
        exact absurd this (by decide)
    simp only [spelledBase, ofRosKeyword?_eq_none_iff.2 hnone]

theorem says_fieldText (h : WritableField package f) :
    Says (fieldText package f).toList (.field (fieldMeant package f)) := by
  obtain ⟨base, hbase⟩ := h.type
  obtain rfl : base = spelledBase (typeText package f.type) := by simpa using eq_spelledBase hbase
  refine ⟨[], (typeText package f.type ++ arraySpelling f).toList, [' '], f.name.toList, [], ?_,
    by simp [AllBlank], ?_, ⟨by simp, by simp [isGap]⟩, h.name, .plain (by simp [AllBlank]),
    by simp [fieldMeant], by simp [fieldMeant]⟩
  · simp [fieldText, arraySpelling]
  · refine ⟨_, (arraySpelling f).toList, String.toList_append, hbase, ?_⟩
    cases hr : f.repeated with
    | false => simpa [arraySpelling, fieldMeant, hr] using ArraySpelling.single
    | true => simpa [arraySpelling, fieldMeant, hr] using ArraySpelling.array .unbounded

theorem says_constantText (h : WritableConstant c) :
    Says (constantText c).toList (.constant (constantMeant c)) := by
  refine ⟨[], c.type.keyword.toList, [' '], c.name.toList, [], c.value.toList, ?_,
    by simp [AllBlank], ?_, ⟨by simp, by simp [isGap]⟩, h.name, by simp, h.value,
    by simp [constantMeant], by simp [constantMeant]⟩
  · simp [constantText]
  · simpa [constantMeant] using h.type

/-- What is read of a line that was written, whose end is lost on the way. -/
def readText (text : String) : Except LineError Line := Line.read (dropReturn text.toList)

theorem read_dropReturn (line : List Char) : Line.read (dropReturn line) = Line.read line := by
  obtain ⟨ends, hends, hreturn⟩ := exists_dropReturn line
  have he : ∀ d ∈ ends, isLineEnd d = true := fun d hd => by rw [hreturn d hd]; decide
  have : dropEndWhile isLineEnd line = dropEndWhile isLineEnd (dropReturn line) := by
    conv_lhs => rw [hends]
    exact dropEndWhile_append he
  simp only [Line.read, this]

theorem readText_of_grammar {text : String} {line : Line} (h : Says text.toList line) :
    readText text = .ok line := by
  rw [readText, read_dropReturn, read_of_grammar h]

theorem readText_commentLines (comments : List String) :
    (commentLines comments).map readText = (commentsMeant comments).map .ok := by
  simp [commentLines, commentsMeant, readText_of_grammar (says_commentLine _)]

theorem readText_fieldLines (h : WritableField package f) :
    (fieldLines package f).map readText = (fieldLinesMeant package f).map .ok := by
  simp [fieldLines, fieldLinesMeant, readText_commentLines, readText_of_grammar (says_fieldText h)]

theorem readText_constantLines (h : WritableConstant c) :
    (constantLines c).map readText = (constantLinesMeant c).map .ok := by
  have hblank : readText "" = .ok .blank := rfl
  unfold constantLines constantLinesMeant
  split
  · simp [readText_of_grammar (says_constantText h)]
  · simp [readText_commentLines, readText_of_grammar (says_constantText h), hblank]

/-- Every line that is written for a message is read as the line that was meant. -/
theorem readText_messageLines (h : Writable package m) :
    (messageLines package m).map readText = (linesMeant package m).map .ok := by
  have hheader : readText header = .ok (.comment headerText) := rfl
  have hblank : readText "" = .ok .blank := rfl
  have hname : readText ("# " ++ m.name) = .ok (.comment m.name) := by
    have htrim : trim m.name.toList = m.name.toList :=
      trim_of_forall_isWordChar (forall_isWordChar_of_isMessageName h.name)
    have := says_comment m.name.toList
    rw [htrim, String.ofList_toList] at this
    exact readText_of_grammar (by simpa using this)
  have hfields : (m.fields.flatMap (fieldLines package)).map readText =
      (m.fields.flatMap (fieldLinesMeant package)).map .ok := by
    rw [List.map_flatMap, List.map_flatMap]
    exact List.flatMap_congr fun f hf => readText_fieldLines (h.fields f hf)
  have hconstants : (m.constants.flatMap constantLines).map readText =
      (m.constants.flatMap constantLinesMeant).map .ok := by
    rw [List.map_flatMap, List.map_flatMap]
    exact List.flatMap_congr fun c hc => readText_constantLines (h.constants c hc)
  simp only [messageLines, linesMeant, List.map_append, List.map_cons, List.map_nil, hheader, hblank,
    hname, readText_commentLines, hfields, hconstants]

/-! ## No line has a line feed -/

theorem newline_not_mem_of_word {word : List Char} (h : ∀ c ∈ word, isWordChar c = true) :
    '\n' ∉ word := by
  intro hm
  exact absurd (h _ hm) (by decide)

theorem newline_not_mem_commentLines {comments : List String}
    (h : ∀ text ∈ comments, '\n' ∉ text.toList) :
    ∀ line ∈ commentLines comments, '\n' ∉ line.toList := by
  intro line hline
  obtain ⟨text, htext, rfl⟩ := List.mem_map.1 hline
  unfold commentLine
  split
  · decide
  · simpa using h text htext

theorem newline_not_mem_words {first : List Char} {more : List (List Char)} (hf : IsIdentifier first)
    (hm : ∀ word ∈ more, IsIdentifier word) : '\n' ∉ first ++ more.flatMap ('/' :: ·) := by
  intro hn
  rcases List.mem_append.1 hn with hn | hn
  · exact newline_not_mem_of_word hf.forall hn
  · obtain ⟨word, hword, hn⟩ := List.mem_flatMap.1 hn
    rcases List.mem_cons.1 hn with hn | hn
    · revert hn; decide
    · exact newline_not_mem_of_word (hm word hword).forall hn

theorem newline_not_mem_spelling {text : List Char} {base : BaseType}
    (h : BaseSpelling text base none) : '\n' ∉ text := by
  generalize hbound : none = bound at h
  cases h with
  | scalar hs => exact newline_not_mem_of_word (isIdentifier_of_rosKeyword? hs).forall
  | bounded => cases hbound
  | named hf hk hl hm => exact newline_not_mem_words hf hm

theorem newline_not_mem_fieldText (h : WritableField package f) :
    '\n' ∉ (fieldText package f).toList := by
  obtain ⟨base, hbase⟩ := h.type
  have htype := newline_not_mem_spelling hbase
  have hname := newline_not_mem_of_word h.name.forall
  unfold fieldText
  split <;> simp [htype, hname]

theorem newline_not_mem_constantText (h : WritableConstant c) :
    '\n' ∉ (constantText c).toList := by
  have hkeyword : '\n' ∉ c.type.keyword.toList :=
    newline_not_mem_spelling (.scalar (by simpa using h.type))
  have hname := newline_not_mem_of_word h.name.forall
  simp [constantText, hkeyword, hname, h.oneLine]

theorem newline_not_mem_messageLines (h : Writable package m) :
    ∀ line ∈ messageLines package m, '\n' ∉ line.toList := by
  have hname : '\n' ∉ m.name.toList :=
    newline_not_mem_of_word (forall_isWordChar_of_isMessageName h.name)
  simp only [messageLines, List.mem_append, List.mem_flatMap]
  rintro line (((hline | hline) | ⟨f, hf, hline⟩) | ⟨c, hc, hline⟩)
  · simp only [List.mem_cons, List.not_mem_nil, or_false] at hline
    rcases hline with rfl | rfl | rfl
    · decide
    · decide
    · simpa using hname
  · exact newline_not_mem_commentLines h.comments line hline
  · rcases List.mem_append.1 hline with hline | hline
    · exact newline_not_mem_commentLines (h.fields f hf).comments line hline
    · obtain rfl := List.mem_singleton.1 hline
      exact newline_not_mem_fieldText (h.fields f hf)
  · rcases List.mem_append.1 hline with hline | hline
    · split at hline
      · cases hline
      · rcases List.mem_cons.1 hline with rfl | hline
        · decide
        · exact newline_not_mem_commentLines (h.constants c hc).comments line hline
    · obtain rfl := List.mem_singleton.1 hline
      exact newline_not_mem_constantText (h.constants c hc)

/-! ## The message that is read -/

theorem field?_fieldMeant (package : List String) (f : Field) :
    Line.field? (.field (fieldMeant package f)) = some (rereadField package f) := by
  cases hr : f.repeated with
  | false => simp [Line.field?, fieldMeant, FieldLine.field, bareField, rereadField, hr]
  | true =>
    simp [Line.field?, fieldMeant, FieldLine.field, bareField, rereadField, hr, ArraySuffix.bound?]

theorem field?_commentsMeant (comments : List String) :
    (commentsMeant comments).filterMap Line.field? = [] := by
  simp [commentsMeant, Line.field?]

theorem constant?_commentsMeant (comments : List String) :
    (commentsMeant comments).filterMap Line.constant? = [] := by
  simp [commentsMeant, Line.constant?]

theorem comments_commentsMeant (comments : List String) :
    (commentsMeant comments).flatMap Line.comments = comments.map rereadComment := by
  rw [commentsMeant, List.flatMap_map, List.map_eq_flatMap]
  rfl

theorem field?_constantLinesMeant (c : Constant) :
    (constantLinesMeant c).filterMap Line.field? = [] := by
  have hc : Line.field? (.constant (constantMeant c)) = none := rfl
  have hblank : Line.field? .blank = none := rfl
  unfold constantLinesMeant
  split
  · simp [hc]
  · rw [List.filterMap_append, List.filterMap_cons_none hblank, field?_commentsMeant]
    simp [hc]

theorem constant?_constantLinesMeant (c : Constant) :
    (constantLinesMeant c).filterMap Line.constant? = [bareConstant c] := by
  have hc : Line.constant? (.constant (constantMeant c)) = some (bareConstant c) := rfl
  have hblank : Line.constant? .blank = none := rfl
  unfold constantLinesMeant
  split
  · simp [hc]
  · rw [List.filterMap_append, List.filterMap_cons_none hblank, constant?_commentsMeant]
    simp [hc]

theorem comments_fieldLinesMeant (package : List String) (f : Field) :
    (fieldLinesMeant package f).flatMap Line.comments = f.comments.map rereadComment := by
  rw [fieldLinesMeant, List.flatMap_append, comments_commentsMeant]
  simp [Line.comments, fieldMeant]

theorem comments_constantLinesMeant (c : Constant) :
    (constantLinesMeant c).flatMap Line.comments = c.comments.map rereadComment := by
  unfold constantLinesMeant
  split
  · next h => simp [Line.comments, constantMeant, List.isEmpty_iff.1 h]
  · rw [List.flatMap_append, List.flatMap_cons, comments_commentsMeant]
    simp [Line.comments, constantMeant]

/-- The lines up to the last field. -/
def fieldsMeant (package : List String) (m : Message) : List Line :=
  [.comment headerText, .blank, .comment m.name] ++ commentsMeant m.comments ++
    m.fields.flatMap (fieldLinesMeant package)

theorem linesMeant_eq (package : List String) (m : Message) :
    linesMeant package m = fieldsMeant package m ++ m.constants.flatMap constantLinesMeant := rfl

theorem field?_fieldsMeant (package : List String) (m : Message) :
    (fieldsMeant package m).filterMap Line.field? = m.fields.map (rereadField package) := by
  have hf : ∀ f, (fieldLinesMeant package f).filterMap Line.field? = [rereadField package f] := by
    intro f
    rw [fieldLinesMeant, List.filterMap_append, field?_commentsMeant]
    simp [field?_fieldMeant]
  rw [fieldsMeant, List.filterMap_append, List.filterMap_append, field?_commentsMeant,
    List.filterMap_flatMap]
  simp [hf, Line.field?, List.map_eq_flatMap]

theorem constant?_fieldsMeant (package : List String) (m : Message) :
    (fieldsMeant package m).filterMap Line.constant? = [] := by
  have hf : ∀ f, (fieldLinesMeant package f).filterMap Line.constant? = [] := by
    intro f
    rw [fieldLinesMeant, List.filterMap_append, constant?_commentsMeant]
    simp [Line.constant?]
  rw [fieldsMeant, List.filterMap_append, List.filterMap_append, constant?_commentsMeant,
    List.filterMap_flatMap]
  simp [hf, Line.constant?]

theorem field?_linesMeant (package : List String) (m : Message) :
    (linesMeant package m).filterMap Line.field? = m.fields.map (rereadField package) := by
  rw [linesMeant_eq, List.filterMap_append, field?_fieldsMeant, List.filterMap_flatMap]
  simp [field?_constantLinesMeant]

theorem constant?_linesMeant (package : List String) (m : Message) :
    (linesMeant package m).filterMap Line.constant? = m.constants.map bareConstant := by
  rw [linesMeant_eq, List.filterMap_append, constant?_fieldsMeant, List.filterMap_flatMap]
  simp [constant?_constantLinesMeant, List.map_eq_flatMap]

theorem comments_linesMeant (package : List String) (m : Message) :
    (linesMeant package m).flatMap Line.comments =
      [headerText, m.name] ++ (allComments m).map rereadComment := by
  simp only [linesMeant, List.flatMap_append, comments_commentsMeant, List.flatMap_assoc,
    comments_fieldLinesMeant, comments_constantLinesMeant, allComments, List.map_append,
    List.map_flatMap]
  simp [Line.comments]

/-- The message that a rendered message is read as, under the name of the file. -/
def rereadMessage (package : List String) (name : String) (m : Message) : Message :=
  messageOfLines name (linesMeant package m)

theorem fields_rendered (package : List String) (name : String) (m : Message) :
    (rereadMessage package name m).fields.map bareField = m.fields.map (rereadField package) := by
  have := fields_foldl (linesMeant package m) {}
  rw [field?_linesMeant] at this
  simpa [rereadMessage, messageOfLines, Draft.message] using this

/-- A field is read again with its name, with the type that it is spelled as, and repeated if it was. -/
theorem forall₂_fields_rendered (package : List String) (name : String) (m : Message) :
    List.Forall₂ (fun f g => g.name = f.name ∧ g.repeated = f.repeated ∧
      g.type = (spelledBase (typeText package f.type)).typeRef) m.fields
      (rereadMessage package name m).fields := by
  have hreread : List.Forall₂ (fun f g => rereadField package f = bareField g) m.fields
      (rereadMessage package name m).fields := by
    rw [← List.forall₂_map_right_iff, ← List.forall₂_map_left_iff, List.forall₂_eq_eq_eq]
    exact (fields_rendered package name m).symm
  refine hreread.imp fun f g hbare => ?_
  exact ⟨(congrArg Field.name hbare).symm, (congrArg Field.repeated hbare).symm,
    (congrArg Field.type hbare).symm⟩

theorem constants_rendered (package : List String) (name : String) (m : Message) :
    (rereadMessage package name m).constants.map bareConstant = m.constants.map bareConstant := by
  have := constants_foldl (linesMeant package m) {}
  rw [constant?_linesMeant] at this
  have hbare : ∀ count, bareConstant ∘ anchoredBelow count = bareConstant := fun _ => rfl
  simpa [rereadMessage, messageOfLines, Draft.message, hbare] using this

/-- The comments of a draft are those of its message, if none is pending after a declaration. -/
theorem allComments_message (name : String) {d : Draft}
    (h : d.pending = [] ∨ d.fields = [] ∧ d.constants = []) :
    allComments (d.message name) = d.allComments := by
  rcases h with h | ⟨hf, hc⟩
  · simp [allComments, Draft.message, Draft.allComments, h, List.flatMap_map, anchoredBelow]
  · simp [allComments, Draft.message, Draft.allComments, hf, hc]

/-- A rendered message ends in a declaration, or has none. -/
theorem pending_linesMeant (package : List String) (m : Message) :
    ((linesMeant package m).foldl Draft.add {}).pending = [] ∨
      ((linesMeant package m).foldl Draft.add {}).fields = [] ∧
        ((linesMeant package m).foldl Draft.add {}).constants = [] := by
  have hlast : ∀ line : Line, line.declared?.isSome →
      (∃ before, linesMeant package m = before ++ [line]) →
      ((linesMeant package m).foldl Draft.add {}).pending = [] := by
    rintro line hline ⟨before, heq⟩
    rw [heq, List.foldl_append]
    exact pending_add hline
  rcases List.eq_nil_or_concat' m.constants with hc | ⟨init, c, hc⟩
  · rcases List.eq_nil_or_concat' m.fields with hf | ⟨init, f, hf⟩
    · have hfields := fields_foldl (linesMeant package m) {}
      have hconstants := constants_foldl (linesMeant package m) {}
      rw [field?_linesMeant, hf] at hfields
      rw [constant?_linesMeant, hc] at hconstants
      exact .inr ⟨by simpa using hfields, by simpa using hconstants⟩
    · refine .inl (hlast (.field (fieldMeant package f)) rfl ?_)
      rw [linesMeant, hc, hf, List.flatMap_append, List.flatMap_singleton, fieldLinesMeant,
        List.flatMap_nil, List.append_nil, ← List.append_assoc, ← List.append_assoc]
      exact ⟨_, rfl⟩
  · refine .inl (hlast (.constant (constantMeant c)) rfl ?_)
    rw [linesMeant, hc, List.flatMap_append, List.flatMap_singleton, constantLinesMeant,
      ← List.append_assoc, ← List.append_assoc]
    exact ⟨_, rfl⟩

theorem allComments_rendered (package : List String) (name : String) (m : Message) :
    allComments (rereadMessage package name m) =
      [headerText, m.name] ++ (allComments m).map rereadComment := by
  rw [rereadMessage, messageOfLines, allComments_message name (pending_linesMeant package m),
    linesMeant_eq, List.foldl_append, allComments_foldl (.inr ?_), allComments_foldl (.inl ?_),
    List.append_assoc, ← List.flatMap_append, ← linesMeant_eq, comments_linesMeant]
  · rfl
  · exact ⟨rfl, constant?_fieldsMeant package m⟩
  · rw [List.filterMap_flatMap]
    simp [field?_constantLinesMeant]

/-- The text of a message is read as the message that was meant. -/
theorem parse_render {directories : List String} {name path : String} (h : Writable package m)
    (hpath : namedByPath path = .ok (directories, name)) :
    parse (render package m) path =
      .ok
        { name := path
          dialect := .ros
          package := directories
          messages := [rereadMessage package name m] } := by
  have hmark : withoutMark (render package m).toList = (render package m).toList := by
    simp [render, messageLines, unlines, header, withoutMark]
  have hlines : lines (render package m).toList =
      (messageLines package m).map fun text => dropReturn text.toList :=
    lines_unlines (newline_not_mem_messageLines h)
  have hread : List.Forall₂ (fun text line => Line.read text = .ok line)
      (lines (render package m).toList) (linesMeant package m) := by
    have := readText_messageLines h
    rw [← List.forall₂_eq_eq_eq, List.forall₂_map_left_iff, List.forall₂_map_right_iff] at this
    rw [hlines, List.forall₂_map_left_iff]
    exact this
  have hdistinct : (declaredNames (linesMeant package m)).Nodup := by
    rw [(declaredNames_perm _).nodup_iff, field?_linesMeant, constant?_linesMeant]
    simpa [Function.comp_def, rereadField, bareConstant] using h.distinct
  have hfound : readLines path 1 [] (lines (withoutMark (render package m).toList)) =
      .ok (linesMeant package m) := by
    rw [hmark]
    exact readLines_eq_ok_iff.2 ⟨hread, hdistinct, by simp⟩
  simp only [parse, hpath, hfound]
  rfl

end SchemaBridge.RosText
