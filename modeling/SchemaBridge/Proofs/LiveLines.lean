import SchemaBridge.Batch
import SchemaBridge.Plugin.RosMessages
import SchemaBridge.Proofs.MappingRoundTrip
import SchemaBridge.Proofs.GeneratedMessages
import SchemaBridge.Proofs.Signatures

/-!
# What is left of a text without its comments

A comment line that is written is a line of its own, whatever the comment says, so that what is left of a
generated text without its comment lines does not depend on any comment (`Text.liveLines_congr`).
-/

namespace SchemaBridge

namespace Text

/-! ## Lines without notes -/

/-- The lines of a text, cut at nothing but line feeds, that are no notes. -/
def liveLines (isNote : List Char → Bool) (text : String) : List (List Char) :=
  (text.toList.splitOn '\n').filter fun line => !isNote line

/-- The members that are not one line each, and that line a note. -/
def withoutNotes (isNote : List Char → Bool) (lines : List String) : List String :=
  lines.filter fun line => !(isNote line.toList && !line.toList.contains '\n')

section

variable {isNote : List Char → Bool} {line : String} {ls ls' : List String}

theorem liveLines_unlines_cons (line : String) (ls : List String) :
    liveLines isNote (unlines (line :: ls)) = liveLines isNote line ++ liveLines isNote (unlines ls) := by
  have hsplit : (unlines (line :: ls)).toList.splitOn '\n' =
      line.toList.splitOn '\n' ++ (unlines ls).toList.splitOn '\n' := by
    rw [← List.splitOn_append_cons_self]
    simp [unlines]
  rw [liveLines, hsplit, List.filter_append]
  rfl

theorem liveLines_of_note (hnote : isNote line.toList = true) (hline : '\n' ∉ line.toList) :
    liveLines isNote line = [] := by
  rw [liveLines, List.splitOn_eq_singleton hline]
  simp [hnote]

/-- Notes leave nothing behind. -/
theorem liveLines_withoutNotes (ls : List String) :
    liveLines isNote (unlines (withoutNotes isNote ls)) = liveLines isNote (unlines ls) := by
  induction ls with
  | nil => rfl
  | cons line ls ih =>
    rw [liveLines_unlines_cons, ← ih, withoutNotes, List.filter_cons]
    split
    · exact liveLines_unlines_cons line _
    · next hnote =>
      obtain ⟨hnote, hline⟩ : isNote line.toList = true ∧ '\n' ∉ line.toList := by simpa using hnote
      rw [liveLines_of_note hnote hline]
      rfl

theorem liveLines_congr (h : withoutNotes isNote ls = withoutNotes isNote ls') :
    liveLines isNote (unlines ls) = liveLines isNote (unlines ls') := by
  rw [← liveLines_withoutNotes, h, liveLines_withoutNotes]

@[simp] theorem withoutNotes_append (ls ls' : List String) :
    withoutNotes isNote (ls ++ ls') = withoutNotes isNote ls ++ withoutNotes isNote ls' :=
  List.filter_append ..

theorem withoutNotes_flatten (lss : List (List String)) :
    withoutNotes isNote lss.flatten = (lss.map (withoutNotes isNote)).flatten :=
  List.filter_flatten

theorem withoutNotes_flatMap {α : Type} (as : List α) (lines : α → List String) :
    withoutNotes isNote (as.flatMap lines) = as.flatMap fun a => withoutNotes isNote (lines a) :=
  List.filter_flatMap

theorem withoutNotes_eq_nil (h : ∀ line ∈ ls, isNote line.toList = true ∧ '\n' ∉ line.toList) :
    withoutNotes isNote ls = [] := by
  refine List.filter_eq_nil_iff.2 fun line hline => ?_
  simpa using h line hline

end

theorem newline_not_mem_commentLine {mark text : String} (hmark : '\n' ∉ mark.toList)
    (htext : '\n' ∉ text.toList) : '\n' ∉ (commentLine mark text).toList := by
  unfold commentLine
  split
  · exact hmark
  · simpa using ⟨hmark, htext⟩

end Text

open Text

/-! ## Generated `.proto` text -/

/-- The comments of a message and those of its fields are one line each. -/
structure Message.Noted (m : Message) : Prop where
  comments : OneLine m.comments
  fields : ∀ f ∈ m.fields, OneLine f.comments

namespace ProtoText

/-- Whether the first characters of a line that are not blank are the mark of a comment. -/
def isNote (line : List Char) : Bool := "//".toList.isPrefixOf (trimStart line)

variable {package : List String}

theorem withoutNotes_commentLines {comments : List String} (h : OneLine comments) :
    withoutNotes isNote (commentLines comments) = [] := by
  refine withoutNotes_eq_nil (List.forall_mem_map.2 fun text htext => ⟨?_, ?_⟩)
  · unfold commentLine
    split
    · decide
    · simp [isNote, trimStart, isBlank, blankRanges]
  · exact newline_not_mem_commentLine (by decide) (h text htext)

theorem withoutNotes_map_indent (ls : List String) :
    withoutNotes isNote (ls.map indent) = (withoutNotes isNote ls).map indent := by
  rw [withoutNotes, List.filter_map]
  congr 1
  refine List.filter_congr fun line _ => ?_
  simp [indent, isNote, trimStart, isBlank, blankRanges]

theorem withoutNotes_fieldLines {f : Field} (h : OneLine f.comments) (index : Nat) :
    withoutNotes isNote (fieldLines package index f) =
      withoutNotes isNote (fieldLines package index f.signature) := by
  rw [fieldLines, fieldLines, withoutNotes_append, withoutNotes_append, withoutNotes_commentLines h]
  rfl

/-- What is left of a message without its comments is made of its signature. -/
theorem withoutNotes_messageLines {m : Message} (hnested : m.nested = []) (henums : m.enums = [])
    (h : m.Noted) :
    withoutNotes isNote (messageLines package m) =
      withoutNotes isNote (messageLines package m.signature) := by
  obtain ⟨name, fields, nested, enums, constants, comments⟩ := m
  obtain rfl : nested = [] := hnested
  obtain rfl : enums = [] := henums
  have hlines : withoutNotes isNote (fields.mapIdx (fieldLines package)).flatten =
      withoutNotes isNote ((fields.map Field.signature).mapIdx (fieldLines package)).flatten := by
    rw [withoutNotes_flatten, withoutNotes_flatten]
    congr 1
    exact map_mapIdx_eq fun index f hf => withoutNotes_fieldLines (h.fields f hf) index
  simp only [messageLines, Message.signature, Message.signatures, messagesLines, withoutNotes_append,
    withoutNotes_map_indent, hlines, withoutNotes_commentLines h.comments, List.map_append]
  rfl

/-- What is left of a file of one message without its comments is made of its signature. -/
theorem withoutNotes_fileLines {s : Schema} {m : Message} (hs : s.Single m) (h : m.Noted) :
    withoutNotes isNote (fileLines s) = withoutNotes isNote (fileLines s.signature) := by
  obtain ⟨name, dialect, package, imports, messages, enums⟩ := s
  obtain rfl : messages = [m] := hs.messages
  obtain rfl : enums = [] := hs.enums
  simp only [fileLines, Schema.signature, List.map_cons, List.map_nil, List.flatMap_cons,
    List.flatMap_nil, List.append_nil, withoutNotes_append]
  refine congrArg₂ (· ++ ·) rfl ?_
  show withoutNotes isNote ([""] ++ messageLines package m) =
    withoutNotes isNote ([""] ++ messageLines package m.signature)
  rw [withoutNotes_append, withoutNotes_append, withoutNotes_messageLines hs.nested hs.inner h]

end ProtoText

/-! ## Mapped messages -/

/-- A file whose references are resolved, as a proto3 file. -/
def Schema.protoFile (r : Schema) : Schema :=
  { name := r.protoName
    dialect := .proto3
    package := r.package
    imports := r.protoImports
    messages := r.messages.map Message.toProto
    enums := r.enums }

section

variable {t : SymbolTable} {s r : Schema} {m : Message} {f : Field}

theorem Schema.toProto_eq (t : SymbolTable) (s : Schema) :
    s.toProto t =
      (s.resolve t).map fun r => ⟨r.protoFile, r.messages.flatMap Message.protoLosses⟩ := by
  rw [toProto]
  cases s.resolve t <;> rfl

theorem Schema.protoName_signature (r : Schema) : r.signature.protoName = r.protoName := by
  unfold protoName signature
  cases r.messages with
  | nil => rfl
  | cons m ms => simp

theorem Schema.protoImports_signature (r : Schema) : r.signature.protoImports = r.protoImports := by
  simp only [protoImports, signature, List.flatMap_map, List.map_map, Message.fields_signature,
    Function.comp_def, Message.name_signature, List.filterMap_map]
  rfl

theorem EnumDef.bare_comp_bare : EnumDef.bare ∘ EnumDef.bare = EnumDef.bare := by
  funext e
  simp [bare]

theorem Message.signature_toProto (m : Message) :
    m.toProto.signature = m.signature.toProto.signature := by
  obtain ⟨name, fields, nested, enums, constants, comments⟩ := m
  have hfields : (fields.mapIdx fun i f =>
        let mapped := f.toProto (UInt32.ofNat (i + 1))
        { mapped with comments := linesBefore constants i ++ mapped.comments }).map Field.signature =
      ((fields.map Field.signature).mapIdx fun i f =>
        let mapped := f.toProto (UInt32.ofNat (i + 1))
        { mapped with comments := linesBefore [] i ++ mapped.comments }).map Field.signature :=
    map_mapIdx_eq fun i f _ => rfl
  simp only [toProto, signature, signatures, hfields, List.map_map]
  rw [EnumDef.bare_comp_bare]

theorem Schema.signature_protoFile (r : Schema) :
    r.protoFile.signature = r.signature.protoFile.signature := by
  have hmessages : r.messages.map (Message.signature ∘ Message.toProto) =
      (r.messages.map Message.signature).map (Message.signature ∘ Message.toProto) := by
    rw [List.map_map]
    exact List.map_congr_left fun m _ => m.signature_toProto
  simp only [protoFile, protoName_signature, protoImports_signature]
  simp only [signature, List.map_map, EnumDef.bare_comp_bare, hmessages]
  rfl

/-! ### Comments -/

theorem newline_not_mem_bound (b : Bound) : '\n' ∉ b.text.toList := by
  have hnumber : ∀ n : Nat, '\n' ∉ (toString n).toList := fun n => newline_not_mem_toString (n : Int)
  cases b <;> simpa [Bound.text] using hnumber _

/-- A message as a `.msg` file declares it: the comments and what becomes comments are one line each. -/
structure Message.Written (m : Message) : Prop extends m.Noted where
  constants : ∀ c ∈ m.constants, '\n' ∉ c.name.toList ∧ '\n' ∉ c.value.toList ∧ OneLine c.comments

theorem oneLine_constantLines {constants : List Constant}
    (h : ∀ c ∈ constants, '\n' ∉ c.name.toList ∧ '\n' ∉ c.value.toList ∧ OneLine c.comments)
    (keep : Constant → Bool) : OneLine ((constants.filter keep).flatMap Constant.commentLines) := by
  intro line hline
  obtain ⟨c, hc, hline⟩ := List.mem_flatMap.1 hline
  obtain ⟨hname, hvalue, hcomments⟩ := h c (List.mem_of_mem_filter hc)
  rcases List.mem_append.1 hline with hline | hline
  · exact hcomments line hline
  · obtain rfl := List.mem_singleton.1 hline
    simpa using ⟨hname, hvalue⟩

theorem noted_toProto (h : m.Written) : m.toProto.Noted where
  comments := h.comments.append (oneLine_constantLines h.constants _)
  fields g hg := by
    obtain ⟨i, hi, rfl⟩ := List.mem_mapIdx.1 hg
    refine (oneLine_constantLines h.constants _).append
      ((h.fields _ (List.getElem_mem hi)).append (List.forall_mem_map.2 fun b _ => ?_))
    exact newline_not_mem_bound b

theorem written_of_isParsed (h : s.IsParsed) : ∃ m, s.Single m ∧ m.Written := by
  obtain ⟨text, path, s₀, package, hparse, rfl⟩ := h
  obtain ⟨directories, name, found, -, hname, hdistinct, hfound, rfl⟩ :=
    RosText.exists_lines_of_parse hparse
  have hw : RosText.Writable directories (RosText.messageOfLines name found) :=
    RosText.writable_messageOfLines hname hfound hdistinct
  refine ⟨_, ⟨rfl, rfl, rfl, rfl⟩, ⟨⟨hw.comments, fun f hf => (hw.fields f hf).comments⟩, fun c hc => ?_⟩⟩
  have hc := hw.constants c hc
  exact ⟨newline_not_mem_of_isIdentifier hc.name, hc.oneLine, hc.comments⟩

/-- Resolving a message changes none of its comments. -/
theorem written_with_fields {dialect : Dialect} {file : String} {enclosing : TypeName}
    {fields : List Field} (h : m.Written)
    (hfields : m.fields.mapM (Field.resolve t dialect file enclosing) = .ok fields) :
    ({ m with fields := fields } : Message).Written := by
  refine ⟨⟨h.comments, fun g hg => ?_⟩, h.constants⟩
  obtain ⟨f, hf, hresolve⟩ := exists_of_mem_left (mapM_eq_ok_iff.1 hfields).flip g hg
  obtain ⟨type, rfl⟩ := exists_type_of_resolve hresolve
  exact h.fields f hf

theorem Schema.Single.signature (h : s.Single m) : s.signature.Single m.signature where
  messages := by rw [Schema.signature, h.messages, List.map_singleton]
  enums := by rw [Schema.signature, h.enums, List.map_nil]
  nested := by
    obtain ⟨name, fields, nested, enums, constants, comments⟩ := m
    obtain rfl : nested = [] := h.nested
    rfl
  inner := by rw [Message.enums_signature, h.inner, List.map_nil]

theorem Schema.Single.protoFile (h : s.Single m) : s.protoFile.Single m.toProto where
  messages := by rw [Schema.protoFile, h.messages, List.map_singleton]
  enums := h.enums
  nested := rfl
  inner := h.inner

theorem Message.written_signature (m : Message) : m.signature.Written := by
  refine ⟨⟨by simp [OneLine], fun f hf => ?_⟩, by simp⟩
  rw [fields_signature] at hf
  obtain ⟨g, -, rfl⟩ := List.mem_map.1 hf
  exact fun _ htext => absurd htext List.not_mem_nil

/-- What is left of the generated text of a resolved file without its comments is made of the signature
of that file. -/
theorem liveLines_protoFile (hs : s.Single m) (h : m.Written) (hr : s.resolve t = .ok r) :
    liveLines ProtoText.isNote (ProtoText.render r.protoFile) =
      liveLines ProtoText.isNote (ProtoText.render r.signature.protoFile) := by
  obtain ⟨fields, hfields, rfl⟩ := hs.resolve_eq_ok_iff.1 hr
  have hresolved := hs.with_fields fields
  have hwritten := written_with_fields h hfields
  refine liveLines_congr ?_
  rw [ProtoText.withoutNotes_fileLines hresolved.protoFile (noted_toProto hwritten),
    ProtoText.withoutNotes_fileLines hresolved.signature.protoFile (noted_toProto (Message.written_signature _)),
    Schema.signature_protoFile]

end

/-! ## Sources -/

namespace RosText

/-- What the line of a field declares but for its bounds, its default value and its comment: a name, a
type, and whether the field is an array. -/
def Line.declares? : Line → Option (String × BaseType × Bool)
  | .field f => some (f.name, f.type.base, f.type.array.isSome)
  | _ => none

/-- The fields that a text declares, in order. -/
def declaredFields (text : String) : List (String × BaseType × Bool) :=
  (lines (withoutMark text.toList)).filterMap fun line => (Line.read line).toOption.bind Line.declares?

/-- A field with nothing but what is declared. -/
def fieldOf (declared : String × BaseType × Bool) : Field :=
  { name := declared.1, type := declared.2.1.typeRef, repeated := declared.2.2 }

theorem map_signature_fields (found : List Line) :
    (found.filterMap Line.field?).map Field.signature = (found.filterMap Line.declares?).map fieldOf := by
  rw [List.map_filterMap, List.map_filterMap]
  refine List.filterMap_congr fun line _ => ?_
  cases line <;> rfl

/-- The signature of a parsed file is made of its path and the fields that its text declares. -/
theorem signature_of_parse {text path : String} {s : Schema} (h : parse text path = .ok s) :
    ∃ package name, namedByPath path = .ok (package, name) ∧
      s.signature =
        { name := path, dialect := .ros, package,
          messages := [{ name, fields := (declaredFields text).map fieldOf }] } := by
  unfold parse at h
  split at h
  · cases h
  · next package name hpath =>
    split at h
    · cases h
    · next found hfound =>
      obtain rfl := Except.ok.inj h
      refine ⟨package, name, hpath, ?_⟩
      have hread := map_eq_of_forall₂ (f := Line.read) (g := Except.ok)
        ((readLines_eq_ok_iff.1 hfound).1.imp fun _ _ hline => hline.symm)
      have hdeclared : declaredFields text = found.filterMap Line.declares? := by
        have hall := congrArg
          (List.filterMap fun line : Except LineError Line => line.toOption.bind Line.declares?) hread
        rw [List.filterMap_map, List.filterMap_map] at hall
        exact hall.symm
      have hfields : (messageOfLines name found).fields.map Field.signature =
          (found.filterMap Line.declares?).map fieldOf := by
        have hbare := congrArg (List.map Field.signature) (fields_foldl found {})
        rw [List.map_map] at hbare
        exact hbare.trans (map_signature_fields found)
      simp only [Schema.signature, List.map_cons, List.map_nil, hdeclared, ← hfields]
      rfl

end RosText

/-! ## Batches -/

namespace Batch

/-- Two sources that can be read, of one path, and that declare the same fields. -/
structure SameFields (source source' : Source) : Prop where
  path : source'.path = source.path
  readable : (RosText.parse source.text source.path).isOk = true
  readable' : (RosText.parse source'.text source'.path).isOk = true
  fields : RosText.declaredFields source'.text = RosText.declaredFields source.text

/-- The path of an output and what is left of its text without comments. -/
def Output.live (o : Output) : String × List (List Char) :=
  (o.path, liveLines ProtoText.isNote o.text)

/-- What is left of the output of a source without comments, or the error. -/
def Result.live (r : Result) : String × Except ConversionError (String × List (List Char)) :=
  (r.source, r.output.map Output.live)

variable {source source' : Source} {sources sources' : List Source}

theorem exists_schemas (h : SameFields source source') (package : Option String) :
    ∃ s s', source.schema package = .ok s ∧ source'.schema package = .ok s' ∧ s.IsParsed ∧
      s'.IsParsed ∧ s'.signature = s.signature := by
  obtain ⟨path, text⟩ := source
  obtain ⟨path', text'⟩ := source'
  obtain rfl : path' = path := h.path
  obtain ⟨s, hs⟩ := exists_of_isOk h.readable
  obtain ⟨s', hs'⟩ := exists_of_isOk h.readable'
  refine ⟨_, _, by rw [Source.schema, hs], by rw [Source.schema, hs'], ⟨text, _, s, _, hs, rfl⟩,
    ⟨text', _, s', _, hs', rfl⟩, ?_⟩
  obtain ⟨directories, name, hpath, hsignature⟩ := RosText.signature_of_parse hs
  obtain ⟨directories', name', hpath', hsignature'⟩ := RosText.signature_of_parse hs'
  obtain ⟨rfl, rfl⟩ := Prod.mk.inj (Except.ok.inj (hpath.symm.trans hpath'))
  have hfields : RosText.declaredFields text' = RosText.declaredFields text := h.fields
  rw [hfields] at hsignature'
  have hsame := hsignature'.trans hsignature.symm
  have hpackage : s'.signature.package = s.signature.package := by rw [hsame]
  replace hpackage : s'.package = s.package := hpackage
  rw [hpackage]
  exact congrArg (fun r : Schema => { r with package := (package.map givenPackage).getD s.package }) hsame

theorem signature_schemas (h : List.Forall₂ SameFields sources sources') (package : Option String) :
    (schemas package sources').map Schema.signature = (schemas package sources).map Schema.signature := by
  induction h with
  | nil => rfl
  | cons hsource _ ih =>
    obtain ⟨s, s', hs, hs', -, -, hsame⟩ := exists_schemas hsource package
    simp only [schemas, List.filterMap_cons, hs, hs', Except.toOption, List.map_cons, hsame]
    exact congrArg _ ih

/-- What is left of an output without comments is made of the signature of the file. -/
theorem live_output {s : Schema} (h : s.IsParsed) (t : SymbolTable) :
    (output t s).map Output.live =
      (s.signature.resolve t).map fun r =>
        (r.protoName, liveLines ProtoText.isNote (ProtoText.render r.protoFile)) := by
  obtain ⟨m, hs, hm⟩ := written_of_isParsed h
  rw [s.resolve_signature, output, Schema.toProto_eq]
  cases hr : s.resolve t with
  | error e => rfl
  | ok r =>
    show Except.ok (r.protoName, liveLines ProtoText.isNote (ProtoText.render r.protoFile)) =
      Except.ok (r.signature.protoName,
        liveLines ProtoText.isNote (ProtoText.render r.signature.protoFile))
    rw [r.protoName_signature, liveLines_protoFile hs hm hr]

/-- Sources that declare the same fields have the same outputs but for comments. -/
theorem live_convert (h : List.Forall₂ SameFields sources sources') (package : Option String) :
    (convert sources' package).map Result.live = (convert sources package).map Result.live := by
  have hresolve := resolve_eq_of_signatures (signature_schemas h package)
  rw [convert, convert, List.map_map, List.map_map]
  refine map_eq_of_forall₂ (h.imp fun source source' hsource => ?_)
  obtain ⟨s, s', hs, hs', hparsed, hparsed', hsame⟩ := exists_schemas hsource package
  have hlive : (output (.ofFiles (schemas package sources')) s').map Output.live =
      (output (.ofFiles (schemas package sources)) s).map Output.live := by
    rw [live_output hparsed', live_output hparsed, hsame, hresolve]
  simp only [Function.comp_apply, Result.live, hsource.path, hs, hs']
  exact congrArg (Prod.mk _) hlive

end Batch

end SchemaBridge
