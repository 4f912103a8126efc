import SchemaBridge.Proofs.LiveLines

/-!
# Comments change no declaration

A file has the same signature whatever the comments of its descriptor are (`toSchema_locations`), and what
is left of the generated messages without comments is made of that signature (`live_toRos`). With what is
known of batches of `.msg` files, no comment, constant, bound or default value changes what a generated
text declares (`comments_change_no_declaration`).
-/

namespace SchemaBridge

open Text

/-! ## Generated `.msg` text -/

namespace RosText

/-- Whether a line is blank or begins with the mark of a comment. -/
def isNote (line : List Char) : Bool := line.all isBlank || line.head? = some '#'

variable {package : List String}

theorem withoutNotes_commentLines {comments : List String} (h : OneLine comments) :
    withoutNotes isNote (commentLines comments) = [] := by
  refine withoutNotes_eq_nil (List.forall_mem_map.2 fun text htext => ⟨?_, ?_⟩)
  · unfold commentLine
    split
    · decide
    · simp [isNote]
  · exact newline_not_mem_commentLine (by decide) (h text htext)

theorem withoutNotes_fieldLines {f : Field} (h : OneLine f.comments) (rosType : RosType) :
    withoutNotes isNote (fieldLines package (f.withRosType rosType)) =
      withoutNotes isNote (fieldLines package (f.signature.withRosType rosType)) := by
  simp only [fieldLines, commentLines, Field.withRosType, List.map_append, withoutNotes_append]
  have hnone := withoutNotes_commentLines h
  rw [commentLines] at hnone
  rw [hnone]
  rfl

end RosText

open RosText in
/-- What is left of a generated message without comments is made of the signature of the message. -/
theorem live_message_toRos {t : SymbolTable} {repr : EnumRepr} {file : String} (package : List String)
    {m : Message} (hconstants : m.constants = []) (h : m.Noted) :
    ResultRel Eq
      (fun r r' => r.message.name = r'.message.name ∧
        withoutNotes isNote (messageLines package r.message) =
          withoutNotes isNote (messageLines package r'.message))
      (m.toRos t repr file) (m.signature.toRos t repr file) := by
  obtain ⟨name, fields, nested, enums, constants, comments⟩ := m
  obtain rfl : constants = [] := hconstants
  have hdeclarations : ∀ used, declarations (fields.map Field.signature) [] used =
      declarations fields [] used := by
    intro used
    simp only [declarations, List.map_map]
    rfl
  have htypes : (fields.map Field.signature).mapM (Field.rosType t repr file name) =
      fields.mapM (Field.rosType t repr file name) := List.mapM_map
  simp only [Message.toRos, Message.signature, htypes]
  refine (ResultRel.refl (fun _ => rfl) _).bind fun types _ htypes => ?_
  subst htypes
  simp only [hdeclarations]
  cases firstRepeated? (declarations fields [] (types.filterMap (·.enum)).eraseDups) with
  | some repeated => exact .error rfl
  | none =>
    refine .ok ⟨rfl, ?_⟩
    have hfields : withoutNotes isNote (((fields.zip types).map fun p => p.1.withRosType p.2).flatMap
          (fieldLines package)) =
        withoutNotes isNote ((((fields.map Field.signature).zip types).map fun p =>
          p.1.withRosType p.2).flatMap (fieldLines package)) := by
      rw [List.zip_map_left, List.map_map, List.flatMap_map, List.flatMap_map, withoutNotes_flatMap,
        withoutNotes_flatMap]
      exact List.flatMap_congr fun p hp =>
        withoutNotes_fieldLines (h.fields _ (List.of_mem_zip hp).1) p.2
    simp only [messageLines, withoutNotes_append, withoutNotes_commentLines h.comments, hfields]
    rfl

/-- The messages of a file have no constants, and their comments are one line each. -/
def Schema.Noted (s : Schema) : Prop := ∀ p ∈ s.flatten, p.2.constants = [] ∧ p.2.Noted

section

variable {t : SymbolTable} {repr : EnumRepr} {s r : Schema}

theorem Schema.Noted.resolve (h : s.Noted) (hr : s.resolve t = .ok r) : r.Noted := by
  intro q hq
  obtain ⟨p, hp, -, hresolves⟩ := exists_of_mem_left (Schema.flatten_resolve hr).flip q hq
  obtain ⟨hconstants, hnoted⟩ := h p hp
  refine ⟨by rw [hresolves.constants, hconstants], hresolves.comments ▸ hnoted.comments, fun g hg => ?_⟩
  obtain ⟨f, hf, hresolve⟩ := exists_of_mem_left hresolves.fields.flip g hg
  obtain ⟨type, rfl⟩ := exists_type_of_resolve hresolve
  exact hnoted.fields f hf

namespace Plugin

/-- The name of an output file and what is left of its text without blank lines and comments. -/
def OutputFile.live (o : OutputFile) : String × List (List Char) :=
  (o.name, liveLines RosText.isNote o.content)

theorem live_msgFile {package : List String} {m m' : Message} (hname : m.name = m'.name)
    (hlines : withoutNotes RosText.isNote (RosText.messageLines package m) =
      withoutNotes RosText.isNote (RosText.messageLines package m')) :
    (msgFile package m).live = (msgFile package m').live := by
  rw [OutputFile.live, OutputFile.live, msgFile, msgFile, hname]
  exact congrArg (Prod.mk _) (liveLines_congr hlines)

/-- What is left of the generated messages of a file without comments is made of its signature. -/
theorem live_toRos (t : SymbolTable) (repr : EnumRepr) (h : s.Noted) :
    ResultRel Eq
      (fun c c' => (c.schema.messages.map (msgFile c.schema.package)).map OutputFile.live =
        (c'.schema.messages.map (msgFile c'.schema.package)).map OutputFile.live)
      (s.toRos t repr) (s.signature.toRos t repr) := by
  rw [Schema.toRos, Schema.toRos, s.resolve_signature]
  cases hr : s.resolve t with
  | error e => exact .error rfl
  | ok r =>
    -- the messages of the signature have the same names, and every one of them the same live lines
    have hclash : flattenError? t r.signature.name r.signature.flatten =
        flattenError? t r.name r.flatten := by
      rw [r.flatten_signature]
      simp only [flattenError?, List.map_map, List.findSome?_map]
      rfl
    have hmapped : ResultRel Eq
        (List.Forall₂ fun a b => (msgFile r.package b.message).live = (msgFile r.package a.message).live)
        (r.flatten.mapM fun p => p.2.toRos t repr r.name)
        (r.signature.flatten.mapM fun p => p.2.toRos t repr r.signature.name) := by
      rw [r.flatten_signature, List.mapM_map]
      refine ResultRel.mapM fun p hp => ?_
      obtain ⟨hconstants, hnoted⟩ := h.resolve hr p hp
      exact (live_message_toRos r.package hconstants hnoted).imp fun a b hab =>
        (live_msgFile hab.1 hab.2).symm
    show ResultRel Eq _ (Except.ok r >>= _) (Except.ok r.signature >>= _)
    refine ResultRel.bind (R := fun a b => a = r ∧ b = r.signature) (.ok ⟨rfl, rfl⟩) ?_
    rintro _ _ ⟨rfl, rfl⟩
    dsimp only
    rw [hclash]
    split
    · exact .error rfl
    · refine hmapped.bind fun mapped mapped' hlive => .ok ?_
      simp only [List.map_map]
      exact (map_eq_of_forall₂ hlive).symm

end Plugin

end

/-! ## Descriptors with other comments -/

section

variable {file : String} {locations locations' : List Location}

theorem oneLine_commentsAt (locations : List Location) (path : List Int32) :
    OneLine (commentsAt locations path) := fun _ h => newline_not_mem_commentsAt h

/-- Two fields that are the same but for their comments, which are one line each. -/
structure Field.SameButNotes (f f' : Field) : Prop where
  signature : f'.signature = f.signature
  left : OneLine f.comments
  right : OneLine f'.comments

theorem toField_locations (d : FieldDescriptor) (message : String) {comments comments' : List String}
    (h : OneLine comments) (h' : OneLine comments') :
    ResultRel Eq Field.SameButNotes (d.toField file message comments)
      (d.toField file message comments') := by
  rw [FieldDescriptor.toField, FieldDescriptor.toField]
  exact (ResultRel.refl (fun _ => rfl) _).bind fun _ _ _ => .ok ⟨rfl, h, h'⟩

theorem toEnum_locations (d : EnumDescriptor) (path : List Int32) :
    ResultRel Eq (fun e e' => e'.bare = e.bare) (d.toEnum file locations path)
      (d.toEnum file locations' path) := by
  rw [EnumDescriptor.toEnum, EnumDescriptor.toEnum]
  refine (ResultRel.refl (fun _ => rfl) _).bind fun _ _ _ => .ok ?_
  have hmirrors : ∀ locations : List Location, d.Mirrors
      { name := d.name.getD ""
        values := d.values.mapIdx fun i v => v.value (commentsAt locations (childPath path .enumValue i))
        comments := commentsAt locations path } :=
    fun locations => ⟨rfl, forall₂_mapIdx fun i v _ => ⟨rfl, rfl⟩⟩
  exact (hmirrors locations').skeleton.symm.trans (hmirrors locations).skeleton

/-- Two messages of a proto3 file that are the same but for comments, which are one line each. -/
structure Message.SameButNotes (m m' : Message) : Prop where
  signature : m'.signature = m.signature
  left : ∀ scope, ∀ p ∈ m.flatten scope, p.2.constants = [] ∧ p.2.Noted
  right : ∀ scope, ∀ p ∈ m'.flatten scope, p.2.constants = [] ∧ p.2.Noted

theorem Message.SameButNotes.symm {m m' : Message} (h : m.SameButNotes m') : m'.SameButNotes m :=
  ⟨h.signature.symm, h.right, h.left⟩

/-- The messages nested in two messages that are the same but for comments. -/
theorem noted_flattenAll {ms ms' : List Message} (h : List.Forall₂ Message.SameButNotes ms ms')
    (scope : TypeName) : ∀ p ∈ Message.flattenAll scope ms, p.2.constants = [] ∧ p.2.Noted := by
  induction h with
  | nil => simp [Message.flattenAll]
  | cons hm _ ih =>
    rw [Message.flattenAll]
    exact List.forall_mem_append.2 ⟨hm.left scope, ih⟩

theorem noted_flatten {name : String} {fields : List Field} {nested : List Message}
    {enums : List EnumDef} {comments : List String} (hfields : ∀ f ∈ fields, OneLine f.comments)
    (hcomments : OneLine comments)
    (hnested : ∀ scope, ∀ p ∈ Message.flattenAll scope nested, p.2.constants = [] ∧ p.2.Noted)
    (scope : TypeName) :
    ∀ p ∈ Message.flatten scope { name, fields, nested, enums, comments },
      p.2.constants = [] ∧ p.2.Noted := by
  rw [Message.flatten]
  exact List.forall_mem_cons.2 ⟨⟨rfl, hcomments, hfields⟩, hnested _⟩

mutual

theorem toMessage_locations : ∀ (path : List Int32) (d : MessageDescriptor),
    ResultRel Eq Message.SameButNotes (d.toMessage file locations path) (d.toMessage file locations' path)
  | path, ⟨name, fields, nested, enums, ranges, extensions, options, oneofs⟩ => by
    rw [MessageDescriptor.toMessage, MessageDescriptor.toMessage]
    refine (ResultRel.refl (fun _ => rfl) _).bind fun _ _ _ => ?_
    have hfields : ResultRel Eq (List.Forall₂ Field.SameButNotes)
        (fields.zipIdx.mapM fun p => p.1.toField file (name.getD "")
          (commentsAt locations (childPath path .messageField p.2)))
        (fields.zipIdx.mapM fun p => p.1.toField file (name.getD "")
          (commentsAt locations' (childPath path .messageField p.2))) :=
      ResultRel.mapM fun p _ =>
        toField_locations p.1 _ (oneLine_commentsAt _ _) (oneLine_commentsAt _ _)
    have henums : ResultRel Eq (List.Forall₂ fun e e' : EnumDef => e'.bare = e.bare)
        (EnumDescriptor.toEnums file locations path .messageEnum enums)
        (EnumDescriptor.toEnums file locations' path .messageEnum enums) :=
      ResultRel.mapM fun p _ => toEnum_locations p.1 _
    refine hfields.bind fun fields fields' hfields => henums.bind fun enums enums' henums => ?_
    refine (toMessages_locations path .messageNested 0 nested).bind fun nested nested' hnested => .ok ?_
    have hnested' := hnested.flip.imp fun _ _ h => h.symm
    refine ⟨?_, noted_flatten ?_ (oneLine_commentsAt _ _) (noted_flattenAll hnested),
      noted_flatten ?_ (oneLine_commentsAt _ _) (noted_flattenAll hnested')⟩
    · simp only [Message.signature, Message.signatures_eq_map,
        map_eq_of_forall₂ (hfields.imp fun _ _ h => h.signature), map_eq_of_forall₂ henums,
        map_eq_of_forall₂ (hnested.imp fun _ _ h => h.signature)]
    · intro f hf
      obtain ⟨f', -, h⟩ := exists_of_mem_left hfields f hf
      exact h.left
    · intro f hf
      obtain ⟨f', -, h⟩ := exists_of_mem_left hfields.flip f hf
      exact h.right

theorem toMessages_locations : ∀ (path : List Int32) (kind : PathKind) (index : Nat)
    (ds : List MessageDescriptor), ResultRel Eq (List.Forall₂ Message.SameButNotes)
      (MessageDescriptor.toMessages file locations path kind index ds)
      (MessageDescriptor.toMessages file locations' path kind index ds)
  | _, _, _, [] => .ok .nil
  | path, kind, index, d :: ds => by
    rw [MessageDescriptor.toMessages, MessageDescriptor.toMessages]
    refine (toMessage_locations _ d).bind fun m m' hm => ?_
    exact (toMessages_locations path kind (index + 1) ds).bind fun ms ms' hms => .ok (.cons hm hms)

end

end

/-- Whatever the comments of a descriptor are, its file has the same signature, and every comment of it
is one line. -/
theorem toSchema_locations (f : FileDescriptor) (locations : Option (List Location)) :
    ResultRel Eq (fun s s' => s'.signature = s.signature ∧ s.Noted ∧ s'.Noted) f.toSchema
      ({ f with locations } : FileDescriptor).toSchema := by
  rw [FileDescriptor.toSchema, FileDescriptor.toSchema]
  refine (ResultRel.refl (fun _ => rfl) _).bind fun _ _ _ => ?_
  have henums : ∀ locations', ResultRel Eq (List.Forall₂ fun e e' : EnumDef => e'.bare = e.bare)
      (EnumDescriptor.toEnums (f.name.getD "") (f.locations.getD []) [] .fileEnum f.enums)
      (EnumDescriptor.toEnums (f.name.getD "") locations' [] .fileEnum f.enums) :=
    fun _ => ResultRel.mapM fun p _ => toEnum_locations p.1 _
  refine (henums _).bind fun enums enums' henums => ?_
  refine (toMessages_locations [] .fileMessage 0 f.messages).bind fun ms ms' hms => .ok ?_
  have hms' := hms.flip.imp fun _ _ h => h.symm
  refine ⟨?_, noted_flattenAll hms _, noted_flattenAll hms' _⟩
  simp only [Schema.signature, map_eq_of_forall₂ henums,
    map_eq_of_forall₂ (hms.imp fun _ _ h => h.signature)]

/-- The generated messages of a descriptor are the same whatever its comments are, but for blank lines and
comments; and if there are none, the error is the same. -/
theorem Plugin.live_rosMessages (context : Context) (f : FileDescriptor)
    (locations : Option (List Location)) :
    (rosMessages context { f with locations }).map (List.map OutputFile.live) =
      (rosMessages context f).map (List.map OutputFile.live) := by
  symm
  refine ResultRel.map_eq_map_iff.2 ((toSchema_locations f locations).bind fun s s' hs => ?_)
  obtain ⟨hsignature, hnoted, hnoted'⟩ := hs
  have hlive := live_toRos context.symbols context.options.enumRepr hnoted
  have hlive' := live_toRos context.symbols context.options.enumRepr hnoted'
  rw [hsignature] at hlive'
  -- both are what the common signature gives
  have hsame := (ResultRel.map_eq_map_iff.2 hlive).trans (ResultRel.map_eq_map_iff.2 hlive').symm
  exact (ResultRel.map_eq_map_iff.1 hsame).bind fun c c' hc => .ok hc

/-- No comment, constant, bound or default value changes what a generated text declares. Batches of
sources that can all be read and declare the same fields succeed for the same sources, with outputs of the
same names and texts but for comment lines. A descriptor has the same generated messages whatever its
comments are, none included, but for blank lines and comment lines; and the skeleton that it adds to a
context is the same. -/
theorem comments_change_no_declaration :
    (∀ (sources sources' : List Batch.Source) (package : Option String),
      List.Forall₂ Batch.SameFields sources sources' →
        (Batch.convert sources' package).map Batch.Result.live =
          (Batch.convert sources package).map Batch.Result.live) ∧
      ∀ (f : FileDescriptor) (locations : Option (List Location)),
        ({ f with locations } : FileDescriptor).skeleton = f.skeleton ∧
          ∀ context : Plugin.Context,
            (Plugin.rosMessages context { f with locations }).map (List.map Plugin.OutputFile.live) =
              (Plugin.rosMessages context f).map (List.map Plugin.OutputFile.live) :=
  ⟨fun _ _ package h => Batch.live_convert h package,
    fun f locations => ⟨rfl, fun context => Plugin.live_rosMessages context f locations⟩⟩

/-! ## A source with comments that look like declarations -/

/-- A source of two fields. -/
def probeSource : Batch.Source := ⟨"lab/Probe.msg", "int32 id\nstring[] tags\n"⟩

/-- The same fields with comments, a constant, a default value and bounds. -/
def notedProbeSource : Batch.Source :=
  { path := "lab/Probe.msg"
    text := "# message Probe \x7b\n\nstring LABEL=// int32 id = 9;\nint32 id 7 # \x7d\nstring<=8[<=4] tags\n" }

theorem probe_declarations :
    List.Forall₂ Batch.SameFields [probeSource] [notedProbeSource] ∧
      (Batch.convert [notedProbeSource] none).map Batch.Result.live =
        (Batch.convert [probeSource] none).map Batch.Result.live ∧
      (Batch.outputs (Batch.convert [notedProbeSource] none)).map (·.text) =
        ["// This file was generated. DO NOT EDIT!\n\nsyntax = \"proto3\";\n\npackage lab;\n\n" ++
          "// message Probe \x7b\nmessage Probe \x7b\n  // LABEL = // int32 id = 9;\n  // \x7d\n" ++
          "  int32 id = 1;\n  // string<=8\n  // [<=4]\n  repeated string tags = 2;\n\x7d\n"] := by
  have hsame : List.Forall₂ Batch.SameFields [probeSource] [notedProbeSource] :=
    .cons ⟨rfl, by decide +kernel, by decide +kernel, by decide +kernel⟩ .nil
  exact ⟨hsame, comments_change_no_declaration.1 _ _ none hsame, by decide +kernel⟩

end SchemaBridge
