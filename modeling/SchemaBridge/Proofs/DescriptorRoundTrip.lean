import SchemaBridge.Descriptor.ToSchema
import SchemaBridge.Proofs.CommentRoundTrip
import SchemaBridge.Proofs.DescriptorConforms
import SchemaBridge.Proofs.PartByPart

/-!
# Schemas come back from their descriptors in normal form

What of a schema comes back from its descriptor is its normal form (`Schema.normalForm`): types are
spelled as in proto3, fields have numbers, enums begin with zero, and comments are in normal form.

* `toField_descriptor`, `toEnum_descriptor`, `toMessage_descriptor`: the parts of a schema, each with
  the comments that are found at its path.
* `toSchema_ofSchema`: whole schemas.
-/

namespace SchemaBridge

/-! ## The normal form -/

/-- A type as a descriptor spells it. -/
def TypeRef.normalForm : TypeRef → TypeRef
  | .scalar s => .scalar s.toProto
  | .message name => .named ("." ++ name.qualified)
  | .enum name => .named ("." ++ name.qualified)
  | .wellKnown w => .named ("." ++ w.protoName)
  | .named spelling => .named (dotted spelling)

/-- The normal form of the field at position `index`. -/
def Field.normalForm (index : Nat) (f : Field) : Field :=
  { name := f.name
    type := f.type.normalForm
    repeated := f.repeated
    optional := f.optional
    ordinal := some (f.ordinal.getD (UInt32.ofNat (index + 1)))
    comments := normalComments f.comments }

/-- The normal form of an enum value. -/
def EnumValue.normalForm (v : EnumValue) : EnumValue := { v with comments := normalComments v.comments }

/-- The normal form of an enum. -/
def EnumDef.normalForm (e : EnumDef) : EnumDef :=
  { name := e.name
    values := e.zeroFirst.values.map EnumValue.normalForm
    comments := normalComments e.comments }

namespace Message

mutual

/-- The normal form of a message. -/
def normalForm : Message → Message
  | ⟨name, fields, nested, enums, _, comments⟩ =>
    { name
      fields := fields.mapIdx Field.normalForm
      nested := normalForms nested
      enums := enums.map EnumDef.normalForm
      comments := normalComments comments }

/-- The normal forms of some messages. -/
def normalForms : List Message → List Message
  | [] => []
  | m :: ms => normalForm m :: normalForms ms

end

end Message

/-- The normal form of a schema. -/
def Schema.normalForm (s : Schema) : Schema :=
  { name := s.name
    dialect := .proto3
    package := s.package.flatMap packageSegments
    imports := s.imports
    messages := Message.normalForms s.messages
    enums := s.enums.map EnumDef.normalForm }

/-! ## Packages -/

theorem piecesBetween_append {sep : Char → Bool} {c : Char} {text a b : String}
    (htext : text.toList = a.toList ++ c :: b.toList) (hc : sep c = true) :
    piecesBetween sep text = piecesBetween sep a ++ piecesBetween sep b := by
  rw [piecesBetween, htext, List.splitOnP_append_cons _ _ hc, List.filter_append, List.map_append]
  rfl

theorem packageSegments_intercalate (package : List String) :
    packageSegments (".".intercalate package) = package.flatMap packageSegments := by
  induction package with
  | nil => decide
  | cons a package ih =>
    cases package with
    | nil => simp
    | cons b package =>
      have htext : (".".intercalate (a :: b :: package)).toList =
          a.toList ++ '.' :: (".".intercalate (b :: package)).toList := by
        simp [String.intercalate_cons_cons]
      rw [packageSegments, piecesBetween_append htext (by decide), List.flatMap_cons, ← ih]
      rfl

/-- An empty package is left out of a descriptor, which makes no difference. -/
theorem packageSegments_ofSchema (s : Schema) :
    packageSegments ((FileDescriptor.ofSchema s).package.getD "") =
      s.package.flatMap packageSegments := by
  rw [← packageSegments_intercalate]
  simp only [FileDescriptor.ofSchema]
  split
  · next h => rw [show ".".intercalate s.package = "" by simpa using h]; rfl
  · rfl

/-! ## Fields and enums -/

theorem ofNumber?_number (kind : FieldTypeKind) : FieldTypeKind.ofNumber? kind.number = some kind := by
  cases kind <;> decide

theorem typeRef_descriptorType (t : TypeRef) :
    t.descriptorType.typeRef (t.descriptorName?.getD "") = t.normalForm := by
  cases t with
  | scalar s => cases s <;> rfl
  | message name => rfl
  | enum name => rfl
  | wellKnown w => rfl
  | named spelling => rfl

theorem unsupported?_descriptor (f : Field) (index oneofs : Nat) :
    (f.descriptor index oneofs).unsupported? = none := by
  unfold FieldDescriptor.unsupported? Field.descriptor
  cases f.optional <;> rfl

theorem toField_descriptor (file message : String) (comments : List String) (f : Field)
    (index oneofs : Nat) :
    (f.descriptor index oneofs).toField file message comments =
      .ok { f.normalForm index with comments } := by
  have htype : (f.descriptor index oneofs).typeOrDefault = f.type.descriptorType := by
    simp [FieldDescriptor.typeOrDefault, Field.descriptor, ofNumber?_number]
  have hlabel : decide ((f.descriptor index oneofs).labelOrDefault = .repeated) = f.repeated := by
    cases h : f.repeated <;> simp [FieldDescriptor.labelOrDefault, Field.descriptor, h] <;> decide
  have hoptional : decide ((f.descriptor index oneofs).proto3Optional = some true) = f.optional := by
    cases h : f.optional <;> simp [Field.descriptor, h]
  have hname : (f.descriptor index oneofs).typeName.getD "" = f.type.descriptorName?.getD "" := rfl
  have hfield : (f.descriptor index oneofs).field comments =
      { f.normalForm index with comments } := by
    rw [FieldDescriptor.field, htype, hlabel, hoptional, hname, typeRef_descriptorType]
    simp [Field.descriptor, Field.normalForm]
  rw [FieldDescriptor.toField, unsupported?_descriptor, hfield]
  rfl

section

variable {α β ε : Type}

/-- Parts are converted one by one, each with its position. -/
theorem mapM_zipIdx_eq_ok {g : α × Nat → Except ε β} {as : List α} {bs : List β}
    (hlen : as.length = bs.length)
    (h : ∀ i (ha : i < as.length) (hb : i < bs.length), g (as[i], i) = .ok bs[i]) :
    as.zipIdx.mapM g = .ok bs := by
  refine mapM_eq_ok_iff.2 (List.forall₂_iff_get.2 ⟨by simpa using hlen, fun i h1 h2 => ?_⟩)
  simpa using h i (by simpa using h1) h2

/-- The entries of a part at a position. -/
theorem mem_childEntries {entries : List Int32 → α → List CommentEntry} {path : List Int32}
    {kind : PathKind} {index i : Nat} {as : List α} (hi : i < as.length) {e : CommentEntry}
    (he : e ∈ entries (childPath path kind (index + i)) as[i]) :
    e ∈ childEntries entries path kind index as := by
  induction as generalizing index i with
  | nil => simp at hi
  | cons a as ih =>
    cases i with
    | zero => exact List.mem_append_left _ he
    | succ i =>
      refine List.mem_append_right _ (ih (by simpa using hi) ?_)
      rw [Nat.add_assoc, Nat.add_comm 1 i]
      exact he

end

variable {locations : List Location}

/-- The comments of all given declarations are found at their paths. -/
def FindsComments (locations : List Location) (entries : List CommentEntry) : Prop :=
  ∀ e ∈ entries, commentsAt locations e.1 = normalComments e.2

theorem toEnum_descriptor (file : String) {path : List Int32} (e : EnumDef)
    (h : FindsComments locations (enumEntries path e)) :
    e.descriptor.toEnum file locations path = .ok e.normalForm := by
  have hown : commentsAt locations path = normalComments e.comments := h _ (List.mem_cons_self ..)
  have hunsupported : e.descriptor.unsupported? = none := by
    simp [EnumDescriptor.unsupported?, EnumDef.descriptor, setsOptions, EnumValue.descriptor]
  have hvalues : (e.descriptor.values.mapIdx fun i v =>
      v.value (commentsAt locations (childPath path .enumValue i))) =
        e.zeroFirst.values.map EnumValue.normalForm := by
    refine List.ext_getElem (by simp [EnumDef.descriptor]) fun i h1 h2 => ?_
    have hi : i < e.zeroFirst.values.length := by simpa using h2
    have hentry : commentsAt locations (childPath path .enumValue i) =
        normalComments e.zeroFirst.values[i].comments := by
      refine h (_, _) (List.mem_cons_of_mem _ (mem_childEntries hi ?_))
      rw [Nat.zero_add]
      exact List.mem_singleton_self _
    simp [EnumDef.descriptor, EnumValueDescriptor.value, EnumValue.descriptor, EnumValue.normalForm,
      hentry]
  rw [EnumDescriptor.toEnum, hunsupported, hvalues, hown]
  rfl

theorem toEnums_descriptor (file : String) {path : List Int32} {kind : PathKind} (es : List EnumDef)
    (h : FindsComments locations (childEntries enumEntries path kind 0 es)) :
    EnumDescriptor.toEnums file locations path kind (es.map EnumDef.descriptor) =
      .ok (es.map EnumDef.normalForm) := by
  refine mapM_zipIdx_eq_ok (by simp) fun i ha hb => ?_
  have hi : i < es.length := by simpa using ha
  have hentries : FindsComments locations (enumEntries (childPath path kind (0 + i)) es[i]) :=
    fun e he => h e (mem_childEntries hi he)
  simpa using toEnum_descriptor file es[i] hentries

/-! ## Messages and files -/

theorem toFields_descriptor (file name : String) (locations : List Location) (path : List Int32)
    (fields : List Field) :
    ((fieldDescriptors fields).zipIdx.mapM fun (f, i) =>
      f.toField file name (commentsAt locations (childPath path .messageField i))) =
        .ok (fields.mapIdx fun i f =>
          { f.normalForm i with
            comments := commentsAt locations (childPath path .messageField i) }) := by
  refine mapM_zipIdx_eq_ok (by simp [fieldDescriptors]) fun i ha hb => ?_
  have hi : i < fields.length := by simpa using hb
  simpa [fieldDescriptors] using toField_descriptor file name
    (commentsAt locations (childPath path .messageField i)) fields[i] i _

theorem fields_of_findsComments {path : List Int32} {fields : List Field}
    (h : FindsComments locations
      (childEntries (fun path f => leafEntries f.comments path) path .messageField 0 fields)) :
    (fields.mapIdx fun i f =>
      { f.normalForm i with comments := commentsAt locations (childPath path .messageField i) }) =
        fields.mapIdx Field.normalForm := by
  refine List.ext_getElem (by simp) fun i h1 h2 => ?_
  have hi : i < fields.length := by simpa using h2
  have hcomments : commentsAt locations (childPath path .messageField (0 + i)) =
      normalComments fields[i].comments :=
    h (_, _) (mem_childEntries hi (List.mem_singleton_self _))
  rw [Nat.zero_add] at hcomments
  simp [hcomments, Field.normalForm]

mutual

theorem toMessage_descriptor (file : String) : ∀ (m : Message) (path : List Int32),
    FindsComments locations (messageEntries path m) →
    m.descriptor.toMessage file locations path = .ok m.normalForm
  | ⟨name, fields, nested, enums, constants, comments⟩, path, h => by
    have hown : commentsAt locations path = normalComments comments := h _ (List.mem_cons_self ..)
    have hfields := toFields_descriptor file name locations path fields
    rw [fields_of_findsComments fun e he =>
      h e (List.mem_cons_of_mem _ (List.mem_append_left _ (List.mem_append_left _ he)))] at hfields
    have hnested := toMessages_descriptor file nested path .messageNested 0 fun e he =>
      h e (List.mem_cons_of_mem _ (List.mem_append_left _ (List.mem_append_right _ he)))
    have henums := toEnums_descriptor file enums fun e he =>
      h e (List.mem_cons_of_mem _ (List.mem_append_right _ he))
    rw [Message.descriptor, MessageDescriptor.toMessage]
    simp only [MessageDescriptor.unsupported?, unsupportedOption?, Option.getD_some, hfields, henums,
      hnested, hown]
    rfl

theorem toMessages_descriptor (file : String) : ∀ (ms : List Message) (path : List Int32)
    (kind : PathKind) (index : Nat), FindsComments locations (messagesEntries path kind index ms) →
    MessageDescriptor.toMessages file locations path kind index (Message.descriptors ms) =
      .ok (Message.normalForms ms)
  | [], _, _, _, _ => by
    rw [Message.descriptors, MessageDescriptor.toMessages]
    rfl
  | m :: ms, path, kind, index, h => by
    have hm := toMessage_descriptor file m (childPath path kind index) fun e he =>
      h e (List.mem_append_left _ he)
    have hms := toMessages_descriptor file ms path kind (index + 1) fun e he =>
      h e (List.mem_append_right _ he)
    rw [Message.descriptors, MessageDescriptor.toMessages, hm, hms]
    rfl

end

theorem toSchema_ofSchema {s : Schema} (h : s.Short) :
    (FileDescriptor.ofSchema s).toSchema = .ok s.normalForm := by
  have hlocations : (FileDescriptor.ofSchema s).locations.getD [] = s.locations := by
    simp only [FileDescriptor.ofSchema, presentList?]
    split
    · next hempty => rw [List.isEmpty_iff.1 hempty]; rfl
    · rfl
  have hfinds : FindsComments s.locations (schemaEntries s) := fun _ he => commentsAt_locations h he
  have hmessages := toMessages_descriptor s.name s.messages [] .fileMessage 0 fun e he =>
    hfinds e (List.mem_append_left _ he)
  have henums := toEnums_descriptor s.name s.enums fun e he =>
    hfinds e (List.mem_append_right _ he)
  have hsupported : (FileDescriptor.ofSchema s).unsupported? = none := rfl
  rw [FileDescriptor.toSchema, hlocations, hsupported, packageSegments_ofSchema]
  simp only [FileDescriptor.ofSchema, Option.getD_some, henums, hmessages]
  rfl

/-! ## Bytes -/

theorem toDescriptor_ne_nil (s : Schema) : s.toDescriptor ≠ [] := by
  have hrecord : ∃ r, (FileDescriptor.ofSchema s).toRecord = .text 1 s.name :: r := ⟨_, rfl⟩
  obtain ⟨r, hr⟩ := hrecord
  rw [Schema.toDescriptor, FileDescriptor.encode, hr, Wire.encode, Wire.Item.encode, Wire.writeKey]
  simp [Wire.writeNat_ne_nil]

theorem ofDescriptor_eq {s : Schema} (hdepth : Message.depths s.messages ≤ Descriptor.nestingBudget)
    (hlen : s.toDescriptor.length < UInt64.size) :
    Schema.ofDescriptor s.toDescriptor =
      (FileDescriptor.ofSchema s).toSchema.mapError .convert := by
  have hne : s.toDescriptor.isEmpty = false := by simpa using toDescriptor_ne_nil s
  rw [Schema.ofDescriptor, hne, decode?_toDescriptor hdepth hlen]
  rfl

/-- A schema comes back from its descriptor in normal form, however its messages and enums are
nested, as long as the reader's limit is not reached. Positions fit in 31 bits, and the number of
bytes fits in a machine word. -/
theorem ofDescriptor_toDescriptor {s : Schema}
    (hdepth : Message.depths s.messages ≤ Descriptor.nestingBudget) (hshort : s.Short)
    (hlen : s.toDescriptor.length < UInt64.size) :
    Schema.ofDescriptor s.toDescriptor = .ok s.normalForm := by
  rw [ofDescriptor_eq hdepth hlen, toSchema_ofSchema hshort]
  rfl

/-- A schema with a nested message, an enum without a zero value in front, and untidy comments. -/
def shapeSchema : Schema :=
  { name := "geo/shape.proto"
    dialect := .ros
    package := ["geo", "a..b"]
    messages :=
      [{ name := "Shape"
         fields :=
           [{ name := "center", type := .named "geo/Point", optional := true,
              comments := [" a\n b ", ""] },
            { name := "size", type := .scalar .int8, repeated := true, ordinal := some 7 }]
         nested :=
           [{ name := "Edge"
              fields := [{ name := "kind", type := .enum ⟨["geo"], ["Shape", "Kind"]⟩ }]
              comments := ["an edge"] }]
         enums :=
           [{ name := "Kind"
              values := [⟨"ROUND", 1, ["round"]⟩, ⟨"NONE", 0, ["nothing"]⟩] }]
         constants := [{ name := "SIDES", type := .int32, value := "4" }]
         comments := ["a shape\r\n of any kind"] }]
    enums := [{ name := "Unit", values := [⟨"METRE", 3, []⟩] }] }

theorem ofDescriptor_toDescriptor_shape :
    Message.depths shapeSchema.messages ≤ Descriptor.nestingBudget ∧ shapeSchema.Short ∧
      shapeSchema.toDescriptor.length < UInt64.size ∧
      Schema.ofDescriptor shapeSchema.toDescriptor = .ok shapeSchema.normalForm := by
  have hdepth : Message.depths shapeSchema.messages ≤ Descriptor.nestingBudget := by decide
  have hshort : shapeSchema.Short := by
    simp [Schema.Short, Message.AllShort, Message.Short, shapeSchema, positionLimit]
  have hlen : shapeSchema.toDescriptor.length < UInt64.size := by decide +kernel
  exact ⟨hdepth, hshort, hlen, ofDescriptor_toDescriptor hdepth hshort hlen⟩

end SchemaBridge
