import SchemaBridge.Descriptor.OfSchema
import SchemaBridge.Proofs.DescriptorCodec
import SchemaBridge.Proofs.WireRoundTrip

/-!
# The descriptor of a schema is read from its bytes

The record of a schema's descriptor conforms to its kind as long as messages are not nested too deep
(`conforms_ofSchema`), and so the descriptor comes back from its bytes (`decode?_toDescriptor`).
-/

namespace SchemaBridge

open Wire Descriptor

/-! ## Parts of a record -/

section

variable {κ : Type} {fields : κ → Nat → Option (FieldKind κ)} {budget tag : Nat} {kind inner : κ}

theorem conforms_ofTexts (htag : IsTag tag) (hf : fields kind tag = some .text) (ss : List String) :
    Conforms fields budget kind (Record.ofTexts tag ss) := by
  induction ss with
  | nil => exact .nil
  | cons s ss ih => exact .text htag hf ih

theorem conforms_ofText (htag : IsTag tag) (hf : fields kind tag = some .text) (s : Option String) :
    Conforms fields budget kind (Record.ofText tag s) := by
  cases s with
  | none => exact .nil
  | some s => exact .text htag hf .nil

theorem conforms_ofInt32 (htag : IsTag tag) (hf : fields kind tag = some .varint)
    (i : Option Int32) : Conforms fields budget kind (Record.ofInt32 tag i) := by
  cases i with
  | none => exact .nil
  | some i => exact .varint htag (.inl hf) .nil

theorem conforms_ofBool (htag : IsTag tag) (hf : fields kind tag = some .varint) (b : Option Bool) :
    Conforms fields budget kind (Record.ofBool tag b) := by
  cases b with
  | none => exact .nil
  | some b => exact .varint htag (.inl hf) .nil

theorem conforms_ofInt32s (htag : IsTag tag) (hf : fields kind tag = some .varints)
    (is : List Int32) : Conforms fields budget kind (Record.ofInt32s tag is) := by
  unfold Record.ofInt32s
  split
  · exact .nil
  · exact .packed htag hf .nil

/-- Records inside a record need some budget, and have one less. -/
theorem conforms_ofRecords (htag : IsTag tag) (hf : fields kind tag = some (.record inner))
    {rs : List Record} (hrs : ∀ r ∈ rs, ∃ left, budget = left + 1 ∧ Conforms fields left inner r) :
    Conforms fields budget kind (Record.ofRecords tag rs) := by
  induction rs with
  | nil => exact .nil
  | cons r rs ih =>
    obtain ⟨hr, hrs⟩ := List.forall_mem_cons.1 hrs
    obtain ⟨left, rfl, hr⟩ := hr
    exact .record htag hf hr (ih hrs)

end

/-! ## Nesting -/

mutual

/-- How many records are nested in each other in the descriptor of a message. -/
def Message.depth : Message → Nat
  | ⟨_, fields, nested, enums, _, _⟩ =>
    1 + max (max (if fields.isEmpty then 0 else 1) (if enums.isEmpty then 0 else 2)) (depths nested)

/-- How many records are nested in each other in the descriptors of some messages. -/
def Message.depths : List Message → Nat
  | [] => 0
  | m :: ms => max (depth m) (depths ms)

end

variable {budget : Nat}

theorem Message.depth_eq (m : Message) :
    m.depth = 1 + max (max (if m.fields.isEmpty then 0 else 1) (if m.enums.isEmpty then 0 else 2))
      (Message.depths m.nested) := by
  cases m
  rw [Message.depth]

theorem Message.one_lt_of_depth_le {m : Message} {f : Field} (h : m.depth ≤ budget)
    (hf : f ∈ m.fields) : 1 < budget := by
  have hne : m.fields.isEmpty = false := List.isEmpty_eq_false_iff_exists_mem.2 ⟨f, hf⟩
  rw [Message.depth_eq, hne, if_neg Bool.false_ne_true] at h
  omega

theorem Message.two_lt_of_depth_le {m : Message} {e : EnumDef} (h : m.depth ≤ budget)
    (he : e ∈ m.enums) : 2 < budget := by
  have hne : m.enums.isEmpty = false := List.isEmpty_eq_false_iff_exists_mem.2 ⟨e, he⟩
  rw [Message.depth_eq, hne, if_neg Bool.false_ne_true] at h
  omega

theorem Message.depths_lt_of_depth_le {m : Message} (h : m.depth ≤ budget) :
    Message.depths m.nested < budget := by
  rw [Message.depth_eq] at h
  omega

theorem conforms_field {d : FieldDescriptor} (h : d.options = none) :
    Conforms fieldKind? budget .field d.toRecord := by
  unfold FieldDescriptor.toRecord
  rw [h]
  refine .append (.append (.append (.append (.append (.append (.append (.append (.append (.append
    ?_ ?_) ?_) ?_) ?_) ?_) ?_) .nil) ?_) ?_) ?_
  · exact conforms_ofText (by decide) rfl _
  · exact conforms_ofText (by decide) rfl _
  · exact conforms_ofInt32 (by decide) rfl _
  · exact conforms_ofInt32 (by decide) rfl _
  · exact conforms_ofInt32 (by decide) rfl _
  · exact conforms_ofText (by decide) rfl _
  · exact conforms_ofText (by decide) rfl _
  · exact conforms_ofInt32 (by decide) rfl _
  · exact conforms_ofText (by decide) rfl _
  · exact conforms_ofBool (by decide) rfl _

theorem conforms_enum (e : EnumDef) :
    Conforms fieldKind? (budget + 1) .enum e.descriptor.toRecord := by
  refine .append (.append (conforms_ofText (by decide) rfl _) ?_) .nil
  have hf : fieldKind? .enum 2 = some (.record .enumValue) := rfl
  refine conforms_ofRecords (by decide) hf fun r hr => ⟨budget, rfl, ?_⟩
  obtain ⟨d, hd, rfl⟩ := List.mem_map.1 hr
  obtain ⟨v, -, rfl⟩ := List.mem_map.1 hd
  exact .append (.append (conforms_ofText (by decide) rfl _) (conforms_ofInt32 (by decide) rfl _))
    .nil

theorem conforms_oneof (name : Option String) :
    Conforms fieldKind? budget .oneof (Record.ofText 1 name) :=
  conforms_ofText (by decide) rfl name

theorem of_mem_fieldDescriptors {fields : List Field} {d : FieldDescriptor}
    (h : d ∈ fieldDescriptors fields) : (∃ f, f ∈ fields) ∧ d.options = none := by
  obtain ⟨i, hi, rfl⟩ := List.mem_mapIdx.1 h
  exact ⟨⟨fields[i], List.getElem_mem hi⟩, rfl⟩

mutual

theorem conforms_message : ∀ (m : Message) {budget : Nat}, m.depth ≤ budget + 1 →
    Conforms fieldKind? budget .message m.descriptor.toRecord
  | ⟨name, fields, nested, enums, constants, comments⟩, budget, h => by
    have hfields : ∀ r ∈ (fieldDescriptors fields).map FieldDescriptor.toRecord,
        ∃ left, budget = left + 1 ∧ Conforms fieldKind? left .field r := by
      intro r hr
      obtain ⟨d, hd, rfl⟩ := List.mem_map.1 hr
      obtain ⟨⟨f, hf⟩, hoptions⟩ := of_mem_fieldDescriptors hd
      have := Message.one_lt_of_depth_le h hf
      exact ⟨budget - 1, by omega, conforms_field hoptions⟩
    have henums : ∀ r ∈ (enums.map EnumDef.descriptor).map EnumDescriptor.toRecord,
        ∃ left, budget = left + 1 ∧ Conforms fieldKind? left .enum r := by
      intro r hr
      obtain ⟨d, hd, rfl⟩ := List.mem_map.1 hr
      obtain ⟨e, he, rfl⟩ := List.mem_map.1 hd
      have := Message.two_lt_of_depth_le h he
      obtain ⟨left, rfl⟩ : ∃ left, budget = left + 2 := ⟨budget - 2, by omega⟩
      exact ⟨left + 1, rfl, conforms_enum e⟩
    have honeofs : ∀ r ∈ ((fields.filter (·.optional)).map fun f => some ("_" ++ f.name)).map
        (Record.ofText 1), ∃ left, budget = left + 1 ∧ Conforms fieldKind? left .oneof r := by
      intro r hr
      obtain ⟨o, ho, rfl⟩ := List.mem_map.1 hr
      obtain ⟨f, hf, rfl⟩ := List.mem_map.1 ho
      have := Message.one_lt_of_depth_le h (List.mem_filter.1 hf).1
      exact ⟨budget - 1, by omega, conforms_oneof _⟩
    have hnested : ∀ r ∈ MessageDescriptor.toRecords (Message.descriptors nested),
        ∃ left, budget = left + 1 ∧ Conforms fieldKind? left .message r :=
      conforms_messages nested (Nat.le_of_lt_succ (Message.depths_lt_of_depth_le h))
    rw [Message.descriptor, MessageDescriptor.toRecord]
    refine .append (.append (.append (.append (.append (.append (.append ?_ ?_) ?_) ?_) .nil) .nil)
      .nil) ?_
    · exact conforms_ofText (by decide) rfl _
    · exact conforms_ofRecords (by decide) rfl hfields
    · exact conforms_ofRecords (by decide) rfl hnested
    · exact conforms_ofRecords (by decide) rfl henums
    · exact conforms_ofRecords (by decide) rfl honeofs

theorem conforms_messages : ∀ (ms : List Message) {budget : Nat}, Message.depths ms ≤ budget →
    ∀ r ∈ MessageDescriptor.toRecords (Message.descriptors ms),
      ∃ left, budget = left + 1 ∧ Conforms fieldKind? left .message r
  | [], _, _ => by simp [Message.descriptors, MessageDescriptor.toRecords]
  | m :: ms, budget, h => by
    rw [Message.descriptors, MessageDescriptor.toRecords]
    rw [Message.depths] at h
    have hpos := Message.depths_lt_of_depth_le (Nat.le_refl m.depth)
    intro r hr
    rcases List.mem_cons.1 hr with rfl | hr
    · exact ⟨budget - 1, by omega, conforms_message m (by omega)⟩
    · exact conforms_messages ms (by omega) r hr

end

theorem conforms_location (l : Location) : Conforms fieldKind? budget .location l.toRecord := by
  refine .append (.append (.append (.append ?_ ?_) ?_) ?_) ?_
  · exact conforms_ofInt32s (by decide) rfl _
  · exact conforms_ofInt32s (by decide) rfl _
  · exact conforms_ofText (by decide) rfl _
  · exact conforms_ofText (by decide) rfl _
  · exact conforms_ofTexts (by decide) rfl _

theorem conforms_sourceInfo (ls : Option (List Location)) :
    Conforms fieldKind? (budget + 2) .file
      (Record.ofRecord 9 (ls.map fun ls => Record.ofRecords 1 (ls.map Location.toRecord))) := by
  cases ls with
  | none => exact .nil
  | some ls =>
    have hinfo : fieldKind? .file 9 = some (.record .sourceInfo) := rfl
    have hlocation : fieldKind? .sourceInfo 1 = some (.record .location) := rfl
    refine .record (by decide) hinfo ?_ .nil
    refine conforms_ofRecords (by decide) hlocation fun r hr => ⟨budget, rfl, ?_⟩
    obtain ⟨l, -, rfl⟩ := List.mem_map.1 hr
    exact conforms_location l

theorem toRecords_eq_map (ms : List MessageDescriptor) :
    MessageDescriptor.toRecords ms = ms.map MessageDescriptor.toRecord := by
  induction ms with
  | nil => rfl
  | cons m ms ih => rw [MessageDescriptor.toRecords, ih, List.map_cons]

theorem conforms_ofSchema {s : Schema} (h : Message.depths s.messages ≤ nestingBudget) :
    Conforms fieldKind? nestingBudget .file (FileDescriptor.ofSchema s).toRecord := by
  have hmessages := conforms_messages s.messages h
  rw [toRecords_eq_map] at hmessages
  have henums : ∀ r ∈ (s.enums.map EnumDef.descriptor).map EnumDescriptor.toRecord,
      ∃ left, nestingBudget = left + 1 ∧ Conforms fieldKind? left .enum r := by
    intro r hr
    obtain ⟨d, hd, rfl⟩ := List.mem_map.1 hr
    obtain ⟨e, -, rfl⟩ := List.mem_map.1 hd
    exact ⟨99, rfl, conforms_enum e⟩
  unfold FileDescriptor.toRecord FileDescriptor.ofSchema
  refine .append (.append (.append (.append (.append (.append (.append (.append ?_ ?_) ?_) ?_) ?_)
    .nil) .nil) ?_) ?_
  · exact conforms_ofText (by decide) rfl _
  · exact conforms_ofText (by decide) rfl _
  · exact conforms_ofTexts (by decide) rfl _
  · exact conforms_ofRecords (by decide) rfl hmessages
  · exact conforms_ofRecords (by decide) rfl henums
  · exact conforms_sourceInfo _
  · exact conforms_ofText (by decide) rfl _

/-- The descriptor of a schema comes back from its bytes, unless messages are nested too deep. -/
theorem decode?_toDescriptor {s : Schema} (h : Message.depths s.messages ≤ nestingBudget)
    (hlen : s.toDescriptor.length < UInt64.size) :
    FileDescriptor.decode? s.toDescriptor = some (FileDescriptor.ofSchema s) := by
  have hrecord := decode?_encode (conforms_ofSchema h) hlen
  rw [FileDescriptor.decode?, decodeRecord?, Schema.toDescriptor, FileDescriptor.encode, hrecord,
    Option.map_some, FileDescriptor.ofRecord_toRecord]

end SchemaBridge
