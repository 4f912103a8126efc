import SchemaBridge.Descriptor.OfSchema
import SchemaBridge.Proofs.SupportedConstructs
import SchemaBridge.Proofs.WireRoundTrip

/-!
# The structure of encoded descriptors

What proto3 asks of a file is said of descriptors: fields have positive numbers of their own, optional
fields have oneofs of their own, enums begin with zero and name each value differently
(`FileDescriptor.IsStructured`). The descriptor of a schema invents the numbers of fields without an
ordinal, the oneofs, and the zero values of enums without one.

Oneofs and zero values are always right (`hasOwnOneofs_descriptor`, `beginsWithZero_descriptor`). The
invented numbers are the positions of the fields, and the invented names are made of the enums' names,
without a look at what is there: `isNumbered_descriptor_iff` and `nodup_names_descriptor_iff` say when
they are not taken.
-/

namespace SchemaBridge

/-! ## What proto3 asks of a file -/

/-- All fields have numbers, which are positive and distinct. -/
structure MessageDescriptor.IsNumbered (d : MessageDescriptor) : Prop where
  positive : ∀ f ∈ d.fields, ∃ n, f.number = some n ∧ 0 < n.toInt
  distinct : (d.fields.map (·.number)).Nodup

/-- Each optional field is the only member of a oneof that is named after it, no other field is in a
oneof, and no two oneofs have one name. -/
structure MessageDescriptor.HasOwnOneofs (d : MessageDescriptor) : Prop where
  own : ∀ f ∈ d.fields, f.proto3Optional = some true →
    ∃ i, f.oneofIndex = some i ∧ 0 ≤ i.toInt ∧
      d.oneofs[i.toInt.toNat]? = some (f.name.map ("_" ++ ·))
  others : ∀ f ∈ d.fields, f.proto3Optional ≠ some true → f.oneofIndex = none
  indices : (d.fields.filterMap (·.oneofIndex)).Nodup
  names : d.oneofs.Nodup

def EnumDescriptor.BeginsWithZero (e : EnumDescriptor) : Prop :=
  e.values.head?.bind (·.number) = some 0

namespace FileDescriptor

/-- The file declares the enum, by itself or in a message at whatever depth. -/
def HasEnum (f : FileDescriptor) (e : EnumDescriptor) : Prop :=
  e ∈ f.enums ∨ ∃ m, f.HasMessage m ∧ e ∈ m.enums

/-- The file obeys the structural rules of proto3 at every depth. -/
structure IsStructured (f : FileDescriptor) : Prop where
  numbers : ∀ m, f.HasMessage m → m.IsNumbered
  oneofs : ∀ m, f.HasMessage m → m.HasOwnOneofs
  zeros : ∀ e, f.HasEnum e → e.BeginsWithZero
  names : ∀ e, f.HasEnum e → (e.values.map (·.name)).Nodup

end FileDescriptor

/-! ## Numbers of fields -/

/-- The number of the field at position `index`. -/
def Field.numberAt (index : Nat) (f : Field) : UInt32 := f.ordinal.getD (UInt32.ofNat (index + 1))

/-- The names of the fields and the ordinals that some of them have are distinct, the ordinals are tags,
and the fields are few enough to be counted in 31 bits. -/
structure Message.IsDistinct (m : Message) : Prop where
  names : (m.fields.map (·.name)).Nodup
  ordinals : (m.fields.filterMap (·.ordinal)).Nodup
  inRange : ∀ f ∈ m.fields, ∀ n, f.ordinal = some n → Wire.IsTag n.toNat
  count : m.fields.length < 2147483648

/-- The position of a field without an ordinal, counted from one, is no ordinal of another field. -/
def Message.LeavesPositions (m : Message) : Prop :=
  ∀ i (hi : i < m.fields.length), m.fields[i].ordinal = none →
    UInt32.ofNat (i + 1) ∉ m.fields.filterMap (·.ordinal)

section

variable {fields : List Field} {m : Message} {d : FieldDescriptor}

theorem toInt_toInt32 {n : UInt32} (h : n.toNat < 2147483648) : n.toInt32.toInt = n.toNat := by
  rw [← Int32.toInt_toBitVec]
  exact BitVec.toInt_eq_toNat_of_lt (by simpa using by omega)

theorem toInt32_inj {n n' : UInt32} : n.toInt32 = n'.toInt32 ↔ n = n' :=
  ⟨fun h => congrArg Int32.toUInt32 h, fun h => congrArg UInt32.toInt32 h⟩

theorem toNat_position {i : Nat} (h : i ≤ 2147483648) : (UInt32.ofNat i).toNat = i := by
  rw [UInt32.toNat_ofNat', Nat.mod_eq_of_lt (by omega)]

theorem mem_fieldDescriptors :
    d ∈ fieldDescriptors fields ↔ ∃ i, ∃ hi : i < fields.length,
      d = fields[i].descriptor i ((fields.take i).countP (·.optional)) := by
  rw [fieldDescriptors, List.mem_mapIdx]
  simp only [eq_comm]

theorem numberAt_pos (h : m.IsDistinct) {i : Nat} (hi : i < m.fields.length) :
    0 < (m.fields[i].numberAt i).toNat ∧ (m.fields[i].numberAt i).toNat < 2147483648 := by
  rw [Field.numberAt]
  have hcount := h.count
  cases hn : m.fields[i].ordinal with
  | none =>
    rw [Option.getD_none, toNat_position (by omega)]
    omega
  | some n =>
    obtain ⟨hpos, hlt⟩ := h.inRange _ (List.getElem_mem hi) n hn
    rw [Option.getD_some]
    omega

theorem Message.LeavesPositions.ne (h : m.LeavesPositions) {i j : Nat} {n : UInt32}
    (hi : i < m.fields.length) (hj : j < m.fields.length) (hnone : m.fields[i].ordinal = none)
    (hn : m.fields[j].ordinal = some n) : m.fields[i].numberAt i ≠ m.fields[j].numberAt j := by
  intro hsame
  rw [Field.numberAt, Field.numberAt, hnone, hn, Option.getD_none, Option.getD_some] at hsame
  exact h i hi hnone (hsame ▸ List.mem_filterMap.2 ⟨_, List.getElem_mem hj, hn⟩)

/-- Fields are numbered differently exactly if no position is taken. -/
theorem numberAt_ne_iff (h : m.IsDistinct) :
    (∀ i j (hi : i < m.fields.length) (hj : j < m.fields.length), i < j →
      m.fields[i].numberAt i ≠ m.fields[j].numberAt j) ↔ m.LeavesPositions := by
  have hordinals := List.pairwise_iff_getElem.1 (List.pairwise_filterMap.1 h.ordinals)
  have hcount := h.count
  constructor
  · intro hdistinct i hi hnone hmem
    obtain ⟨g, hg, hn⟩ := List.mem_filterMap.1 hmem
    obtain ⟨j, hj, rfl⟩ := List.getElem_of_mem hg
    have hsame : m.fields[i].numberAt i = m.fields[j].numberAt j := by
      rw [Field.numberAt, Field.numberAt, hnone, hn]
      rfl
    rcases Nat.lt_trichotomy i j with hlt | rfl | hlt
    · exact hdistinct i j hi hj hlt hsame
    · cases hnone.symm.trans hn
    · exact hdistinct j i hj hi hlt hsame.symm
  · intro hleaves i j hi hj hlt hsame
    cases hni : m.fields[i].ordinal with
    | none =>
      cases hnj : m.fields[j].ordinal with
      | none =>
        rw [Field.numberAt, Field.numberAt, hni, hnj, Option.getD_none, Option.getD_none] at hsame
        have hpositions := congrArg UInt32.toNat hsame
        rw [toNat_position (by omega), toNat_position (by omega)] at hpositions
        omega
      | some n => exact hleaves.ne hi hj hni hnj hsame
    | some n =>
      cases hnj : m.fields[j].ordinal with
      | none => exact hleaves.ne hj hi hnj hni hsame.symm
      | some n' =>
        rw [Field.numberAt, Field.numberAt, hni, hnj] at hsame
        exact hordinals i j hi hj hlt n hni n' hnj hsame

theorem fields_descriptor (m : Message) : m.descriptor.fields = fieldDescriptors m.fields := by
  cases m
  rw [Message.descriptor]

theorem oneofs_descriptor (m : Message) :
    m.descriptor.oneofs = (m.fields.filter (·.optional)).map fun f => some ("_" ++ f.name) := by
  cases m
  rw [Message.descriptor]

theorem numbers_fieldDescriptors (fields : List Field) :
    (fieldDescriptors fields).map (·.number) =
      fields.mapIdx fun i f => some (f.numberAt i).toInt32 :=
  List.ext_getElem (by simp [fieldDescriptors]) fun i hi hi' => by
    simp [fieldDescriptors, Field.descriptor, Field.numberAt]

/-- The fields of a message are numbered rightly exactly if no position of a field without an ordinal is
another field's ordinal. -/
theorem isNumbered_descriptor_iff (h : m.IsDistinct) :
    m.descriptor.IsNumbered ↔ m.LeavesPositions := by
  have hpositive : ∀ d ∈ m.descriptor.fields, ∃ n, d.number = some n ∧ 0 < n.toInt := by
    intro d hd
    rw [fields_descriptor] at hd
    obtain ⟨i, hi, rfl⟩ := mem_fieldDescriptors.1 hd
    obtain ⟨hpos, hlt⟩ := numberAt_pos h hi
    refine ⟨(m.fields[i].numberAt i).toInt32, rfl, ?_⟩
    rw [toInt_toInt32 hlt]
    exact_mod_cast hpos
  have hdistinct : (m.descriptor.fields.map (·.number)).Nodup ↔ m.LeavesPositions := by
    rw [← numberAt_ne_iff h, fields_descriptor, numbers_fieldDescriptors, List.Nodup,
      List.pairwise_iff_getElem]
    simp only [List.getElem_mapIdx, List.length_mapIdx, ne_eq, Option.some.injEq,
      toInt32_inj]
  exact ⟨fun hd => hdistinct.1 hd.distinct, fun hm => ⟨hpositive, hdistinct.2 hm⟩⟩

/-- A message whose fields have all ordinals or none at all is numbered rightly. -/
theorem leavesPositions_of_uniform
    (h : (∀ f ∈ m.fields, f.ordinal.isSome = true) ∨ ∀ f ∈ m.fields, f.ordinal = none) :
    m.LeavesPositions := by
  intro i hi hnone hmem
  rcases h with hall | hnever
  · have hsome := hall _ (List.getElem_mem hi)
    rw [hnone] at hsome
    cases hsome
  · obtain ⟨f, hf, hn⟩ := List.mem_filterMap.1 hmem
    cases (hnever f hf).symm.trans hn

/-! ## Oneofs of optional fields -/

/-- An optional field is the one whose oneof comes after those of the optional fields before it. -/
theorem getElem?_filter_optional {i : Nat} (hi : i < fields.length)
    (hoptional : fields[i].optional = true) :
    (fields.filter (·.optional))[(fields.take i).countP (·.optional)]? = some fields[i] := by
  have hsplit : fields.filter (·.optional) = (fields.take i).filter (·.optional) ++
      fields[i] :: (fields.drop (i + 1)).filter (·.optional) := by
    rw [← List.filter_cons_of_pos hoptional, ← List.filter_append, List.getElem_cons_drop,
      List.take_append_drop]
  rw [hsplit, List.countP_eq_length_filter, List.getElem?_append_right (Nat.le_refl _), Nat.sub_self,
    List.getElem?_cons_zero]

theorem countP_take_lt {i j : Nat} (hi : i < fields.length) (hlt : i < j)
    (hoptional : fields[i].optional = true) :
    (fields.take i).countP (·.optional) < (fields.take j).countP (·.optional) := by
  have hnext : (fields.take (i + 1)).countP (·.optional) =
      (fields.take i).countP (·.optional) + 1 := by
    rw [List.take_succ_eq_append_getElem hi, List.countP_append, List.countP_singleton,
      if_pos hoptional]
  have hle : (fields.take (i + 1)).countP (·.optional) ≤ (fields.take j).countP (·.optional) :=
    (List.take_prefix_take_left hlt).sublist.countP_le
  omega

theorem proto3Optional_descriptor {f : Field} {index oneofs : Nat} :
    (f.descriptor index oneofs).proto3Optional = some true ↔ f.optional = true := by
  simp [Field.descriptor]

theorem oneofIndex_descriptor {f : Field} {index oneofs : Nat} {i : Int32} :
    (f.descriptor index oneofs).oneofIndex = some i ↔ f.optional = true ∧ Int32.ofNat oneofs = i := by
  simp [Field.descriptor]

/-- The number of a oneof is the number of optional fields before its own. -/
theorem toInt_oneofIndex (hcount : fields.length < 2147483648) (i : Nat) :
    (Int32.ofNat ((fields.take i).countP (·.optional))).toInt =
      ((fields.take i).countP (·.optional) : Nat) := by
  have hle : (fields.take i).countP (·.optional) ≤ fields.length :=
    Nat.le_trans List.countP_le_length (List.length_take_le' i fields)
  exact Int32.toInt_ofNat_of_lt (Nat.lt_of_le_of_lt hle hcount)

theorem nodup_oneofIndices (hcount : fields.length < 2147483648) :
    ((fieldDescriptors fields).filterMap (·.oneofIndex)).Nodup := by
  rw [List.Nodup, List.pairwise_filterMap, List.pairwise_iff_getElem]
  intro i j hi hj hlt a ha b hb hsame
  simp only [fieldDescriptors, List.getElem_mapIdx, List.length_mapIdx] at hi hj ha hb
  obtain ⟨hoptional, rfl⟩ := oneofIndex_descriptor.1 ha
  obtain ⟨-, rfl⟩ := oneofIndex_descriptor.1 hb
  -- a later optional field has more of them before it
  have hless := countP_take_lt hi hlt hoptional
  have hcounts := congrArg Int32.toInt hsame
  rw [toInt_oneofIndex hcount i, toInt_oneofIndex hcount j] at hcounts
  omega

theorem nodup_oneofs (hnames : (m.fields.map (·.name)).Nodup) : m.descriptor.oneofs.Nodup := by
  have hdistinct : ((m.fields.filter (·.optional)).map (·.name)).Nodup :=
    hnames.sublist (List.filter_sublist.map _)
  rw [oneofs_descriptor, List.Nodup, List.pairwise_map]
  rw [List.Nodup, List.pairwise_map] at hdistinct
  refine hdistinct.imp fun hne hsame => hne ?_
  exact (String.append_right_inj "_").1 (Option.some.inj hsame)

theorem hasOwnOneofs_descriptor (h : m.IsDistinct) : m.descriptor.HasOwnOneofs := by
  refine ⟨?_, ?_, ?_, nodup_oneofs h.names⟩
  · rw [fields_descriptor, oneofs_descriptor]
    intro d hd hd'
    obtain ⟨i, hi, rfl⟩ := mem_fieldDescriptors.1 hd
    have hoptional := proto3Optional_descriptor.1 hd'
    refine ⟨_, oneofIndex_descriptor.2 ⟨hoptional, rfl⟩, ?_⟩
    rw [toInt_oneofIndex h.count i, Int.toNat_natCast, List.getElem?_map,
      getElem?_filter_optional hi hoptional]
    exact ⟨Int.natCast_nonneg _, rfl⟩
  · rw [fields_descriptor]
    intro d hd hd'
    obtain ⟨i, hi, rfl⟩ := mem_fieldDescriptors.1 hd
    exact if_neg fun hoptional => hd' (proto3Optional_descriptor.2 hoptional)
  · rw [fields_descriptor]
    exact nodup_oneofIndices h.count

/-! ## Values of enums -/

namespace EnumDef

variable {e : EnumDef}

/-- The name of the zero value that an enum would be given is taken by no value, unless the enum has a
zero value. -/
def LeavesUnspecified (e : EnumDef) : Prop :=
  (∀ v ∈ e.values, v.number ≠ 0) → e.unspecified.name ∉ e.values.map (·.name)

theorem beginsWithZero_descriptor (e : EnumDef) : e.descriptor.BeginsWithZero := by
  have hzero : ((e.values.find? (·.number = 0)).getD e.unspecified).number = 0 := by
    cases hfind : e.values.find? (·.number = 0) with
    | none => rfl
    | some v => simpa using List.find?_some hfind
  exact congrArg some hzero

theorem values_zeroFirst (h : ∀ v ∈ e.values, v.number ≠ 0) :
    e.zeroFirst.values = e.unspecified :: e.values := by
  have hfront := e.hasZeroInFront_zeroFirst
  generalize e.zeroFirst = e' at hfront ⊢
  cases hfront with
  | added => rfl
  | moved hvalues _ hzero => exact absurd hzero (h _ (by simp [hvalues]))

theorem perm_zeroFirst {v : EnumValue} (h : v ∈ e.values) (hv : v.number = 0) :
    e.zeroFirst.values.Perm e.values := by
  have hfront := e.hasZeroInFront_zeroFirst
  generalize e.zeroFirst = e' at hfront ⊢
  cases hfront with
  | added hnone => exact absurd hv (hnone v h)
  | moved hvalues =>
    rw [hvalues]
    exact List.perm_middle.symm

/-- The values of an enum are named differently exactly if none has the name of one that is added. -/
theorem nodup_names_descriptor_iff (h : (e.values.map (·.name)).Nodup) :
    (e.descriptor.values.map (·.name)).Nodup ↔ e.LeavesUnspecified := by
  have hnames : e.descriptor.values.map (·.name) = (e.zeroFirst.values.map (·.name)).map some := by
    simp [descriptor, EnumValue.descriptor]
  rw [hnames, List.nodup_map_iff fun _ _ => Option.some.inj]
  by_cases hnone : ∀ v ∈ e.values, v.number ≠ 0
  · rw [values_zeroFirst hnone, List.map_cons, List.nodup_cons]
    exact ⟨fun hd _ => hd.1, fun hleaves => ⟨hleaves hnone, h⟩⟩
  · have hleaves : e.LeavesUnspecified := fun hnone' => absurd hnone' hnone
    push Not at hnone
    obtain ⟨v, hv, hzero⟩ := hnone
    exact iff_of_true (((perm_zeroFirst hv hzero).map _).nodup_iff.2 h) hleaves

end EnumDef

/-! ## Whole files -/

theorem MessageDescriptor.within_iff {d m : MessageDescriptor} :
    d.Within m ↔ m = d ∨ ∃ outer ∈ m.nested, d.Within outer := by
  constructor
  · rintro (_ | ⟨hmem, h⟩)
    · exact .inl rfl
    · exact .inr ⟨_, hmem, h⟩
  · rintro (rfl | ⟨outer, hmem, h⟩)
    · exact .self _
    · exact .nested hmem h

mutual

/-- The descriptor of a message has the descriptors of the messages in it, and no others. -/
theorem within_descriptor_iff {d : MessageDescriptor} : ∀ (m : Message) (scope : TypeName),
    d.Within m.descriptor ↔ ∃ p ∈ m.flatten scope, p.2.descriptor = d
  | ⟨name, fields, nested, enums, constants, comments⟩, scope => by
    have hnested := within_descriptors_iff (d := d) nested (scope.child name)
    rw [MessageDescriptor.within_iff, Message.flatten]
    simp only [Message.descriptor, List.mem_cons, or_and_right, exists_or, exists_eq_left, hnested]

theorem within_descriptors_iff {d : MessageDescriptor} : ∀ (ms : List Message) (scope : TypeName),
    (∃ top ∈ Message.descriptors ms, d.Within top) ↔
      ∃ p ∈ Message.flattenAll scope ms, p.2.descriptor = d
  | [], _ => by simp [Message.descriptors, Message.flattenAll]
  | m :: ms, scope => by
    have hfirst := within_descriptor_iff (d := d) m scope
    have hrest := within_descriptors_iff (d := d) ms scope
    simp only [Message.descriptors, Message.flattenAll, List.mem_cons, List.mem_append,
      or_and_right, exists_or, exists_eq_left, hfirst, hrest]

end

variable {s : Schema}

theorem hasMessage_ofSchema_iff {d : MessageDescriptor} :
    (FileDescriptor.ofSchema s).HasMessage d ↔ ∃ p ∈ s.flatten, p.2.descriptor = d :=
  within_descriptors_iff s.messages (.root s.package)

theorem enums_descriptor (m : Message) : m.descriptor.enums = m.enums.map EnumDef.descriptor := by
  cases m
  rw [Message.descriptor]

theorem hasEnum_ofSchema_iff {d : EnumDescriptor} :
    (FileDescriptor.ofSchema s).HasEnum d ↔ ∃ p ∈ s.namedEnums, p.2.descriptor = d := by
  rw [FileDescriptor.HasEnum]
  simp only [hasMessage_ofSchema_iff, Schema.namedEnums, List.mem_append, or_and_right, exists_or]
  refine or_congr ?_ ?_
  · simp [FileDescriptor.ofSchema]
  · constructor
    · rintro ⟨_, ⟨p, hp, rfl⟩, hd⟩
      rw [enums_descriptor] at hd
      obtain ⟨e, he, rfl⟩ := List.mem_map.1 hd
      exact ⟨_, List.mem_flatMap.2 ⟨p, hp, List.mem_map.2 ⟨e, he, rfl⟩⟩, rfl⟩
    · rintro ⟨q, hq, rfl⟩
      obtain ⟨p, hp, hq⟩ := List.mem_flatMap.1 hq
      obtain ⟨e, he, rfl⟩ := List.mem_map.1 hq
      refine ⟨_, ⟨p, hp, rfl⟩, ?_⟩
      rw [enums_descriptor]
      exact List.mem_map.2 ⟨e, he, rfl⟩

/-- The schema's own names and ordinals are distinct, at every depth. -/
structure Schema.IsDistinct (s : Schema) : Prop where
  messages : ∀ p ∈ s.flatten, p.2.IsDistinct
  enums : ∀ p ∈ s.namedEnums, (p.2.values.map (·.name)).Nodup

/-- The schema leaves room for all numbers and names that its descriptor invents. -/
structure Schema.LeavesRoom (s : Schema) : Prop where
  positions : ∀ p ∈ s.flatten, p.2.LeavesPositions
  unspecified : ∀ p ∈ s.namedEnums, p.2.LeavesUnspecified

/-- The descriptor of a schema whose names and ordinals are distinct has the oneofs and the zero values
that proto3 asks for. Its numbers and names are distinct as well exactly if the schema leaves room for
those that are invented. -/
theorem descriptor_structure (h : s.IsDistinct) :
    (∀ m, (FileDescriptor.ofSchema s).HasMessage m → m.HasOwnOneofs) ∧
      (∀ e, (FileDescriptor.ofSchema s).HasEnum e → e.BeginsWithZero) ∧
      ((FileDescriptor.ofSchema s).IsStructured ↔ s.LeavesRoom) := by
  have honeofs : ∀ m, (FileDescriptor.ofSchema s).HasMessage m → m.HasOwnOneofs := by
    intro d hd
    obtain ⟨p, hp, rfl⟩ := hasMessage_ofSchema_iff.1 hd
    exact hasOwnOneofs_descriptor (h.messages p hp)
  have hzeros : ∀ e, (FileDescriptor.ofSchema s).HasEnum e → e.BeginsWithZero := by
    intro d hd
    obtain ⟨p, -, rfl⟩ := hasEnum_ofSchema_iff.1 hd
    exact p.2.beginsWithZero_descriptor
  refine ⟨honeofs, hzeros, fun hstructured => ?_, fun hroom => ?_⟩
  · constructor
    · intro p hp
      have hnumbers := hstructured.numbers _ (hasMessage_ofSchema_iff.2 ⟨p, hp, rfl⟩)
      exact (isNumbered_descriptor_iff (h.messages p hp)).1 hnumbers
    · intro p hp
      have hnames := hstructured.names _ (hasEnum_ofSchema_iff.2 ⟨p, hp, rfl⟩)
      exact (EnumDef.nodup_names_descriptor_iff (h.enums p hp)).1 hnames
  · refine ⟨fun d hd => ?_, honeofs, hzeros, fun d hd => ?_⟩
    · obtain ⟨p, hp, rfl⟩ := hasMessage_ofSchema_iff.1 hd
      exact (isNumbered_descriptor_iff (h.messages p hp)).2 (hroom.positions p hp)
    · obtain ⟨p, hp, rfl⟩ := hasEnum_ofSchema_iff.1 hd
      exact (EnumDef.nodup_names_descriptor_iff (h.enums p hp)).2 (hroom.unspecified p hp)

/-- A message whose first field has the position of the second one as its ordinal. -/
def clashMessage : Message :=
  { name := "Clash"
    fields :=
      [{ name := "a", type := .scalar .bool, ordinal := some 2 },
       { name := "b", type := .scalar .bool }] }

def clashFile : Schema :=
  { name := "lab/Clash.proto", dialect := .proto3, package := ["lab"], messages := [clashMessage] }

theorem descriptor_structure_clashFile :
    clashFile.IsDistinct ∧ ¬ (FileDescriptor.ofSchema clashFile).IsStructured ∧
      ∀ m, (FileDescriptor.ofSchema clashFile).HasMessage m → m.HasOwnOneofs := by
  have hflatten : clashFile.flatten = [((TypeName.root ["lab"]).child "Clash", clashMessage)] := rfl
  have henums : clashFile.namedEnums = [] := rfl
  have hmessage : clashMessage.IsDistinct :=
    { names := by decide
      ordinals := by decide
      inRange := by simp [clashMessage, Wire.IsTag]
      count := by decide }
  have hdistinct : clashFile.IsDistinct :=
    { messages := by rw [hflatten, List.forall_mem_singleton]; exact hmessage
      enums := by rw [henums]; exact List.forall_mem_nil _ }
  have hroom : ¬ clashFile.LeavesRoom := by
    intro hleaves
    have hpositions : clashMessage.LeavesPositions :=
      hleaves.positions _ (hflatten ▸ List.mem_singleton_self _)
    exact hpositions 1 (by decide) rfl (by decide)
  obtain ⟨honeofs, -, hiff⟩ := descriptor_structure hdistinct
  exact ⟨hdistinct, fun hstructured => hroom (hiff.1 hstructured), honeofs⟩

end

end SchemaBridge
