import SchemaBridge.Descriptor.Codec

/-!
# Descriptors are what their records say

`toRecord` puts every value of a descriptor under a tag of its own, so that `ofRecord` finds it again:
`FileDescriptor.ofRecord_toRecord`, and one lemma of this name for each part of a file.
-/

namespace SchemaBridge.Wire.Record

variable {tag t : Nat} {r r' : Record}

/-! ## Views of the parts of a record -/

@[simp]
theorem texts_append : texts tag (r ++ r') = texts tag r ++ texts tag r' := by simp [texts]

@[simp]
theorem varints_append : varints tag (r ++ r') = varints tag r ++ varints tag r' := by simp [varints]

@[simp]
theorem records_append : records tag (r ++ r') = records tag r ++ records tag r' := by simp [records]

@[simp]
theorem texts_ofTexts (ss : List String) : texts tag (ofTexts t ss) = if t = tag then ss else [] := by
  induction ss with
  | nil => simp [texts, ofTexts]
  | cons s ss ih =>
    have hcons : texts tag (ofTexts t (s :: ss)) =
        (if t = tag then [s] else []) ++ texts tag (ofTexts t ss) := by
      by_cases h : t = tag <;> simp [texts, ofTexts, h]
    rw [hcons, ih]
    split <;> rfl

@[simp]
theorem texts_ofText (s : Option String) :
    texts tag (ofText t s) = if t = tag then s.toList else [] := by
  have h : ofText t s = ofTexts t s.toList := by cases s <;> rfl
  rw [h, texts_ofTexts]

@[simp]
theorem varints_ofInt32 (i : Option Int32) :
    varints tag (ofInt32 t i) = if t = tag then (i.map Wire.ofInt32).toList else [] := by
  cases i <;> simp [varints, ofInt32]

@[simp]
theorem varints_ofBool (b : Option Bool) :
    varints tag (ofBool t b) = if t = tag then (b.map Wire.ofBool).toList else [] := by
  cases b <;> simp [varints, ofBool]

@[simp]
theorem varints_ofInt32s (is : List Int32) :
    varints tag (ofInt32s t is) = if t = tag then is.map Wire.ofInt32 else [] := by
  unfold ofInt32s
  split
  · next h => simp [varints, List.isEmpty_iff.1 h]
  · simp [varints]

@[simp]
theorem records_ofRecords (rs : List Record) :
    records tag (ofRecords t rs) = if t = tag then rs else [] := by
  induction rs with
  | nil => simp [records, ofRecords]
  | cons r rs ih =>
    have hcons : records tag (ofRecords t (r :: rs)) =
        (if t = tag then [r] else []) ++ records tag (ofRecords t rs) := by
      by_cases h : t = tag <;> simp [records, ofRecords, h]
    rw [hcons, ih]
    split <;> rfl

@[simp]
theorem records_ofRecord (r : Option Record) :
    records tag (ofRecord t r) = if t = tag then r.toList else [] := by
  have h : ofRecord t r = ofRecords t r.toList := by cases r <;> rfl
  rw [h, records_ofRecords]

/-- Only texts are found as texts. -/
@[simp]
theorem texts_others :
    (∀ i, texts tag (ofInt32 t i) = []) ∧ (∀ b, texts tag (ofBool t b) = []) ∧
      (∀ is, texts tag (ofInt32s t is) = []) ∧ (∀ r, texts tag (ofRecord t r) = []) ∧
      ∀ rs, texts tag (ofRecords t rs) = [] := by
  refine ⟨fun i => ?_, fun b => ?_, fun is => ?_, fun r => ?_, fun rs => ?_⟩
  · cases i <;> rfl
  · cases b <;> rfl
  · unfold ofInt32s
    split <;> rfl
  · cases r <;> rfl
  · simp [texts, ofRecords]

/-- Only numbers are found as numbers. -/
@[simp]
theorem varints_others :
    (∀ s, varints tag (ofText t s) = []) ∧ (∀ ss, varints tag (ofTexts t ss) = []) ∧
      (∀ r, varints tag (ofRecord t r) = []) ∧ ∀ rs, varints tag (ofRecords t rs) = [] := by
  refine ⟨fun s => ?_, fun ss => ?_, fun r => ?_, fun rs => ?_⟩
  · cases s <;> rfl
  · simp [varints, ofTexts]
  · cases r <;> rfl
  · simp [varints, ofRecords]

/-- Only records are found as records. -/
@[simp]
theorem records_others :
    (∀ s, records tag (ofText t s) = []) ∧ (∀ ss, records tag (ofTexts t ss) = []) ∧
      (∀ i, records tag (ofInt32 t i) = []) ∧ (∀ b, records tag (ofBool t b) = []) ∧
      ∀ is, records tag (ofInt32s t is) = [] := by
  refine ⟨fun s => ?_, fun ss => ?_, fun i => ?_, fun b => ?_, fun is => ?_⟩
  · cases s <;> rfl
  · simp [records, ofTexts]
  · cases i <;> rfl
  · cases b <;> rfl
  · unfold ofInt32s
    split <;> rfl

theorem getLast?_toList {α : Type} (o : Option α) : o.toList.getLast? = o := by cases o <;> rfl

theorem record?_of_records {o : Option Record} (h : records tag r = o.toList) : record? tag r = o := by
  unfold record?
  rw [h]
  cases o <;> simp

end SchemaBridge.Wire.Record

namespace SchemaBridge

open Wire

/-! ## Parts of a file -/

theorem FieldDescriptor.ofRecord_toRecord (f : FieldDescriptor) : ofRecord f.toRecord = f := by
  have hoptions : Record.record? 8 f.toRecord = f.options :=
    Record.record?_of_records (by simp [toRecord])
  rw [ofRecord, hoptions]
  simp [toRecord, Record.text?, Record.int32?, Record.bool?, Record.varint?,
    Record.getLast?_toList, Function.comp_def, toInt32_ofInt32, toBool_ofBool]

theorem EnumValueDescriptor.ofRecord_toRecord (v : EnumValueDescriptor) : ofRecord v.toRecord = v := by
  have hoptions : Record.record? 3 v.toRecord = v.options :=
    Record.record?_of_records (by simp [toRecord])
  rw [ofRecord, hoptions]
  simp [toRecord, Record.text?, Record.int32?, Record.varint?, Record.getLast?_toList,
    Function.comp_def, toInt32_ofInt32]

theorem EnumDescriptor.ofRecord_toRecord (e : EnumDescriptor) : ofRecord e.toRecord = e := by
  have hoptions : Record.record? 3 e.toRecord = e.options :=
    Record.record?_of_records (by simp [toRecord])
  rw [ofRecord, hoptions]
  simp [toRecord, Record.text?, Record.getLast?_toList, Function.comp_def,
    EnumValueDescriptor.ofRecord_toRecord]

theorem Location.ofRecord_toRecord (l : Location) : ofRecord l.toRecord = l := by
  simp [ofRecord, toRecord, Record.text?, Record.getLast?_toList, Function.comp_def, toInt32_ofInt32]

namespace MessageDescriptor

theorem ofItems_eq (r : Record) : ofItems r = (Record.records 3 r).map ofRecord := by
  induction r with
  | nil => simp [ofItems, Record.records]
  | cons item r ih =>
    rw [ofItems, ih]
    cases item with
    | record tag items =>
      by_cases h : tag = 3
      · simp [ofItem, Record.records, h, ofRecord]
      · simp [ofItem, Record.records, h]
    | varint => simp [ofItem, Record.records]
    | packed => simp [ofItem, Record.records]
    | text => simp [ofItem, Record.records]
    | blob => simp [ofItem, Record.records]
    | fixed64 => simp [ofItem, Record.records]

mutual

theorem ofRecord_toRecord : ∀ m : MessageDescriptor, ofRecord m.toRecord = m
  | ⟨name, fields, nested, enums, extensionRanges, extensions, options, oneofs⟩ => by
    have hoptions : Record.record? 7
        (toRecord ⟨name, fields, nested, enums, extensionRanges, extensions, options, oneofs⟩) =
          options :=
      Record.record?_of_records (by simp [toRecord])
    rw [ofRecord, ofItems_eq, ofRecordWith, hoptions]
    have hnested := map_ofRecord_toRecords nested
    simp [toRecord, Record.text?, Record.getLast?_toList, Function.comp_def, hnested,
      FieldDescriptor.ofRecord_toRecord, EnumDescriptor.ofRecord_toRecord]

theorem map_ofRecord_toRecords : ∀ ms : List MessageDescriptor, (toRecords ms).map ofRecord = ms
  | [] => by simp [toRecords]
  | m :: ms => by rw [toRecords, List.map_cons, ofRecord_toRecord m, map_ofRecord_toRecords ms]

end

end MessageDescriptor

theorem FileDescriptor.ofRecord_toRecord (f : FileDescriptor) : ofRecord f.toRecord = f := by
  have hinfo : Record.record? 9 f.toRecord =
      f.locations.map fun ls => Record.ofRecords 1 (ls.map Location.toRecord) :=
    Record.record?_of_records (by simp [toRecord])
  have hlocations : (f.locations.map fun ls => Record.ofRecords 1 (ls.map Location.toRecord)).map
      (fun info => (Record.records 1 info).map Location.ofRecord) = f.locations := by
    cases f.locations with
    | none => rfl
    | some ls => simp [Function.comp_def, Location.ofRecord_toRecord]
  rw [ofRecord, hinfo, hlocations]
  simp [toRecord, Record.text?, Record.getLast?_toList, Function.comp_def,
    MessageDescriptor.ofRecord_toRecord, EnumDescriptor.ofRecord_toRecord,
    FieldDescriptor.ofRecord_toRecord]

end SchemaBridge
