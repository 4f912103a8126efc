import SchemaBridge.Proofs.DescriptorCodec
import SchemaBridge.Proofs.DescriptorStructure
import SchemaBridge.Proofs.WireRoundTrip

/-!
# Options on the wire

Which options of a file are refused is said of its bytes: a file is accepted exactly if a schema can
hold the rest of it, and its options set none that is known but the harmless ones
(`Schema.exists_ofDescriptor_iff`). An option that is not known, as every custom one, is skipped when
the bytes are decoded, and so it is refused nowhere.

* `forall₂_of_decode?`: the items of a record are the known fields of its bytes.
* `setsNoKnownOption_iff`: so the parts of a file and the options that they set are the same in its
  bytes and in its record.
* `messageOptions_iff` and its siblings: what stands in the options of a record is what the options of
  the decoded declarations set.
-/

namespace SchemaBridge

namespace Wire

/-! ## The fields of a record on the wire -/

/-- The depth of open groups after a token. -/
def Payload.depthAfter : Payload → Nat → Nat
  | .openGroup, depth => depth + 1
  | .closeGroup, depth => depth - 1
  | _, depth => depth

/-- The tokens that are in no group, `depth` groups being open in front of them. -/
def ownTokens : Nat → List Token → List Token
  | _, [] => []
  | depth, t :: tokens =>
    (if depth = 0 then [t] else []) ++ ownTokens (t.payload.depthAfter depth) tokens

/-- The fields of the record that some bytes are, known or not; a group is one field. -/
def fieldsOf (bs : List UInt8) : List Token := ownTokens 0 ((tokens? bs).getD [])

section

variable {κ : Type} {inner : κ → List UInt8 → Option Record} {fields : Nat → Option (FieldKind κ)}
  {budget : Nat} {t : Token} {item : Item} {r : Record}

/-- The field is known, and is read as the item. -/
def ReadsAs (inner : κ → List UInt8 → Option Record) (fields : Nat → Option (FieldKind κ)) (t : Token)
    (item : Item) : Prop :=
  ∃ kind, fields t.tag = some kind ∧ readItem? inner t.tag kind t.payload = some item

theorem tag_of_readItem? {tag : Nat} {kind : FieldKind κ} {payload : Payload}
    (h : readItem? inner tag kind payload = some item) : item.tag = tag := by
  unfold readItem? at h
  split at h
  all_goals first
    | (obtain rfl := Option.some.inj h; rfl)
    | (obtain ⟨_, -, rfl⟩ := Option.map_eq_some_iff.1 h; rfl)
    | cases h

theorem depthAfter_of_readItem? {tag : Nat} {kind : FieldKind κ} {payload : Payload}
    (h : readItem? inner tag kind payload = some item) : payload.depthAfter 0 = 0 := by
  cases payload with
  | openGroup => cases kind <;> cases h
  | _ => rfl

/-- Outside all groups a token is a known field and gives an item, or it is skipped. -/
theorem readItems?_outside {tokens : List Token}
    (h : readItems? inner fields budget [] (t :: tokens) = some r) :
    (∃ item rest, r = item :: rest ∧ ReadsAs inner fields t item ∧
        readItems? inner fields budget [] tokens = some rest) ∨
      fields t.tag = none ∧ ∃ groups : List Nat, groups.length = t.payload.depthAfter 0 ∧
        readItems? inner fields budget groups tokens = some r := by
  obtain ⟨tag, payload⟩ := t
  cases hkind : fields tag with
  | some kind =>
    cases hitem : readItem? inner tag kind payload with
    | none => simp [readItems?, hkind, hitem] at h
    | some item =>
      simp only [readItems?, hkind, hitem] at h
      obtain ⟨rest, hrest, rfl⟩ := Option.map_eq_some_iff.1 h
      exact .inl ⟨item, rest, rfl, ⟨kind, hkind, hitem⟩, hrest⟩
  | none =>
    refine .inr ⟨rfl, ?_⟩
    have hbudget : budget ≠ 0 := by
      rintro rfl
      simp [readItems?, hkind] at h
    cases payload with
    | openGroup =>
      simp only [readItems?, hkind, if_neg hbudget] at h
      exact ⟨[tag], rfl, h⟩
    | closeGroup => simp [readItems?, hkind] at h
    | _ =>
      simp only [readItems?, hkind, if_neg hbudget] at h
      exact ⟨[], rfl, h⟩

/-- Inside a group every token is skipped. -/
theorem readItems?_inside {group : Nat} {groups : List Nat} {tokens : List Token}
    (h : readItems? inner fields budget (group :: groups) (t :: tokens) = some r) :
    ∃ groups' : List Nat, groups'.length = t.payload.depthAfter (groups.length + 1) ∧
      readItems? inner fields budget groups' tokens = some r := by
  obtain ⟨tag, payload⟩ := t
  cases payload with
  | closeGroup =>
    simp only [readItems?] at h
    split at h
    · exact ⟨groups, rfl, h⟩
    · cases h
  | openGroup =>
    simp only [readItems?] at h
    split at h
    · cases h
    · exact ⟨tag :: group :: groups, rfl, h⟩
  | _ =>
    simp only [readItems?] at h
    split at h
    · cases h
    · exact ⟨group :: groups, rfl, h⟩

/-- The items of a record are its known fields, in their order. -/
theorem forall₂_of_readItems? {groups : List Nat} {tokens : List Token}
    (h : readItems? inner fields budget groups tokens = some r) :
    List.Forall₂ (ReadsAs inner fields)
      ((ownTokens groups.length tokens).filter fun t => (fields t.tag).isSome) r := by
  induction tokens generalizing groups r with
  | nil =>
    cases groups with
    | nil =>
      obtain rfl := Option.some.inj h
      exact .nil
    | cons group groups => cases h
  | cons t tokens ih =>
    cases groups with
    | nil =>
      rcases readItems?_outside h with ⟨item, rest, rfl, ⟨kind, hkind, hitem⟩, hrest⟩ |
        ⟨hunknown, groups, hlength, hrest⟩
      · have hrests := ih hrest
        rw [List.length_nil, ownTokens, if_pos rfl, List.singleton_append, depthAfter_of_readItem? hitem,
          List.filter_cons_of_pos (by rw [hkind]; rfl)]
        exact .cons ⟨kind, hkind, hitem⟩ hrests
      · have hrests := ih hrest
        rw [List.length_nil, ownTokens, if_pos rfl, List.singleton_append,
          List.filter_cons_of_neg (by simp [hunknown]), ← hlength]
        exact hrests
    | cons group groups =>
      obtain ⟨groups', hlength, hrest⟩ := readItems?_inside h
      rw [List.length_cons, ownTokens, if_neg (by simp), List.nil_append, ← hlength]
      exact ih hrest

end

section

variable {κ : Type} {fields : κ → Nat → Option (FieldKind κ)} {kind inner : κ} {budget tag : Nat}
  {bs content : List UInt8} {r items : Record} {t : Token} {item : Item}

/-- The items of a record that is decoded are the known fields of its bytes, in their order. -/
theorem forall₂_of_decode? (h : decode? fields budget kind bs = some r) :
    List.Forall₂ (ReadsAs (readInner fields budget) (fields kind))
      ((fieldsOf bs).filter fun t => (fields kind t.tag).isSome) r := by
  rw [decode?_eq] at h
  obtain ⟨tokens, htokens, h⟩ := Option.bind_eq_some_iff.1 h
  rw [fieldsOf, htokens]
  exact forall₂_of_readItems? h

theorem exists_field_of_decode? (h : decode? fields budget kind bs = some r) (hitem : item ∈ r) :
    ∃ t ∈ fieldsOf bs, ReadsAs (readInner fields budget) (fields kind) t item := by
  obtain ⟨t, ht, hreads⟩ := exists_of_mem_left (forall₂_of_decode? h).flip item hitem
  exact ⟨t, (List.mem_filter.1 ht).1, hreads⟩

theorem exists_item_of_decode? (h : decode? fields budget kind bs = some r) (ht : t ∈ fieldsOf bs)
    (hknown : fields kind t.tag ≠ none) :
    ∃ item ∈ r, ReadsAs (readInner fields budget) (fields kind) t item :=
  exists_of_mem_left (forall₂_of_decode? h) t
    (List.mem_filter.2 ⟨ht, Option.isSome_iff_ne_none.2 hknown⟩)

/-- A field that is known to hold a record of some kind is read as the record that its content is. -/
theorem exists_items_of_readsAs (hkind : fields kind tag = some (.record inner))
    (h : ReadsAs (readInner fields budget) (fields kind) ⟨tag, .bytes content⟩ item) :
    ∃ less items, item = .record tag items ∧ decode? fields less inner content = some items := by
  obtain ⟨known, hknown, hitem⟩ := h
  obtain rfl : known = .record inner := Option.some.inj (hknown.symm.trans hkind)
  obtain ⟨items, hitems, rfl⟩ := Option.map_eq_some_iff.1 hitem
  cases budget with
  | zero => cases hitems
  | succ less => exact ⟨less, items, rfl, hitems⟩

theorem exists_content_of_readsAs (hkind : fields kind tag = some (.record inner))
    (h : ReadsAs (readInner fields budget) (fields kind) t (.record tag items)) :
    ∃ less content, t = ⟨tag, .bytes content⟩ ∧ decode? fields less inner content = some items := by
  obtain ⟨known, hknown, hitem⟩ := h
  obtain ⟨tag', payload⟩ := t
  obtain rfl : tag = tag' := tag_of_readItem? hitem
  obtain rfl : known = .record inner := Option.some.inj (hknown.symm.trans hkind)
  cases payload with
  | bytes content =>
    obtain ⟨items', hitems, hsame⟩ := Option.map_eq_some_iff.1 hitem
    obtain rfl := (Item.record.inj hsame).2
    cases budget with
    | zero => cases hitems
    | succ less => exact ⟨less, content, rfl, hitems⟩
  | _ => cases hitem

end

theorem Record.mem_records {r items : Record} {tag : Nat} :
    items ∈ Record.records tag r ↔ .record tag items ∈ r := by
  rw [Record.records, List.mem_filterMap]
  constructor
  · rintro ⟨item, hitem, hsome⟩
    cases item with
    | record tag' items' =>
      obtain ⟨rfl, hitems⟩ := Option.ite_none_right_eq_some.1 hsome
      obtain rfl := Option.some.inj hitems
      exact hitem
    | _ => cases hsome
  · exact fun hitem => ⟨_, hitem, if_pos rfl⟩

end Wire

namespace Descriptor

open Wire

variable {bs content : List UInt8} {r items outer : Record} {kind inner : RecordKind} {tag : Nat}
  {allowed : List Nat}

/-! ## Declarations and options in a file -/

/-- The records that stand for the declarations of a file and for their options: each is of a kind, and
stands under a tag in a record of another kind. -/
def parts : List (RecordKind × Nat × RecordKind) :=
  [(.file, 4, .message), (.file, 5, .enum),
   (.message, 2, .field), (.message, 3, .message), (.message, 4, .enum), (.enum, 2, .enumValue),
   (.message, 7, .messageOptions), (.field, 8, .fieldOptions), (.enum, 3, .enumOptions),
   (.enumValue, 3, .enumValueOptions)]

/-- The tags of the options that a schema can go without: `map_entry` of a message and `packed` of a
field. -/
def harmless? : RecordKind → Option (List Nat)
  | .messageOptions => some [7]
  | .fieldOptions => some [2]
  | .enumOptions | .enumValueOptions => some []
  | _ => none

/-- The bytes `content` are a part of the file that `bs` are, at whatever depth. -/
inductive Serialized (bs : List UInt8) : RecordKind → List UInt8 → Prop
  | file : Serialized bs .file bs
  | part {kind inner : RecordKind} {tag : Nat} {outer content : List UInt8}
      (h : Serialized bs kind outer) (hpart : (kind, tag, inner) ∈ parts)
      (hfield : ⟨tag, .bytes content⟩ ∈ fieldsOf outer) : Serialized bs inner content

/-- The options in the file set none that is known, but for the harmless ones. -/
def SetsNoKnownOption (bs : List UInt8) : Prop :=
  ∀ kind content allowed, Serialized bs kind content → harmless? kind = some allowed →
    ∀ t ∈ fieldsOf content, t.tag ∈ allowed ∨ fieldKind? kind t.tag = none

/-- The record `items` is a part of the record of a file, at whatever depth. -/
inductive Contains (r : Record) : RecordKind → Record → Prop
  | file : Contains r .file r
  | part {kind inner : RecordKind} {tag : Nat} {outer items : Record} (h : Contains r kind outer)
      (hpart : (kind, tag, inner) ∈ parts) (hitem : .record tag items ∈ outer) :
      Contains r inner items

theorem fieldKind?_of_mem_parts (h : (kind, tag, inner) ∈ parts) :
    fieldKind? kind tag = some (.record inner) := by
  have hall : ∀ p ∈ parts, fieldKind? p.1 p.2.1 = some (.record p.2.2) := by decide
  exact hall _ h

/-- What is a part of the bytes is decoded to a part of the record. -/
theorem Serialized.exists_contained (h : Serialized bs kind content)
    (hr : decode? fieldKind? nestingBudget .file bs = some r) :
    ∃ budget items, Contains r kind items ∧ decode? fieldKind? budget kind content = some items := by
  induction h with
  | file => exact ⟨_, r, .file, hr⟩
  | @part kind inner tag outer content _ hpart hfield ih =>
    obtain ⟨budget, items, hcontains, hdecode⟩ := ih
    have hkind := fieldKind?_of_mem_parts hpart
    obtain ⟨item, hitem, hreads⟩ := exists_item_of_decode? hdecode hfield (by simp [hkind])
    obtain ⟨less, items', rfl, hinner⟩ := exists_items_of_readsAs hkind hreads
    exact ⟨less, items', hcontains.part hpart hitem, hinner⟩

/-- What is a part of the record is decoded from a part of the bytes. -/
theorem Contains.exists_serialized (h : Contains r kind items)
    (hr : decode? fieldKind? nestingBudget .file bs = some r) :
    ∃ budget content, Serialized bs kind content ∧
      decode? fieldKind? budget kind content = some items := by
  induction h with
  | file => exact ⟨_, bs, .file, hr⟩
  | @part kind inner tag outer items _ hpart hitem ih =>
    obtain ⟨budget, content, hserialized, hdecode⟩ := ih
    obtain ⟨t, ht, hreads⟩ := exists_field_of_decode? hdecode hitem
    obtain ⟨less, content', rfl, hinner⟩ :=
      exists_content_of_readsAs (fieldKind?_of_mem_parts hpart) hreads
    exact ⟨less, content', hserialized.part hpart ht, hinner⟩

/-- The options in a record are of the harmless tags. -/
def OptionsWithin (r : Record) (kind : RecordKind) (allowed : List Nat) : Prop :=
  ∀ items, Contains r kind items → ∀ item ∈ items, item.tag ∈ allowed

/-- Which known options are set is the same in the bytes and in the record. -/
theorem setsNoKnownOption_iff (hr : decode? fieldKind? nestingBudget .file bs = some r) :
    SetsNoKnownOption bs ↔
      ∀ kind allowed, harmless? kind = some allowed → OptionsWithin r kind allowed := by
  constructor
  · intro h kind allowed hallowed items hcontains item hitem
    obtain ⟨budget, content, hserialized, hdecode⟩ := hcontains.exists_serialized hr
    obtain ⟨t, ht, known, hknown, hread⟩ := exists_field_of_decode? hdecode hitem
    rw [tag_of_readItem? hread]
    refine (h kind content allowed hserialized hallowed t ht).resolve_right ?_
    simp [hknown]
  · intro h kind content allowed hserialized hallowed t ht
    obtain ⟨budget, items, hcontains, hdecode⟩ := hserialized.exists_contained hr
    refine or_iff_not_imp_right.2 fun hknown => ?_
    obtain ⟨item, hitem, known, -, hread⟩ := exists_item_of_decode? hdecode ht hknown
    rw [← tag_of_readItem? hread]
    exact h kind allowed hallowed items hcontains item hitem

/-! ## Options of decoded declarations -/

/-- The kind of part stands in no other place than under the tag in the kind. -/
def OnlyIn (kind : RecordKind) (tag : Nat) (inner : RecordKind) : Prop :=
  (kind, tag, inner) ∈ parts ∧ ∀ p ∈ parts, p.2.2 = inner → p.1 = kind ∧ p.2.1 = tag

instance : Decidable (OnlyIn kind tag inner) := inferInstanceAs (Decidable (_ ∧ _))

theorem contains_iff (honly : OnlyIn kind tag inner) (hfile : inner ≠ .file) :
    Contains r inner items ↔ ∃ outer, Contains r kind outer ∧ .record tag items ∈ outer := by
  constructor
  · rintro (_ | ⟨h, hpart, hitem⟩)
    · exact absurd rfl hfile
    · obtain ⟨rfl, rfl⟩ := honly.2 _ hpart rfl
      exact ⟨_, h, hitem⟩
  · rintro ⟨outer, h, hitem⟩
    exact h.part honly.1 hitem

/-- Options that are put together from several parts set what the parts set. -/
theorem setsOnly_record?_iff :
    SetsOnly allowed (Record.record? tag outer) ↔
      ∀ items, .record tag items ∈ outer → ∀ item ∈ items, item.tag ∈ allowed := by
  have hparts : SetsOnly allowed (Record.record? tag outer) ↔
      ∀ items ∈ Record.records tag outer, ∀ item ∈ items, item.tag ∈ allowed := by
    rw [Record.record?]
    split
    · next hnone => simp [SetsOnly, hnone]
    · rw [setsOnly_some_iff, Record.hasOther, List.any_eq_false]
      simp only [List.mem_flatten, decide_not, Bool.not_eq_true', decide_eq_false_iff_not,
        Classical.not_not]
      constructor
      · exact fun h items hitems item hitem => h item ⟨items, hitems, hitem⟩
      · rintro h item ⟨items, hitems, hitem⟩
        exact h items hitems item hitem
  simpa only [Record.mem_records] using hparts

theorem optionsWithin_iff (honly : OnlyIn kind tag inner) (hfile : inner ≠ .file) :
    OptionsWithin r inner allowed ↔
      ∀ outer, Contains r kind outer → SetsOnly allowed (outer.record? tag) := by
  simp only [OptionsWithin, contains_iff honly hfile, setsOnly_record?_iff]
  constructor
  · exact fun h outer houter items hitem => h items ⟨outer, houter, hitem⟩
  · rintro h items ⟨outer, houter, hitem⟩
    exact h outer houter items hitem

theorem mem_nested_ofRecord {m : MessageDescriptor} :
    m ∈ (MessageDescriptor.ofRecord r).nested ↔
      ∃ items, .record 3 items ∈ r ∧ MessageDescriptor.ofRecord items = m := by
  rw [MessageDescriptor.ofRecord, MessageDescriptor.ofRecordWith, MessageDescriptor.ofItems_eq,
    List.mem_map]
  simp only [Record.mem_records]

theorem mem_messages_ofRecord {m : MessageDescriptor} :
    m ∈ (FileDescriptor.ofRecord r).messages ↔
      ∃ items, .record 4 items ∈ r ∧ MessageDescriptor.ofRecord items = m := by
  rw [FileDescriptor.ofRecord, List.mem_map]
  simp only [Record.mem_records]

theorem exists_contained_of_within {d m : MessageDescriptor} (h : d.Within m)
    (hitems : Contains r .message items) (hm : MessageDescriptor.ofRecord items = m) :
    ∃ items', Contains r .message items' ∧ MessageDescriptor.ofRecord items' = d := by
  induction h generalizing items with
  | self => exact ⟨items, hitems, hm⟩
  | nested hmem _ ih =>
    subst hm
    obtain ⟨items', hitem, houter⟩ := mem_nested_ofRecord.1 hmem
    exact ih (hitems.part (by decide) hitem) houter

theorem contains_file_iff : Contains r .file items ↔ items = r := by
  constructor
  · rintro (_ | ⟨h, hpart, hitem⟩)
    · rfl
    · have hnone : ∀ p ∈ parts, p.2.2 ≠ .file := by decide
      exact absurd rfl (hnone _ hpart)
  · rintro rfl
    exact .file

/-- A kind of part that stands in files and in messages is found there. -/
theorem contains_iff_of_two {inFile inMessage : Nat}
    (honly : (.file, inFile, inner) ∈ parts ∧ (.message, inMessage, inner) ∈ parts ∧
      ∀ p ∈ parts, p.2.2 = inner → p.1 = .file ∧ p.2.1 = inFile ∨ p.1 = .message ∧ p.2.1 = inMessage)
    (hfile : inner ≠ .file) :
    Contains r inner items ↔ .record inFile items ∈ r ∨
      ∃ outer, Contains r .message outer ∧ .record inMessage items ∈ outer := by
  constructor
  · rintro (_ | ⟨h, hpart, hitem⟩)
    · exact absurd rfl hfile
    · rcases honly.2.2 _ hpart rfl with ⟨rfl, rfl⟩ | ⟨rfl, rfl⟩
      · obtain rfl := contains_file_iff.1 h
        exact .inl hitem
      · exact .inr ⟨_, h, hitem⟩
  · rintro (hitem | ⟨outer, h, hitem⟩)
    · exact Contains.file.part honly.1 hitem
    · exact h.part honly.2.1 hitem

theorem hasMessage_of_contains (h : Contains r kind items) (hkind : kind = .message) :
    (FileDescriptor.ofRecord r).HasMessage (MessageDescriptor.ofRecord items) := by
  induction h with
  | file => cases hkind
  | @part kind inner tag outer items h hpart hitem ih =>
    subst hkind
    have hhome : ∀ p ∈ parts, p.2.2 = .message →
        p.1 = .file ∧ p.2.1 = 4 ∨ p.1 = .message ∧ p.2.1 = 3 := by decide
    rcases hhome _ hpart rfl with ⟨rfl, rfl⟩ | ⟨rfl, rfl⟩
    · obtain rfl := contains_file_iff.1 h
      exact ⟨_, mem_messages_ofRecord.2 ⟨items, hitem, rfl⟩, .self _⟩
    · obtain ⟨top, htop, hwithin⟩ := ih rfl
      have hnested := mem_nested_ofRecord.2 ⟨items, hitem, rfl⟩
      exact ⟨top, htop, (MessageDescriptor.Within.nested hnested (.self _)).trans hwithin⟩

theorem hasMessage_ofRecord_iff {m : MessageDescriptor} :
    (FileDescriptor.ofRecord r).HasMessage m ↔
      ∃ items, Contains r .message items ∧ MessageDescriptor.ofRecord items = m := by
  constructor
  · rintro ⟨top, htop, hm⟩
    obtain ⟨items, hitem, hitems⟩ := mem_messages_ofRecord.1 htop
    exact exists_contained_of_within hm (Contains.file.part (by decide) hitem) hitems
  · rintro ⟨items, hitems, rfl⟩
    exact hasMessage_of_contains hitems rfl

theorem hasEnum_ofRecord_iff {e : EnumDescriptor} :
    (FileDescriptor.ofRecord r).HasEnum e ↔
      ∃ items, Contains r .enum items ∧ EnumDescriptor.ofRecord items = e := by
  have hcontains : ∀ items, Contains r .enum items ↔ .record 5 items ∈ r ∨
      ∃ outer, Contains r .message outer ∧ .record 4 items ∈ outer :=
    fun items => contains_iff_of_two (by decide) (by decide)
  have htop : e ∈ (FileDescriptor.ofRecord r).enums ↔
      ∃ items, .record 5 items ∈ r ∧ EnumDescriptor.ofRecord items = e := by
    rw [FileDescriptor.ofRecord, List.mem_map]
    simp only [Record.mem_records]
  have hinner : ∀ outer, e ∈ (MessageDescriptor.ofRecord outer).enums ↔
      ∃ items, .record 4 items ∈ outer ∧ EnumDescriptor.ofRecord items = e := by
    intro outer
    rw [MessageDescriptor.ofRecord, MessageDescriptor.ofRecordWith, List.mem_map]
    simp only [Record.mem_records]
  rw [FileDescriptor.HasEnum, htop]
  simp only [hcontains, hasMessage_ofRecord_iff]
  constructor
  · rintro (⟨items, hitem, he⟩ | ⟨_, ⟨outer, houter, rfl⟩, he⟩)
    · exact ⟨items, .inl hitem, he⟩
    · obtain ⟨items, hitem, he⟩ := (hinner outer).1 he
      exact ⟨items, .inr ⟨outer, houter, hitem⟩, he⟩
  · rintro ⟨items, hitem | ⟨outer, houter, hitem⟩, he⟩
    · exact .inl ⟨items, hitem, he⟩
    · exact .inr ⟨_, ⟨outer, houter, rfl⟩, (hinner outer).2 ⟨items, hitem, he⟩⟩

theorem messageOptions_iff :
    OptionsWithin r .messageOptions allowed ↔
      ∀ m, (FileDescriptor.ofRecord r).HasMessage m → SetsOnly allowed m.options := by
  rw [optionsWithin_iff (by decide : OnlyIn .message 7 .messageOptions) (by decide)]
  simp only [hasMessage_ofRecord_iff]
  constructor
  · rintro h _ ⟨items, hitems, rfl⟩
    exact h items hitems
  · exact fun h items hitems => h _ ⟨items, hitems, rfl⟩

theorem fieldOptions_iff :
    OptionsWithin r .fieldOptions allowed ↔
      ∀ m, (FileDescriptor.ofRecord r).HasMessage m → ∀ d ∈ m.fields, SetsOnly allowed d.options := by
  have hfields : ∀ outer d, d ∈ (MessageDescriptor.ofRecord outer).fields ↔
      ∃ items, .record 2 items ∈ outer ∧ FieldDescriptor.ofRecord items = d := by
    intro outer d
    rw [MessageDescriptor.ofRecord, MessageDescriptor.ofRecordWith, List.mem_map]
    simp only [Record.mem_records]
  rw [optionsWithin_iff (by decide : OnlyIn .field 8 .fieldOptions) (by decide)]
  simp only [hasMessage_ofRecord_iff,
    contains_iff (by decide : OnlyIn .message 2 .field) (by decide)]
  constructor
  · rintro h _ ⟨outer, houter, rfl⟩ d hd
    obtain ⟨items, hitem, rfl⟩ := (hfields outer d).1 hd
    exact h items ⟨outer, houter, hitem⟩
  · rintro h items ⟨outer, houter, hitem⟩
    exact h _ ⟨outer, houter, rfl⟩ _ ((hfields outer _).2 ⟨items, hitem, rfl⟩)

theorem enumOptions_iff :
    OptionsWithin r .enumOptions allowed ↔
      ∀ e, (FileDescriptor.ofRecord r).HasEnum e → SetsOnly allowed e.options := by
  rw [optionsWithin_iff (by decide : OnlyIn .enum 3 .enumOptions) (by decide)]
  simp only [hasEnum_ofRecord_iff]
  constructor
  · rintro h _ ⟨items, hitems, rfl⟩
    exact h items hitems
  · exact fun h items hitems => h _ ⟨items, hitems, rfl⟩

theorem enumValueOptions_iff :
    OptionsWithin r .enumValueOptions allowed ↔
      ∀ e, (FileDescriptor.ofRecord r).HasEnum e → ∀ v ∈ e.values, SetsOnly allowed v.options := by
  have hvalues : ∀ outer v, v ∈ (EnumDescriptor.ofRecord outer).values ↔
      ∃ items, .record 2 items ∈ outer ∧ EnumValueDescriptor.ofRecord items = v := by
    intro outer v
    rw [EnumDescriptor.ofRecord, List.mem_map]
    simp only [Record.mem_records]
  rw [optionsWithin_iff (by decide : OnlyIn .enumValue 3 .enumValueOptions) (by decide)]
  simp only [hasEnum_ofRecord_iff,
    contains_iff (by decide : OnlyIn .enum 2 .enumValue) (by decide)]
  constructor
  · rintro h _ ⟨outer, houter, rfl⟩ v hv
    obtain ⟨items, hitem, rfl⟩ := (hvalues outer v).1 hv
    exact h items ⟨outer, houter, hitem⟩
  · rintro h items ⟨outer, houter, hitem⟩
    exact h _ ⟨outer, houter, rfl⟩ _ ((hvalues outer _).2 ⟨items, hitem, rfl⟩)

end Descriptor

/-! ## Which files are accepted -/

namespace FileDescriptor

open Descriptor

/-- The options that are left of the declarations set none but the harmless ones. -/
structure SetsNoOption (f : FileDescriptor) : Prop where
  messages : ∀ m, f.HasMessage m → SetsOnly [7] m.options
  fields : ∀ m, f.HasMessage m → ∀ d ∈ m.fields, SetsOnly [2] d.options
  enums : ∀ e, f.HasEnum e → SetsOnly [] e.options
  values : ∀ e, f.HasEnum e → ∀ v ∈ e.values, SetsOnly [] v.options

/-- A schema can hold the file apart from its options: it is in proto3, and has no services, no
extensions and no oneofs but those of optional fields. -/
structure SupportedButOptions (f : FileDescriptor) : Prop where
  language : f.language = some "proto3"
  services : f.services = []
  extensions : f.extensions = []
  messages : ∀ m, f.HasMessage m → m.extensions = [] ∧ m.extensionRanges = 0
  fields : ∀ m, f.HasMessage m → ∀ d ∈ m.fields,
    d.extendee = none ∧ (d.oneofIndex.isSome → d.proto3Optional = some true)

theorem supported_iff {f : FileDescriptor} :
    f.Supported ↔ f.SupportedButOptions ∧ f.SetsNoOption := by
  constructor
  · intro h
    have henums : ∀ e, f.HasEnum e → e.Supported := by
      rintro e (he | ⟨m, hm, he⟩)
      · exact h.enums e he
      · exact (h.messages m hm).enums e he
    refine ⟨⟨h.language, h.services, h.extensions, fun m hm => ?_, fun m hm d hd => ?_⟩,
      fun m hm => (h.messages m hm).options, fun m hm d hd => ((h.messages m hm).fields d hd).options,
      fun e he => (henums e he).options, fun e he => (henums e he).valueOptions⟩
    · exact ⟨(h.messages m hm).extensions, (h.messages m hm).extensionRanges⟩
    · have hfield := (h.messages m hm).fields d hd
      exact ⟨hfield.extendee, hfield.oneof⟩
  · rintro ⟨h, hoptions⟩
    have henums : ∀ e, f.HasEnum e → e.Supported := fun e he =>
      ⟨hoptions.enums e he, hoptions.values e he⟩
    refine ⟨h.language, h.services, h.extensions, fun m hm => ?_, fun e he => henums e (.inl he)⟩
    obtain ⟨hextensions, hranges⟩ := h.messages m hm
    refine ⟨hextensions, hranges, hoptions.messages m hm, fun d hd => ?_,
      fun e he => henums e (.inr ⟨m, hm, he⟩)⟩
    obtain ⟨hextendee, honeof⟩ := h.fields m hm d hd
    exact ⟨hextendee, honeof, hoptions.fields m hm d hd⟩

theorem setsNoOption_ofRecord_iff {r : Wire.Record} :
    (ofRecord r).SetsNoOption ↔
      ∀ kind allowed, harmless? kind = some allowed → OptionsWithin r kind allowed := by
  constructor
  · intro h kind allowed hallowed
    cases kind
    case messageOptions =>
      obtain rfl := Option.some.inj hallowed
      exact messageOptions_iff.2 h.messages
    case fieldOptions =>
      obtain rfl := Option.some.inj hallowed
      exact fieldOptions_iff.2 h.fields
    case enumOptions =>
      obtain rfl := Option.some.inj hallowed
      exact enumOptions_iff.2 h.enums
    case enumValueOptions =>
      obtain rfl := Option.some.inj hallowed
      exact enumValueOptions_iff.2 h.values
    all_goals cases hallowed
  · intro h
    exact ⟨messageOptions_iff.1 (h _ _ rfl), fieldOptions_iff.1 (h _ _ rfl),
      enumOptions_iff.1 (h _ _ rfl), enumValueOptions_iff.1 (h _ _ rfl)⟩

theorem exists_toSchema_iff {f : FileDescriptor} : (∃ s, f.toSchema = .ok s) ↔ f.Supported := by
  have hchecked := checked_toSchema f
  cases hresult : f.toSchema with
  | ok s =>
    rw [hresult] at hchecked
    exact ⟨fun _ => hchecked.1, fun _ => ⟨s, rfl⟩⟩
  | error e =>
    rw [hresult] at hchecked
    obtain ⟨_, _, -, hat⟩ := hchecked
    simpa using not_supported_of_hasAt hat

end FileDescriptor

namespace Schema

open Descriptor

/-- The bytes of a file are accepted exactly if a schema can hold the file apart from its options, and
these set no known option but the harmless ones. Options that are not known, as are all custom ones,
are skipped whatever they are. -/
theorem exists_ofDescriptor_iff {bs : List UInt8} {f : FileDescriptor}
    (h : FileDescriptor.decode? bs = some f) :
    (∃ s, ofDescriptor bs = .ok s) ↔ f.SupportedButOptions ∧ SetsNoKnownOption bs := by
  obtain ⟨r, hr, rfl⟩ := Option.map_eq_some_iff.1 h
  rw [setsNoKnownOption_iff hr, ← FileDescriptor.setsNoOption_ofRecord_iff,
    ← FileDescriptor.supported_iff, ← FileDescriptor.exists_toSchema_iff]
  rw [ofDescriptor, h]
  cases bs with
  | nil =>
    -- no bytes are the file without a language, which is refused for another reason
    have hempty : Wire.decode? fieldKind? nestingBudget .file [] = some [] := by
      rw [Wire.decode?_eq, Wire.tokens?]
      rfl
    obtain rfl := Option.some.inj (hempty.symm.trans hr)
    refine iff_of_false (by simp) fun hschema => ?_
    cases (FileDescriptor.exists_toSchema_iff.1 hschema).language
  | cons b bs =>
    simp only [List.isEmpty_cons, Bool.false_eq_true, if_false]
    cases (FileDescriptor.ofRecord r).toSchema <;> simp [Except.mapError]

end Schema

/-- A message that sets the custom option 50000. -/
def badge : MessageDescriptor := { name := some "Badge", options := some [.varint 50000 1] }

def badgeFile : FileDescriptor :=
  { name := some "badge.proto", messages := [badge], language := some "proto3" }

open Descriptor in
/-- The file is accepted although its message sets an option: nothing is left of the option. -/
theorem exists_ofDescriptor_badgeFile :
    Serialized badgeFile.encode .messageOptions (Wire.encode [.varint 50000 1]) ∧
      Wire.fieldsOf (Wire.encode [.varint 50000 1]) = [⟨50000, .varint 1⟩] ∧
      FileDescriptor.decode? badgeFile.encode =
        some { badgeFile with messages := [{ badge with options := some [] }] } ∧
      (∃ s, Schema.ofDescriptor badgeFile.encode = .ok s) ∧
      SetsNoKnownOption badgeFile.encode := by
  have hfile : Wire.fieldsOf badgeFile.encode =
      [⟨1, .bytes (Wire.textBytes "badge.proto")⟩, ⟨4, .bytes (Wire.encode badge.toRecord)⟩,
       ⟨12, .bytes (Wire.textBytes "proto3")⟩] := by with_unfolding_all rfl
  have hmessage : Wire.fieldsOf (Wire.encode badge.toRecord) =
      [⟨1, .bytes (Wire.textBytes "Badge")⟩, ⟨7, .bytes (Wire.encode [.varint 50000 1])⟩] := by
    with_unfolding_all rfl
  have hdecode : FileDescriptor.decode? badgeFile.encode =
      some { badgeFile with messages := [{ badge with options := some [] }] } := by
    with_unfolding_all rfl
  have hbytes : badgeFile.encode.isEmpty = false := by with_unfolding_all rfl
  have haccepted : ∃ s, Schema.ofDescriptor badgeFile.encode = .ok s := by
    rw [Schema.ofDescriptor, hbytes, hdecode]
    exact ⟨_, rfl⟩
  have hserialized : Serialized badgeFile.encode .message (Wire.encode badge.toRecord) :=
    Serialized.file.part (by decide : (.file, 4, .message) ∈ parts) (by rw [hfile]; simp)
  have hoption : Serialized badgeFile.encode .messageOptions (Wire.encode [.varint 50000 1]) :=
    hserialized.part (by decide : (.message, 7, .messageOptions) ∈ parts) (by rw [hmessage]; simp)
  exact ⟨hoption, by with_unfolding_all rfl, hdecode, haccepted,
    ((Schema.exists_ofDescriptor_iff hdecode).1 haccepted).2⟩

end SchemaBridge
