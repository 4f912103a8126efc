import SchemaBridge.Descriptor.ToSchema
import SchemaBridge.Proofs.PartByPart

/-!
# No construct of a descriptor is dropped

A descriptor gives a schema exactly if nothing in it is a construct that a schema cannot hold
(`FileDescriptor.Supported`). The schema then has every declaration of the descriptor at its position
(`FileDescriptor.Mirrors`); otherwise the error tells a construct and a place where the descriptor has
it (`FileDescriptor.HasAt`). Each conversion is `Checked`: a step at which a construct is refused is
passed only if it does not occur (`checked_refuse`), and the steps put together keep that
(`Checked.bind`, `Checked.mapM`). `toSchema_drops_nothing` reads all of it off the whole conversion.
-/

namespace SchemaBridge

open Wire (Record)

/-! ## What a schema can hold -/

/-- The record without the fields of some tags. -/
def Wire.Record.clear (tags : List Nat) (r : Record) : Record := r.filter (·.tag ∉ tags)

/-- There are no options, or nothing is left of them without those of the tags `allowed`. -/
def SetsOnly (allowed : List Nat) (options : Option Record) : Prop :=
  ∀ r ∈ options, r.clear allowed = []

/-- A schema can hold the field; the one option that may be set, of the tag 2, is `packed`. -/
structure FieldDescriptor.Supported (f : FieldDescriptor) : Prop where
  extendee : f.extendee = none
  oneof : f.oneofIndex.isSome → f.proto3Optional = some true
  options : SetsOnly [2] f.options

structure EnumDescriptor.Supported (e : EnumDescriptor) : Prop where
  options : SetsOnly [] e.options
  valueOptions : ∀ v ∈ e.values, SetsOnly [] v.options

/-- A schema can hold the message with its fields and enums, apart from the messages nested in it; the
one option that may be set, of the tag 7, is `map_entry`. -/
structure MessageDescriptor.Supported (m : MessageDescriptor) : Prop where
  extensions : m.extensions = []
  extensionRanges : m.extensionRanges = 0
  options : SetsOnly [7] m.options
  fields : ∀ f ∈ m.fields, f.Supported
  enums : ∀ e ∈ m.enums, e.Supported

/-- The first message is the second one or is nested in it, at whatever depth. -/
inductive MessageDescriptor.Within : MessageDescriptor → MessageDescriptor → Prop
  | self (m : MessageDescriptor) : Within m m
  | nested {inner outer m : MessageDescriptor} (hmem : outer ∈ m.nested) (h : Within inner outer) :
      Within inner m

namespace FileDescriptor

/-- The file declares the message, at whatever depth. -/
def HasMessage (f : FileDescriptor) (m : MessageDescriptor) : Prop := ∃ top ∈ f.messages, m.Within top

/-- A schema can hold the file with all messages and enums in it, at whatever depth. -/
structure Supported (f : FileDescriptor) : Prop where
  language : f.language = some "proto3"
  services : f.services = []
  extensions : f.extensions = []
  messages : ∀ m, f.HasMessage m → m.Supported
  enums : ∀ e ∈ f.enums, e.Supported

end FileDescriptor

/-! ## What a schema keeps -/

/-- The field is the one that the descriptor describes. -/
structure FieldDescriptor.Mirrors (d : FieldDescriptor) (f : Field) : Prop where
  name : f.name = d.name.getD ""
  type : f.type = d.typeOrDefault.typeRef (d.typeName.getD "")
  repeated : f.repeated ↔ d.labelOrDefault = .repeated
  optional : f.optional ↔ d.proto3Optional = some true
  ordinal : f.ordinal = d.number.map Int32.toUInt32
  default : f.default = d.defaultValue

structure EnumValueDescriptor.Mirrors (d : EnumValueDescriptor) (v : EnumValue) : Prop where
  name : v.name = d.name.getD ""
  number : v.number = d.number.getD 0

structure EnumDescriptor.Mirrors (d : EnumDescriptor) (e : EnumDef) : Prop where
  name : e.name = d.name.getD ""
  values : List.Forall₂ EnumValueDescriptor.Mirrors d.values e.values

/-- The message declares what the descriptor declares, each thing at the same position. -/
inductive MessageDescriptor.Mirrors : MessageDescriptor → Message → Prop
  | intro {d : MessageDescriptor} {m : Message} (name : m.name = d.name.getD "")
      (fields : List.Forall₂ FieldDescriptor.Mirrors d.fields m.fields)
      (enums : List.Forall₂ EnumDescriptor.Mirrors d.enums m.enums)
      (nested : List.Forall₂ MessageDescriptor.Mirrors d.nested m.nested) : Mirrors d m

/-- The schema declares what the descriptor declares, each thing at the same position. -/
structure FileDescriptor.Mirrors (d : FileDescriptor) (s : Schema) : Prop where
  name : s.name = d.name.getD ""
  dialect : s.dialect = .proto3
  package : s.package = packageSegments (d.package.getD "")
  imports : s.imports = d.dependencies
  messages : List.Forall₂ MessageDescriptor.Mirrors d.messages s.messages
  enums : List.Forall₂ EnumDescriptor.Mirrors d.enums s.enums

/-! ## Where a construct occurs -/

/-- The options set one besides those of the tags `allowed`, and `name` tells which: any is told as
`otherName`, and one that is set under the tag 3 as `deprecated`. -/
def SetsOption (allowed : List Nat) (otherName : String) (options : Option Record) (name : String) :
    Prop :=
  ¬ SetsOnly allowed options ∧
    (name = otherName ∨ name = "deprecated" ∧ ∃ r ∈ options, (r.varint? 3).isSome)

inductive FieldDescriptor.Has (f : FieldDescriptor) : Construct → Prop
  | oneof (h : f.oneofIndex.isSome) (hplain : f.proto3Optional ≠ some true) : f.Has .oneof
  | extension (h : f.extendee.isSome) : f.Has .extension
  | option {name : String} (h : SetsOption [2] "field option" f.options name) : f.Has (.option name)

/-- The construct occurs in the enum or in one of its values. -/
inductive EnumDescriptor.Has (e : EnumDescriptor) : Construct → Prop
  | option (h : ¬ SetsOnly [] e.options) : e.Has (.option "enum option")
  | valueOption {v : EnumValueDescriptor} (hmem : v ∈ e.values) (h : ¬ SetsOnly [] v.options) :
      e.Has (.option "enum option")

/-- The construct occurs in the message, apart from its fields and the types nested in it. -/
inductive MessageDescriptor.Has (m : MessageDescriptor) : Construct → Prop
  | extension (h : m.extensions ≠ [] ∨ m.extensionRanges ≠ 0) : m.Has .extension
  | option {name : String} (h : SetsOption [7] "message option" m.options name) :
      m.Has (.option name)

/-- The construct occurs in the file, apart from the types that it declares. -/
inductive FileDescriptor.Has (f : FileDescriptor) : Construct → Prop
  | noSyntax (h : f.language.getD "" = "") : f.Has (.fileSyntax "proto2")
  | fileSyntax {name : String} (h : f.language = some name) (hother : name ≠ "proto3") :
      f.Has (.fileSyntax name)
  | service (h : f.services ≠ []) : f.Has .service
  | extension (h : f.extensions ≠ []) : f.Has .extension

/-- The construct occurs in the message, at whatever depth, and the place names the message and the
field that has it. An option of an enum is placed by the enum's name, as if it were a message's. -/
inductive MessageDescriptor.HasAt (m : MessageDescriptor) (c : Construct) : Place → Prop
  | own {d : MessageDescriptor} (hd : d.Within m) (h : d.Has c) :
      m.HasAt c (.message (d.name.getD ""))
  | field {d : MessageDescriptor} {f : FieldDescriptor} (hd : d.Within m) (hf : f ∈ d.fields)
      (h : f.Has c) : m.HasAt c (.field (d.name.getD "") (f.name.getD ""))
  | enum {d : MessageDescriptor} {e : EnumDescriptor} (hd : d.Within m) (he : e ∈ d.enums)
      (h : e.Has c) : m.HasAt c (.message (e.name.getD ""))

/-- The construct occurs in the file at the place. -/
inductive FileDescriptor.HasAt (f : FileDescriptor) (c : Construct) : Place → Prop
  | own (h : f.Has c) : f.HasAt c .file
  | message {m : MessageDescriptor} {place : Place} (hm : m ∈ f.messages) (h : m.HasAt c place) :
      f.HasAt c place
  | enum {e : EnumDescriptor} (he : e ∈ f.enums) (h : e.Has c) : f.HasAt c (.message (e.name.getD ""))

/-! ## Checked conversions -/

section

variable {α β : Type} {file : String} {occurs occurs' : Construct → Place → Prop} {right : α → Prop}
  {x : Except ConversionError α} {R : α → β → Prop} {as : List α}

/-- A conversion of a part of `file` gives a right result, or fails with a construct that occurs at the
place that the error names. -/
def Checked (file : String) (occurs : Construct → Place → Prop) (right : α → Prop) :
    Except ConversionError α → Prop
  | .ok a => right a
  | .error e => ∃ construct place, e = .unsupported construct file place ∧ occurs construct place

theorem Checked.bind {right' : β → Prop} {g : α → Except ConversionError β}
    (hx : Checked file occurs right x) (hg : ∀ a, right a → Checked file occurs right' (g a)) :
    Checked file occurs right' (x >>= g) := by
  cases x with
  | ok a => exact hg a hx
  | error e => exact hx

theorem Checked.imp {right' : α → Prop} (h : Checked file occurs right x)
    (hoccurs : ∀ c place, occurs c place → occurs' c place) (hright : ∀ a, right a → right' a) :
    Checked file occurs' right' x := by
  cases x with
  | ok a => exact hright a h
  | error e =>
    obtain ⟨c, place, he, hc⟩ := h
    exact ⟨c, place, he, hoccurs c place hc⟩

theorem Checked.mapM {g : α → Except ConversionError β}
    (h : ∀ a ∈ as, Checked file occurs (R a) (g a)) :
    Checked file occurs (List.Forall₂ R as) (as.mapM g) := by
  cases hmap : as.mapM g with
  | ok bs =>
    refine (forall₂_with_mem (mapM_eq_ok_iff.1 hmap)).imp fun a b ⟨ha, _, hab⟩ => ?_
    have hchecked := h a ha
    rwa [hab] at hchecked
  | error e =>
    obtain ⟨a, ha, he⟩ := exists_error_of_mapM hmap
    have hchecked := h a ha
    rwa [he] at hchecked

theorem Checked.mapM_zipIdx {g : α × Nat → Except ConversionError β}
    (h : ∀ a ∈ as, ∀ i, Checked file occurs (R a) (g (a, i))) :
    Checked file occurs (List.Forall₂ R as) (as.zipIdx.mapM g) := by
  have hpairs : Checked file occurs (List.Forall₂ (fun p b => R p.1 b) as.zipIdx)
      (as.zipIdx.mapM g) :=
    Checked.mapM fun p hp => h p.1 (List.fst_mem_of_mem_zipIdx hp) p.2
  refine hpairs.imp (fun _ _ hc => hc) fun bs hbs => ?_
  have hfirst := List.forall₂_map_left_iff.2 hbs
  rwa [List.zipIdx_map_fst] at hfirst

/-- A refused construct has to occur at the place, and nothing is refused only if all is supported. -/
theorem checked_refuse {place : Place} {c? : Option Construct} {supported : Prop}
    (hnone : c? = none → supported) (hsome : ∀ c, c? = some c → occurs c place) :
    Checked file occurs (fun _ => supported) (refuse file place c?) := by
  cases c? with
  | none => exact hnone rfl
  | some c => exact ⟨c, place, rfl, hsome c rfl⟩

end

/-! ## Options -/

section

variable {allowed : List Nat} {otherName : String} {options : Option Record} {c : Construct}

theorem setsOnly_some_iff {r : Record} : SetsOnly allowed (some r) ↔ r.hasOther allowed = false := by
  simp [SetsOnly, Record.clear, Record.hasOther]

theorem unsupportedOption?_eq_none_iff :
    unsupportedOption? allowed otherName options = none ↔ SetsOnly allowed options := by
  cases options with
  | none => simp [unsupportedOption?, SetsOnly]
  | some r => simp [unsupportedOption?, setsOnly_some_iff]

theorem exists_setsOption_of_unsupportedOption?
    (h : unsupportedOption? allowed otherName options = some c) :
    ∃ name, c = .option name ∧ SetsOption allowed otherName options name := by
  have hsets : ¬ SetsOnly allowed options := by
    rw [← unsupportedOption?_eq_none_iff, h]
    exact Option.some_ne_none c
  cases options with
  | none => cases h
  | some r =>
    simp only [unsupportedOption?] at h
    split at h
    · obtain rfl := Option.some.inj h
      refine ⟨_, rfl, hsets, ?_⟩
      split
      · next hdeprecated => exact .inr ⟨rfl, r, rfl, hdeprecated⟩
      · exact .inl rfl
    · cases h

theorem setsOptions_eq_false_iff : setsOptions options = false ↔ SetsOnly [] options := by
  cases options <;> simp [setsOptions, SetsOnly, Record.clear]

end

/-! ## Fields and enums -/

section

variable {file : String} {c : Construct}

namespace FieldDescriptor

variable {f : FieldDescriptor}

theorem supported_of_unsupported?_eq_none (h : f.unsupported? = none) : f.Supported := by
  unfold unsupported? at h
  split at h
  · cases h
  · next honeof =>
    split at h
    · cases h
    · next hextendee =>
      refine ⟨by simpa using hextendee, fun hindex => ?_, unsupportedOption?_eq_none_iff.1 h⟩
      exact Classical.not_not.1 fun hplain => honeof ⟨hindex, hplain⟩

theorem has_of_unsupported?_eq_some (h : f.unsupported? = some c) : f.Has c := by
  unfold unsupported? at h
  split at h
  · next honeof =>
    obtain rfl := Option.some.inj h
    exact .oneof honeof.1 honeof.2
  · split at h
    · next hextendee =>
      obtain rfl := Option.some.inj h
      exact .extension hextendee
    · obtain ⟨name, rfl, hset⟩ := exists_setsOption_of_unsupportedOption? h
      exact .option hset

theorem not_supported_of_has (h : f.Has c) : ¬ f.Supported := by
  intro hsupported
  cases h with
  | oneof hindex hplain => exact hplain (hsupported.oneof hindex)
  | extension hextendee => simp [hsupported.extendee] at hextendee
  | option hset => exact hset.1 hsupported.options

theorem checked_toField (f : FieldDescriptor) (message : String) (comments : List String) :
    Checked file (fun c place => place = .field message (f.name.getD "") ∧ f.Has c)
      (fun out => f.Supported ∧ f.Mirrors out) (f.toField file message comments) := by
  refine (checked_refuse supported_of_unsupported?_eq_none fun c hc => ?_).bind fun _ hsupported => ?_
  · exact ⟨rfl, has_of_unsupported?_eq_some hc⟩
  · exact ⟨hsupported, ⟨rfl, rfl, by simp [field], by simp [field], rfl, rfl⟩⟩

theorem checked_toFields (fs : List FieldDescriptor) (message : String)
    (comments : Nat → List String) :
    Checked file (fun c place => ∃ f ∈ fs, place = .field message (f.name.getD "") ∧ f.Has c)
      (List.Forall₂ (fun f out => f.Supported ∧ f.Mirrors out) fs)
      (fs.zipIdx.mapM fun (f, i) => f.toField file message (comments i)) :=
  .mapM_zipIdx fun f hf i =>
    (f.checked_toField message (comments i)).imp (fun _ _ hc => ⟨f, hf, hc⟩) fun _ hout => hout

end FieldDescriptor

namespace EnumDescriptor

variable {e : EnumDescriptor}

theorem supported_of_unsupported?_eq_none (h : e.unsupported? = none) : e.Supported := by
  unfold unsupported? at h
  split at h
  · cases h
  · next hunset =>
    simp only [Bool.or_eq_true, not_or, Bool.not_eq_true, List.any_eq_false] at hunset
    refine ⟨setsOptions_eq_false_iff.1 hunset.1, fun v hv => setsOptions_eq_false_iff.1 ?_⟩
    simpa using hunset.2 v hv

theorem has_of_unsupported?_eq_some (h : e.unsupported? = some c) : e.Has c := by
  unfold unsupported? at h
  split at h
  · next hset =>
    obtain rfl := Option.some.inj h
    rcases (Bool.or_eq_true ..).mp hset with hset | hset
    · exact .option (by simp [← setsOptions_eq_false_iff, hset])
    · obtain ⟨v, hv, hset⟩ := List.any_eq_true.1 hset
      exact .valueOption hv (by simp [← setsOptions_eq_false_iff, hset])
  · cases h

theorem not_supported_of_has (h : e.Has c) : ¬ e.Supported := by
  intro hsupported
  cases h with
  | option hset => exact hset hsupported.options
  | valueOption hv hset => exact hset (hsupported.valueOptions _ hv)

theorem checked_toEnum (e : EnumDescriptor) (locations : List Location) (path : List Int32) :
    Checked file (fun c place => place = .message (e.name.getD "") ∧ e.Has c)
      (fun out => e.Supported ∧ e.Mirrors out) (e.toEnum file locations path) := by
  refine (checked_refuse supported_of_unsupported?_eq_none fun c hc => ?_).bind fun _ hsupported => ?_
  · exact ⟨rfl, has_of_unsupported?_eq_some hc⟩
  · exact ⟨hsupported, rfl, forall₂_mapIdx fun i v _ => ⟨rfl, rfl⟩⟩

theorem checked_toEnums (es : List EnumDescriptor) (locations : List Location) (path : List Int32)
    (kind : PathKind) :
    Checked file (fun c place => ∃ e ∈ es, place = .message (e.name.getD "") ∧ e.Has c)
      (List.Forall₂ (fun e out => e.Supported ∧ e.Mirrors out) es)
      (toEnums file locations path kind es) :=
  .mapM_zipIdx fun e he _ =>
    (checked_toEnum e locations _).imp (fun _ _ hc => ⟨e, he, hc⟩) fun _ hout => hout

end EnumDescriptor

end

/-! ## Messages -/

namespace MessageDescriptor

variable {file : String} {c : Construct} {place : Place} {m inner : MessageDescriptor}

theorem Within.trans {outer : MessageDescriptor} (h : inner.Within m) (h' : m.Within outer) :
    inner.Within outer := by
  induction h' with
  | self => exact h
  | nested hmem _ ih => exact .nested hmem ih

theorem HasAt.within (h : inner.HasAt c place) (hinner : inner.Within m) : m.HasAt c place := by
  cases h with
  | own hd h => exact .own (hd.trans hinner) h
  | field hd hf h => exact .field (hd.trans hinner) hf h
  | enum hd he h => exact .enum (hd.trans hinner) he h

theorem not_supported_of_hasAt (h : m.HasAt c place) :
    ¬ ∀ d : MessageDescriptor, d.Within m → d.Supported := by
  intro hsupported
  cases h with
  | own hd h =>
    cases h with
    | extension hextension =>
      have := hsupported _ hd
      simp [this.extensions, this.extensionRanges] at hextension
    | option hset => exact hset.1 (hsupported _ hd).options
  | field hd hf h => exact FieldDescriptor.not_supported_of_has h ((hsupported _ hd).fields _ hf)
  | enum hd he h => exact EnumDescriptor.not_supported_of_has h ((hsupported _ hd).enums _ he)

/-- What is supported of a message, apart from its fields and enums. -/
def OwnSupported (m : MessageDescriptor) : Prop :=
  m.extensions = [] ∧ m.extensionRanges = 0 ∧ SetsOnly [7] m.options

theorem ownSupported_of_unsupported?_eq_none (h : m.unsupported? = none) : m.OwnSupported := by
  unfold unsupported? at h
  split at h
  · cases h
  · next hextension =>
    obtain ⟨hextensions, hranges⟩ := not_or.1 hextension
    exact ⟨by simpa using hextensions, Classical.not_not.1 hranges, unsupportedOption?_eq_none_iff.1 h⟩

theorem has_of_unsupported?_eq_some (h : m.unsupported? = some c) : m.Has c := by
  unfold unsupported? at h
  split at h
  · next hextension =>
    obtain rfl := Option.some.inj h
    exact .extension (by simpa using hextension)
  · obtain ⟨name, rfl, hset⟩ := exists_setsOption_of_unsupportedOption? h
    exact .option hset

/-- A message is right if it mirrors its descriptor and nothing inside it is unsupported. -/
def Right (m : MessageDescriptor) (out : Message) : Prop :=
  (∀ d : MessageDescriptor, d.Within m → d.Supported) ∧ m.Mirrors out

theorem right_of_parts {out : Message} (hown : m.OwnSupported) (hname : out.name = m.name.getD "")
    (hfields : List.Forall₂ (fun f g => f.Supported ∧ f.Mirrors g) m.fields out.fields)
    (henums : List.Forall₂ (fun e g => e.Supported ∧ e.Mirrors g) m.enums out.enums)
    (hnested : List.Forall₂ Right m.nested out.nested) : m.Right out := by
  refine ⟨fun d hd => ?_, hname, hfields.imp fun _ _ h => h.2, henums.imp fun _ _ h => h.2,
    hnested.imp fun _ _ h => h.2⟩
  cases hd with
  | self =>
    refine ⟨hown.1, hown.2.1, hown.2.2, fun f hf => ?_, fun e he => ?_⟩
    · obtain ⟨_, -, hsupported, -⟩ := exists_of_mem_left hfields f hf
      exact hsupported
    · obtain ⟨_, -, hsupported, -⟩ := exists_of_mem_left henums e he
      exact hsupported
  | nested hmem hd =>
    obtain ⟨_, -, hright⟩ := exists_of_mem_left hnested _ hmem
    exact hright.1 d hd

mutual

theorem checked_toMessage : ∀ (m : MessageDescriptor) (locations : List Location) (path : List Int32),
    Checked file m.HasAt m.Right (m.toMessage file locations path)
  | ⟨name, fields, nested, enums, ranges, extensions, options, oneofs⟩, locations, path => by
    rw [toMessage]
    -- each step is checked in its turn, and what it finds inside the message occurs in the message
    refine (checked_refuse ownSupported_of_unsupported?_eq_none fun c hc =>
      .own (.self _) (has_of_unsupported?_eq_some hc)).bind fun _ hown => ?_
    refine ((FieldDescriptor.checked_toFields fields (name.getD "") fun i =>
      commentsAt locations (childPath path .messageField i)).imp ?_ fun _ hout => hout).bind ?_
    · rintro c place ⟨f, hf, rfl, hc⟩
      exact .field (.self _) hf hc
    intro fields' hfields
    refine ((EnumDescriptor.checked_toEnums enums locations path _).imp ?_ fun _ hout => hout).bind ?_
    · rintro c place ⟨e, he, rfl, hc⟩
      exact .enum (.self _) he hc
    intro enums' henums
    refine ((checked_toMessages nested locations path _ 0).imp ?_ fun _ hout => hout).bind ?_
    · rintro c place ⟨m, hm, hc⟩
      exact hc.within (.nested hm (.self m))
    intro nested' hnested
    exact right_of_parts hown rfl hfields henums hnested

theorem checked_toMessages : ∀ (ms : List MessageDescriptor) (locations : List Location)
    (path : List Int32) (kind : PathKind) (index : Nat),
    Checked file (fun c place => ∃ m ∈ ms, m.HasAt c place) (List.Forall₂ Right ms)
      (toMessages file locations path kind index ms)
  | [], _, _, _, _ => .nil
  | m :: ms, locations, path, kind, index => by
    rw [toMessages]
    refine ((checked_toMessage m locations _).imp ?_ fun _ hout => hout).bind ?_
    · exact fun c place hc => ⟨m, List.mem_cons_self .., hc⟩
    intro m' hm
    refine ((checked_toMessages ms locations path kind _).imp ?_ fun _ hout => hout).bind ?_
    · rintro c place ⟨m, hmem, hc⟩
      exact ⟨m, List.mem_cons_of_mem _ hmem, hc⟩
    exact fun ms' hms => .cons hm hms

end

end MessageDescriptor

/-! ## Files -/

namespace FileDescriptor

variable {f : FileDescriptor} {c : Construct} {place : Place}

/-- What is supported of a file, apart from its types. -/
def OwnSupported (f : FileDescriptor) : Prop :=
  f.language = some "proto3" ∧ f.services = [] ∧ f.extensions = []

theorem ownSupported_of_unsupported?_eq_none (h : f.unsupported? = none) : f.OwnSupported := by
  simp only [unsupported?] at h
  split at h
  · cases h
  · next hsome =>
    split at h
    · cases h
    · next hproto3 =>
      split at h
      · cases h
      · next hservices =>
        split at h
        · cases h
        · next hextensions =>
          refine ⟨?_, by simpa using hservices, by simpa using hextensions⟩
          cases hlanguage : f.language with
          | none => simp [hlanguage] at hsome
          | some language => simpa [hlanguage] using hproto3

theorem has_of_unsupported?_eq_some (h : f.unsupported? = some c) : f.Has c := by
  simp only [unsupported?] at h
  split at h
  · next hempty =>
    obtain rfl := Option.some.inj h
    exact .noSyntax hempty
  · next hsome =>
    split at h
    · next hother =>
      obtain rfl := Option.some.inj h
      cases hlanguage : f.language with
      | none => simp [hlanguage] at hsome
      | some language => exact .fileSyntax hlanguage (by simpa [hlanguage] using hother)
    · split at h
      · next hservices =>
        obtain rfl := Option.some.inj h
        exact .service (by simpa using hservices)
      · split at h
        · next hextensions =>
          obtain rfl := Option.some.inj h
          exact .extension (by simpa using hextensions)
        · cases h

theorem not_supported_of_hasAt (h : f.HasAt c place) : ¬ f.Supported := by
  intro hsupported
  cases h with
  | own h =>
    cases h with
    | noSyntax hempty => simp [hsupported.language] at hempty
    | fileSyntax hlanguage hother =>
      exact hother (Option.some.inj (hlanguage.symm.trans hsupported.language))
    | service hservices => exact hservices hsupported.services
    | extension hextensions => exact hextensions hsupported.extensions
  | message hm h =>
    exact MessageDescriptor.not_supported_of_hasAt h fun d hd => hsupported.messages d ⟨_, hm, hd⟩
  | enum he h => exact EnumDescriptor.not_supported_of_has h (hsupported.enums _ he)

theorem checked_toSchema (f : FileDescriptor) :
    Checked (f.name.getD "") f.HasAt (fun s => f.Supported ∧ f.Mirrors s) f.toSchema := by
  rw [toSchema]
  refine (checked_refuse ownSupported_of_unsupported?_eq_none fun c hc =>
    .own (has_of_unsupported?_eq_some hc)).bind fun _ hown => ?_
  refine ((EnumDescriptor.checked_toEnums f.enums _ _ _).imp ?_ fun _ hout => hout).bind ?_
  · rintro c place ⟨e, he, rfl, hc⟩
    exact .enum he hc
  intro enums henums
  refine ((MessageDescriptor.checked_toMessages f.messages _ _ _ 0).imp ?_ fun _ hout => hout).bind ?_
  · rintro c place ⟨m, hm, hc⟩
    exact .message hm hc
  intro messages hmessages
  obtain ⟨hlanguage, hservices, hextensions⟩ := hown
  have hwithin : ∀ m, f.HasMessage m → m.Supported := by
    rintro m ⟨top, htop, hm⟩
    obtain ⟨_, -, hright⟩ := exists_of_mem_left hmessages top htop
    exact hright.1 m hm
  refine ⟨⟨hlanguage, hservices, hextensions, hwithin, fun e he => ?_⟩, rfl, rfl, rfl, rfl,
    hmessages.imp fun _ _ h => h.2, henums.imp fun _ _ h => h.2⟩
  obtain ⟨_, -, hsupported, -⟩ := exists_of_mem_left henums e he
  exact hsupported

theorem mirrors_of_toSchema {s : Schema} (h : f.toSchema = .ok s) : f.Mirrors s := by
  have hchecked := checked_toSchema f
  rw [h] at hchecked
  exact hchecked.2

/-- A descriptor gives a schema exactly if a schema can hold all of it. The schema has each of its
declarations at the same position; and an error names the file, a construct and a place where the
descriptor has that construct. -/
theorem toSchema_drops_nothing (f : FileDescriptor) :
    ((∃ s, f.toSchema = .ok s) ↔ f.Supported) ∧
      (∀ s, f.toSchema = .ok s → f.Mirrors s) ∧
      ∀ e, f.toSchema = .error e → ∃ construct place,
        e = .unsupported construct (f.name.getD "") place ∧ f.HasAt construct place := by
  refine ⟨?_, fun s => mirrors_of_toSchema, fun e he => ?_⟩
  · have hchecked := checked_toSchema f
    cases hresult : f.toSchema with
    | ok s =>
      rw [hresult] at hchecked
      exact ⟨fun _ => hchecked.1, fun _ => ⟨s, rfl⟩⟩
    | error e =>
      rw [hresult] at hchecked
      obtain ⟨_, _, -, hat⟩ := hchecked
      simpa using not_supported_of_hasAt hat
  · have hchecked := checked_toSchema f
    rw [he] at hchecked
    exact hchecked

/-! ## An option of a nested enum -/

/-- A file with a message that nests an enum with an option, and a message of the enum's name. -/
def paintFile : FileDescriptor :=
  { name := some "paint.proto"
    messages :=
      [{ name := some "Paint"
         enums :=
           [{ name := some "Color"
              values := [{ name := some "CLEAR", number := some 0 }]
              options := some [.varint 3 1] }] },
       { name := some "Color" }]
    language := some "proto3" }

/-- The error names the message `Color`, but the construct that it names occurs nowhere in the message
of that name: it is the enum `Color` that has it. -/
theorem toSchema_paintFile :
    ∃ construct, paintFile.toSchema =
        .error (.unsupported construct "paint.proto" (.message "Color")) ∧
      (∃ m, paintFile.HasMessage m ∧ m.name = some "Color") ∧
      ¬ ∃ m place, paintFile.HasMessage m ∧ m.name = some "Color" ∧ m.HasAt construct place := by
  refine ⟨.option "enum option", rfl, ⟨_, ⟨_, .tail _ (.head _), .self _⟩, rfl⟩, ?_⟩
  rintro ⟨m, place, ⟨top, htop, hm⟩, hname, hat⟩
  obtain rfl : m = { name := some "Color" } := by
    rcases List.mem_cons.1 htop with rfl | htop
    · cases hm with
      | self => simp at hname
      | nested hmem => cases hmem
    · obtain rfl := List.mem_singleton.1 htop
      cases hm with
      | self => rfl
      | nested hmem => cases hmem
  refine MessageDescriptor.not_supported_of_hasAt hat fun d hd => ?_
  cases hd with
  | self => exact ⟨rfl, rfl, by simp [SetsOnly], by simp, by simp⟩
  | nested hmem => cases hmem

end FileDescriptor

end SchemaBridge
