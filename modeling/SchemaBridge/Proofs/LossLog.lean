import SchemaBridge.Mapping.ToProto
import SchemaBridge.Proofs.Flattening

/-!
# What a conversion says it leaves out

The log of a conversion is exact: the records of each kind are those of the declarations that the
conversion cannot keep, each of them once and in the order of the file (`Schema.RosLog`,
`Schema.ProtoLog`). The log of a message is taken apart field by field (`losses_message_toRos`), and that of
a file message by message (`losses_toRos`); the enums that nothing refers to come last.
-/

namespace SchemaBridge

variable {t : SymbolTable} {repr : EnumRepr} {s r : Schema} {c : Conversion} {m : Message}
  {ros : RosMessage} {f : Field} {rosType : RosType} {file message : String} {kind : LossKind}

/-! ## Records of one kind -/

/-- The records of one kind, in their order. -/
def ofKind (kind : LossKind) (losses : List Loss) : List Loss := losses.filter (·.cause.kind = kind)

/-- The records for what is lost of the fields of some messages, in their order. -/
def fieldRecords (ms : List Message) (lost : Field → List LossCause) : List Loss :=
  ms.flatMap fun m => m.fields.flatMap fun f => (lost f).map fun cause => ⟨m.name, some f.name, cause⟩

theorem eq_nil_iff_ofKind {losses : List Loss} : losses = [] ↔ ∀ kind, ofKind kind losses = [] := by
  constructor
  · rintro rfl kind
    rfl
  · intro h
    refine List.eq_nil_iff_forall_not_mem.2 fun l hl => ?_
    simpa using List.filter_eq_nil_iff.1 (h l.cause.kind) l hl

@[simp] theorem ofKind_append (losses losses' : List Loss) :
    ofKind kind (losses ++ losses') = ofKind kind losses ++ ofKind kind losses' :=
  List.filter_append ..

theorem ofKind_flatMap {α : Type} (as : List α) (records : α → List Loss) :
    ofKind kind (as.flatMap records) = as.flatMap fun a => ofKind kind (records a) :=
  List.filter_flatMap

theorem ofKind_map {α : Type} (as : List α) (record : α → Loss) :
    ofKind kind (as.map record) = (as.filter fun a => (record a).cause.kind = kind).map record :=
  List.filter_map

/-- The records of one kind for fields are those for what is lost of that kind. -/
theorem ofKind_fieldRecords (ms : List Message) (lost : Field → List LossCause) :
    ofKind kind (fieldRecords ms lost) =
      fieldRecords ms fun f => (lost f).filter fun cause => cause.kind = kind := by
  simp only [fieldRecords, ofKind_flatMap, ofKind_map]

theorem fieldRecords_eq_nil_iff {ms : List Message} {lost : Field → List LossCause} :
    fieldRecords ms lost = [] ↔ ∀ m ∈ ms, ∀ f ∈ m.fields, lost f = [] := by
  simp only [fieldRecords, List.flatMap_eq_nil_iff, List.map_eq_nil_iff]

/-- Records are made message by message. -/
theorem flatMap_fieldRecords {α : Type} (as : List α) (message : α → Message)
    (lost : Field → List LossCause) :
    (as.flatMap fun a => fieldRecords [message a] lost) = fieldRecords (as.map message) lost := by
  simp only [fieldRecords, List.flatMap_map, List.flatMap_singleton]

@[simp] theorem fieldRecords_nil (ms : List Message) : fieldRecords ms (fun _ => []) = [] :=
  fieldRecords_eq_nil_iff.2 fun _ _ _ _ => rfl

/-- Records that are all of one kind are all of a kind or none of them is. -/
theorem ofKind_of_forall {losses : List Loss} {same : LossKind}
    (h : ∀ l ∈ losses, l.cause.kind = same) :
    ofKind kind losses = if same = kind then losses else [] :=
  filter_of_key h

/-! ## What is lost on the way to ROS -/

/-- What is lost when the type of a field gets wider: a scalar that ROS does not have, a well-known type
that shares its message with another one, or an enum that does not fit the scalar that is asked for. -/
def Field.widened? (t : SymbolTable) (repr : EnumRepr) (f : Field) : Option LossCause :=
  match f.type with
  | .scalar k => if k.keepsRos then none else some (.scalar k k.toRos)
  | .wellKnown w => if w = .bytesValue then some (.wellKnown w) else none
  | .enum n =>
    (t.enumDef? n).bind fun e =>
      if repr = .uint8 ∧ ∃ v ∈ e.values, v.number < 0 ∨ 255 < v.number then
        some (.enumWidth e.name .int32)
      else none
  | .message _ | .named _ => none

/-- What is lost when the enum of a field becomes constants. -/
def Field.flattened? (t : SymbolTable) (repr : EnumRepr) (f : Field) : Option LossCause :=
  (f.enum? t).map fun q => .enum q.2.name (q.2.scalar repr)

theorem EnumDef.fitsUInt8_iff (e : EnumDef) :
    e.fitsUInt8 = true ↔ ¬ ∃ v ∈ e.values, v.number < 0 ∨ 255 < v.number := by
  simp only [fitsUInt8, List.all_eq_true, Bool.and_eq_true, decide_eq_true_eq, not_exists, not_and,
    not_or, Int32.not_lt]

/-- The losses of an enum: its width if it does not fit `uint8` although that is asked for, and itself. -/
theorem EnumDef.losses_eq (e : EnumDef) (repr : EnumRepr) :
    e.losses repr (e.scalar repr) =
      (if repr = .uint8 ∧ ∃ v ∈ e.values, v.number < 0 ∨ 255 < v.number then
          [.enumWidth e.name .int32]
        else []) ++ [.enum e.name (e.scalar repr)] := by
  have hfits := e.fitsUInt8_iff
  by_cases hrepr : repr = .uint8
  · by_cases hout : ∃ v ∈ e.values, v.number < 0 ∨ 255 < v.number
    · have hscalar : e.scalar repr = .int32 := by
        rw [scalar, if_neg]
        exact fun h => (hfits.1 h.2) hout
      rw [losses, hscalar, if_pos ⟨hrepr, by decide⟩, if_pos ⟨hrepr, hout⟩]
      rfl
    · have hscalar : e.scalar repr = .uint8 := by
        rw [scalar, if_pos ⟨by rw [hrepr]; decide, hfits.2 hout⟩]
      rw [losses, hscalar, if_neg (by simp), if_neg fun h => hout h.2]
      rfl
  · rw [losses, if_neg fun h => hrepr h.1, if_neg fun h => hrepr h.1]
    rfl

theorem losses_rosType (h : f.rosType t repr file message = .ok rosType) :
    rosType.losses = (f.widened? t repr).toList ++ (f.flattened? t repr).toList := by
  unfold Field.rosType at h
  split at h
  · next k hf =>
    obtain rfl := Except.ok.inj h
    simp only [Field.widened?, Field.flattened?, Field.enum?, hf]
    split <;> rfl
  · next hf =>
    split at h
    · cases h
    · obtain rfl := Except.ok.inj h
      simp [Field.widened?, Field.flattened?, Field.enum?, hf]
  · next n hf =>
    split at h
    · next e he =>
      obtain rfl := Except.ok.inj h
      simp only [Field.widened?, Field.flattened?, Field.enum?, hf, he, e.losses_eq, Option.bind_some,
        Option.map_some]
      split <;> rfl
    · cases h
  · next w hf =>
    obtain rfl := Except.ok.inj h
    simp only [Field.widened?, Field.flattened?, Field.enum?, hf]
    split <;> rfl
  · cases h

/-- All that is lost of a field. -/
def Field.lostInRos (t : SymbolTable) (repr : EnumRepr) (f : Field) : List LossCause :=
  (f.widened? t repr).toList ++ (f.flattened? t repr).toList ++ f.rosLosses

theorem kind_of_widened? {cause : LossCause} (h : f.widened? t repr = some cause) :
    cause.kind = .scalarWidened := by
  unfold Field.widened? at h
  split at h
  · split at h <;> cases h
    rfl
  · split at h <;> cases h
    rfl
  · obtain ⟨e, -, h⟩ := Option.bind_eq_some_iff.1 h
    split at h <;> cases h
    rfl
  all_goals cases h

/-- What is lost of a field, by kind. -/
theorem filter_lostInRos (kind : LossKind) (f : Field) :
    (f.lostInRos t repr).filter (fun cause => cause.kind = kind) =
      (if .scalarWidened = kind then (f.widened? t repr).toList else []) ++
        (if .enumFlattened = kind then (f.flattened? t repr).toList else []) ++
        ((if .defaultDropped = kind then (f.default.map .default).toList else []) ++
          (if .presenceDropped = kind then if f.optional then [.presence] else [] else []) ++
          if .boundDiscarded = kind then f.bounds.map .bound else []) := by
  have hwidened : ∀ cause ∈ (f.widened? t repr).toList, cause.kind = .scalarWidened := fun cause hcause =>
    kind_of_widened? (Option.mem_toList.1 hcause)
  have hflattened : ∀ cause ∈ (f.flattened? t repr).toList, cause.kind = .enumFlattened := by
    intro cause hcause
    obtain ⟨q, -, rfl⟩ := Option.map_eq_some_iff.1 (Option.mem_toList.1 hcause)
    rfl
  have hdefault : ∀ cause ∈ (f.default.map LossCause.default).toList, cause.kind = .defaultDropped := by
    intro cause hcause
    obtain ⟨value, -, rfl⟩ := Option.map_eq_some_iff.1 (Option.mem_toList.1 hcause)
    rfl
  have hpresence : ∀ cause ∈ if f.optional then [LossCause.presence] else [],
      cause.kind = .presenceDropped := by
    split <;> simp [LossCause.kind]
  have hbounds : ∀ cause ∈ f.bounds.map LossCause.bound, cause.kind = .boundDiscarded :=
    List.forall_mem_map.2 fun _ _ => rfl
  simp only [Field.lostInRos, Field.rosLosses, List.filter_append, filter_of_key hwidened,
    filter_of_key hflattened, filter_of_key hdefault, filter_of_key hpresence, filter_of_key hbounds]

/-- The log of a message is made of what is lost of each field. -/
theorem losses_message_toRos (h : m.toRos t repr file = .ok ros) :
    ros.losses = fieldRecords [m] (Field.lostInRos t repr) ∧ ros.enums = m.enumsUsed t := by
  rw [Message.toRos] at h
  obtain ⟨types, htypes, h⟩ := bind_eq_ok_iff.1 h
  dsimp only at h
  split at h
  · cases h
  · obtain rfl := Except.ok.inj h
    refine ⟨?_, enumsUsed_of_types htypes⟩
    rw [fieldRecords, List.flatMap_singleton]
    refine flatMap_zip_eq (mapM_eq_ok_iff.1 htypes) fun f rosType hrosType => ?_
    rw [Field.lostInRos, ← losses_rosType hrosType]
    rfl

/-- The log of a file: for message after message, that it was nested and what is lost of its fields, and
then the enums that no message refers to. -/
theorem losses_toRos (hc : s.toRos t repr = .ok c) :
    ∃ r used, s.resolve t = .ok r ∧
      c.losses = (r.flatten.flatMap fun p =>
          nestingLoss p.1 p.2 ++ fieldRecords [p.2] (Field.lostInRos t repr)) ++
        unusedEnumLosses r used ∧
      (∀ n, n ∈ used ↔ ∃ p ∈ r.flatten, ∃ f ∈ p.2.fields, f.type = .enum n) ∧
      ∀ p ∈ r.flatten, ∀ f ∈ p.2.fields, ∀ n, f.type = .enum n → (f.enum? t).isSome := by
  have h := hc
  rw [Schema.toRos] at h
  obtain ⟨r, hr, h⟩ := bind_eq_ok_iff.1 h
  have hdefined := exists_enumDef_of_toRos hc hr
  dsimp only at h
  split at h
  · cases h
  · obtain ⟨mapped, hmapped, h⟩ := bind_eq_ok_iff.1 h
    obtain rfl := Except.ok.inj h
    have hpairs := mapM_eq_ok_iff.1 hmapped
    refine ⟨r, mapped.flatMap fun ros => ros.enums.map (·.1), hr, congrArg (· ++ _) ?_, fun n => ?_, ?_⟩
    · exact flatMap_zip_eq hpairs fun p ros hros => by rw [(losses_message_toRos hros).1]
    · have henums : mapped.map RosMessage.enums = r.flatten.map fun p => p.2.enumsUsed t :=
        map_eq_of_forall₂ (hpairs.imp fun p ros hros => (losses_message_toRos hros).2)
      have hused : (mapped.flatMap fun ros => ros.enums.map (·.1)) =
          r.flatten.flatMap fun p => (p.2.enumsUsed t).map (·.1) := by
        have hall := congrArg (List.flatMap (List.map (·.1))) henums
        rwa [List.flatMap_map, List.flatMap_map] at hall
      rw [hused, List.mem_flatMap]
      refine exists_congr fun p => and_congr_right fun hp => ?_
      rw [List.mem_map]
      constructor
      · rintro ⟨q, hq, rfl⟩
        obtain ⟨f, hf, htype, -⟩ := mem_enumsUsed.1 hq
        exact ⟨f, hf, htype⟩
      · rintro ⟨f, hf, htype⟩
        obtain ⟨e, he⟩ := hdefined p hp f hf n htype
        exact ⟨(n, e), he, rfl⟩
    · intro p hp f hf n htype
      obtain ⟨e, he⟩ := hdefined p hp f hf n htype
      obtain ⟨-, -, -, hdef⟩ := mem_enumsUsed.1 he
      simp [Field.enum?, htype, hdef]

theorem flatMap_nestingLoss (ps : List (TypeName × Message)) :
    ps.flatMap (fun p => nestingLoss p.1 p.2) =
      (ps.filter fun p => 1 < p.1.path.length).map fun p =>
        ⟨p.2.name, none, .nesting ⟨p.1.package, p.1.path.dropLast⟩⟩ := by
  induction ps with
  | nil => rfl
  | cons p ps ih =>
    rw [List.flatMap_cons, ih, nestingLoss, TypeName.parent?]
    by_cases hp : p.1.path.length < 2
    · rw [if_pos hp, List.filter_cons_of_neg (by rw [decide_eq_true_eq]; omega)]
      rfl
    · rw [if_neg hp, List.filter_cons_of_pos (by rw [decide_eq_true_eq]; omega)]
      rfl

/-- A file and the log of its conversion to ROS: the records of every kind, each in the order of the
file. -/
structure Schema.RosLog (t : SymbolTable) (repr : EnumRepr) (r : Schema) (losses : List Loss) : Prop where
  /-- One for every message that is nested in another one. -/
  nested : ofKind .nestingFlattened losses =
    (r.flatten.filter fun p => 1 < p.1.path.length).map fun p =>
      ⟨p.2.name, none, .nesting ⟨p.1.package, p.1.path.dropLast⟩⟩
  widened : ofKind .scalarWidened losses =
    fieldRecords (r.flatten.map (·.2)) fun f => (f.widened? t repr).toList
  flattened : ofKind .enumFlattened losses =
    fieldRecords (r.flatten.map (·.2)) fun f => (f.flattened? t repr).toList
  /-- The fields of which an enum is flattened are those that refer to one. -/
  enums : ∀ p ∈ r.flatten, ∀ f ∈ p.2.fields, (f.flattened? t repr).isSome ↔ ∃ n, f.type = .enum n
  defaults : ofKind .defaultDropped losses =
    fieldRecords (r.flatten.map (·.2)) fun f => (f.default.map .default).toList
  presence : ofKind .presenceDropped losses =
    fieldRecords (r.flatten.map (·.2)) fun f => if f.optional then [.presence] else []
  bounds : ofKind .boundDiscarded losses =
    fieldRecords (r.flatten.map (·.2)) fun f => f.bounds.map .bound
  /-- One for every enum that no field refers to. -/
  unused : ofKind .enumDropped losses =
    (r.namedEnums.filter fun q => ∀ p ∈ r.flatten, ∀ f ∈ p.2.fields, f.type ≠ .enum q.1).map fun q =>
      ⟨q.2.name, none, .unusedEnum⟩
  constants : ofKind .constantAsComment losses = []

theorem rosLog_of_toRos (h : s.toRos t repr = .ok c) :
    ∃ r, s.resolve t = .ok r ∧ r.RosLog t repr c.losses := by
  obtain ⟨r, used, hr, hlosses, hused, hdefined⟩ := losses_toRos h
  have hnesting : ∀ n m, ∀ l ∈ nestingLoss n m, l.cause.kind = .nestingFlattened := by
    intro n m l hl
    obtain ⟨parent, -, rfl⟩ := Option.map_eq_some_iff.1 (Option.mem_toList.1 hl)
    rfl
  have hunused : ∀ l ∈ unusedEnumLosses r used, l.cause.kind = .enumDropped :=
    List.forall_mem_map.2 fun _ _ => rfl
  -- a kind that is neither of nesting nor of enums that are dropped is one of fields
  have hfields : ∀ kind, kind ≠ .nestingFlattened → kind ≠ .enumDropped →
      ofKind kind c.losses = fieldRecords (r.flatten.map (·.2)) fun f =>
        (f.lostInRos t repr).filter fun cause => cause.kind = kind := by
    intro kind hne hne'
    simp only [hlosses, ofKind_append, ofKind_flatMap, ofKind_of_forall (hnesting _ _),
      ofKind_of_forall hunused, if_neg hne.symm, if_neg hne'.symm, List.nil_append, List.append_nil,
      ofKind_fieldRecords, flatMap_fieldRecords]
  have hfield : ∀ kind, (kind = .nestingFlattened ∨ kind = .enumDropped) → ∀ m,
      ofKind kind (fieldRecords [m] (Field.lostInRos t repr)) = [] := by
    intro kind hkind m
    rw [ofKind_fieldRecords, fieldRecords_eq_nil_iff]
    intro m _ f _
    rcases hkind with rfl | rfl <;> simp [filter_lostInRos]
  refine ⟨r, hr, ⟨?_, ?_, ?_, ?_, ?_, ?_, ?_, ?_, ?_⟩⟩
  · simp only [hlosses, ofKind_append, ofKind_flatMap, ofKind_of_forall (hnesting _ _),
      ofKind_of_forall hunused, hfield _ (.inl rfl), if_pos, List.append_nil, reduceCtorEq, if_false]
    exact flatMap_nestingLoss r.flatten
  · simpa [filter_lostInRos] using hfields .scalarWidened (by decide) (by decide)
  · simpa [filter_lostInRos] using hfields .enumFlattened (by decide) (by decide)
  · intro p hp f hf
    constructor
    · intro hsome
      rw [Field.flattened?, Option.isSome_map, Field.enum?] at hsome
      split at hsome
      · next n hn => exact ⟨n, hn⟩
      · cases hsome
    · rintro ⟨n, hn⟩
      rw [Field.flattened?, Option.isSome_map]
      exact hdefined p hp f hf n hn
  · simpa [filter_lostInRos] using hfields .defaultDropped (by decide) (by decide)
  · simpa [filter_lostInRos] using hfields .presenceDropped (by decide) (by decide)
  · simpa [filter_lostInRos] using hfields .boundDiscarded (by decide) (by decide)
  · simp only [hlosses, ofKind_append, ofKind_flatMap, ofKind_of_forall (hnesting _ _),
      ofKind_of_forall hunused, hfield _ (.inr rfl), if_pos, List.append_nil, reduceCtorEq, if_false,
      List.flatMap_eq_nil_iff.2 fun _ _ => rfl, List.nil_append]
    rw [unusedEnumLosses]
    refine congrArg (List.map _) (List.filter_congr fun q _ => ?_)
    rw [decide_eq_decide, hused]
    simp only [not_exists, not_and, ne_eq]
  · simpa [filter_lostInRos] using hfields .constantAsComment (by decide) (by decide)

/-- Nothing that the log of a conversion to ROS is about is left out: no message is nested, all fields keep
their types and have no enum, default value, presence or bounds, and there are no enums. -/
structure Schema.KeptByRos (t : SymbolTable) (repr : EnumRepr) (r : Schema) : Prop where
  outermost : ∀ p ∈ r.flatten, p.1.path.length ≤ 1
  types : ∀ p ∈ r.flatten, ∀ f ∈ p.2.fields, f.widened? t repr = none ∧ ∀ n, f.type ≠ .enum n
  fields : ∀ p ∈ r.flatten, ∀ f ∈ p.2.fields, f.default = none ∧ f.optional = false ∧ f.bounds = []
  enums : r.namedEnums = []

theorem fieldRecords_flatten_eq_nil_iff {lost : Field → List LossCause} :
    fieldRecords (r.flatten.map (·.2)) lost = [] ↔
      ∀ p ∈ r.flatten, ∀ f ∈ p.2.fields, lost f = [] := by
  rw [fieldRecords_eq_nil_iff, List.forall_mem_map]

/-- If no kind of record is in the log, nothing is left out. -/
theorem Schema.RosLog.kept {losses : List Loss} (h : r.RosLog t repr losses)
    (hnone : ∀ kind, ofKind kind losses = []) : r.KeptByRos t repr := by
  have hnested := h.nested.symm.trans (hnone _)
  have hwidened := fieldRecords_flatten_eq_nil_iff.1 (h.widened.symm.trans (hnone _))
  have hflattened := fieldRecords_flatten_eq_nil_iff.1 (h.flattened.symm.trans (hnone _))
  have hdefaults := fieldRecords_flatten_eq_nil_iff.1 (h.defaults.symm.trans (hnone _))
  have hpresence := fieldRecords_flatten_eq_nil_iff.1 (h.presence.symm.trans (hnone _))
  have hbounds := fieldRecords_flatten_eq_nil_iff.1 (h.bounds.symm.trans (hnone _))
  have hunused := h.unused.symm.trans (hnone _)
  have htypes : ∀ p ∈ r.flatten, ∀ f ∈ p.2.fields, ∀ n, f.type ≠ .enum n := by
    intro p hp f hf n hn
    have hsome := (h.enums p hp f hf).2 ⟨n, hn⟩
    rw [Option.toList_eq_nil_iff.1 (hflattened p hp f hf)] at hsome
    cases hsome
  refine ⟨fun p hp => ?_, fun p hp f hf => ⟨?_, htypes p hp f hf⟩, fun p hp f hf => ⟨?_, ?_, ?_⟩, ?_⟩
  · simpa using List.filter_eq_nil_iff.1 (List.map_eq_nil_iff.1 hnested) p hp
  · exact Option.toList_eq_nil_iff.1 (hwidened p hp f hf)
  · simpa using hdefaults p hp f hf
  · simpa using hpresence p hp f hf
  · simpa using hbounds p hp f hf
  · -- no field refers to any enum, so that all enums are dropped
    refine List.eq_nil_iff_forall_not_mem.2 fun q hq => ?_
    refine absurd (List.filter_eq_nil_iff.1 (List.map_eq_nil_iff.1 hunused) q hq) (not_not_intro ?_)
    rw [decide_eq_true_eq]
    exact fun p hp f hf => htypes p hp f hf q.1

/-- If nothing is left out, no kind of record is in the log. -/
theorem Schema.RosLog.ofKind_eq_nil {losses : List Loss} (h : r.RosLog t repr losses)
    (hkept : r.KeptByRos t repr) (kind : LossKind) : ofKind kind losses = [] := by
  have hflattened : ∀ p ∈ r.flatten, ∀ f ∈ p.2.fields, f.flattened? t repr = none := by
    intro p hp f hf
    cases hsome : f.flattened? t repr with
    | none => rfl
    | some cause =>
      obtain ⟨n, hn⟩ := (h.enums p hp f hf).1 (by rw [hsome]; rfl)
      exact absurd hn ((hkept.types p hp f hf).2 n)
  cases kind with
  | boundDiscarded =>
    rw [h.bounds, fieldRecords_flatten_eq_nil_iff]
    exact fun p hp f hf => by rw [(hkept.fields p hp f hf).2.2, List.map_nil]
  | scalarWidened =>
    rw [h.widened, fieldRecords_flatten_eq_nil_iff]
    exact fun p hp f hf => by rw [(hkept.types p hp f hf).1, Option.toList_none]
  | nestingFlattened =>
    rw [h.nested, List.map_eq_nil_iff]
    exact List.filter_eq_nil_iff.2 fun p hp => by simpa using hkept.outermost p hp
  | enumFlattened =>
    rw [h.flattened, fieldRecords_flatten_eq_nil_iff]
    exact fun p hp f hf => by rw [hflattened p hp f hf, Option.toList_none]
  | enumDropped => rw [h.unused, hkept.enums, List.filter_nil, List.map_nil]
  | constantAsComment => exact h.constants
  | defaultDropped =>
    rw [h.defaults, fieldRecords_flatten_eq_nil_iff]
    exact fun p hp f hf => by simp [(hkept.fields p hp f hf).1]
  | presenceDropped =>
    rw [h.presence, fieldRecords_flatten_eq_nil_iff]
    exact fun p hp f hf => by simp [(hkept.fields p hp f hf).2.1]

theorem Schema.RosLog.eq_nil_iff {losses : List Loss} (h : r.RosLog t repr losses) :
    losses = [] ↔ r.KeptByRos t repr := by
  rw [eq_nil_iff_ofKind]
  exact ⟨h.kept, h.ofKind_eq_nil⟩

/-! ## What is lost on the way to proto3 -/

/-- What is lost when a scalar becomes one that proto3 has. -/
def Field.replaced? (f : Field) : Option LossCause :=
  match f.type with
  | .scalar k => if k.keepsProto then none else some (.scalar k k.toProto)
  | _ => none

/-- A file and the log of its conversion to proto3: the records of every kind, each in the order of the
file. -/
structure Schema.ProtoLog (r : Schema) (losses : List Loss) : Prop where
  widened : ofKind .scalarWidened losses = fieldRecords r.messages fun f => f.replaced?.toList
  bounds : ofKind .boundDiscarded losses = fieldRecords r.messages fun f => f.bounds.map .bound
  defaults : ofKind .defaultDropped losses =
    fieldRecords r.messages fun f => (f.default.map .default).toList
  constants : ofKind .constantAsComment losses =
    r.messages.flatMap fun m => m.constants.map fun constant => ⟨m.name, none, .constant constant⟩
  /-- There are records of no other kind. -/
  others : ∀ kind, kind ∉ [LossKind.scalarWidened, .boundDiscarded, .defaultDropped, .constantAsComment] →
    ofKind kind losses = []

theorem Field.protoLosses_eq (f : Field) :
    f.protoLosses =
      f.replaced?.toList ++ f.bounds.map .bound ++ (f.default.map .default).toList := by
  obtain ⟨name, type, repeated, optional, ordinal, default, bounds, comments⟩ := f
  cases type with
  | scalar k =>
    dsimp only [protoLosses, replaced?]
    by_cases hk : k.keepsProto = true
    · rw [if_pos hk, if_pos hk]
      rfl
    · rw [if_neg hk, if_neg hk]
      rfl
  | named spelling | message n | enum n | wellKnown w => rfl

/-- What is lost of a field on the way to proto3, by kind. -/
theorem filter_protoLosses (kind : LossKind) (f : Field) :
    f.protoLosses.filter (fun cause => cause.kind = kind) =
      (if .scalarWidened = kind then f.replaced?.toList else []) ++
        (if .boundDiscarded = kind then f.bounds.map .bound else []) ++
        (if .defaultDropped = kind then (f.default.map .default).toList else []) := by
  have hkind : ∀ cause ∈ f.replaced?.toList, cause.kind = .scalarWidened := by
    intro cause hcause
    have h := Option.mem_toList.1 hcause
    unfold Field.replaced? at h
    split at h
    · split at h <;> cases h
      rfl
    · cases h
  have hbounds : ∀ cause ∈ f.bounds.map LossCause.bound, cause.kind = .boundDiscarded :=
    List.forall_mem_map.2 fun _ _ => rfl
  have hdefault : ∀ cause ∈ (f.default.map LossCause.default).toList, cause.kind = .defaultDropped := by
    intro cause hcause
    obtain ⟨value, -, rfl⟩ := Option.map_eq_some_iff.1 (Option.mem_toList.1 hcause)
    rfl
  simp only [f.protoLosses_eq, List.filter_append, filter_of_key hkind, filter_of_key hbounds, filter_of_key hdefault]

theorem protoLog_of_toProto (h : s.toProto t = .ok c) :
    ∃ r, s.resolve t = .ok r ∧ r.ProtoLog c.losses := by
  rw [Schema.toProto] at h
  obtain ⟨r, hr, h⟩ := bind_eq_ok_iff.1 h
  obtain rfl := Except.ok.inj h
  have hconstants : ∀ m : Message, ∀ l ∈ m.constants.map fun constant => Loss.inMessage m (.constant constant),
      l.cause.kind = .constantAsComment := fun m => List.forall_mem_map.2 fun _ _ => rfl
  have hkind : ∀ kind, ofKind kind (r.messages.flatMap Message.protoLosses) = r.messages.flatMap fun m =>
      (fieldRecords [m] fun f => f.protoLosses.filter fun cause => cause.kind = kind) ++
        if .constantAsComment = kind then
          m.constants.map fun constant => Loss.inMessage m (.constant constant)
        else [] := by
    intro kind
    rw [ofKind_flatMap]
    refine List.flatMap_congr fun m _ => ?_
    rw [Message.protoLosses, ofKind_append, ofKind_of_forall (hconstants m), ← ofKind_fieldRecords,
      fieldRecords, List.flatMap_singleton]
    rfl
  have hfields : ∀ lost : Field → List LossCause,
      r.messages.flatMap (fun m => fieldRecords [m] lost) = fieldRecords r.messages lost := by
    intro lost
    exact (flatMap_fieldRecords r.messages id lost).trans (by rw [List.map_id])
  refine ⟨r, hr, ⟨?_, ?_, ?_, ?_, fun kind hother => ?_⟩⟩
  · simp [hkind, filter_protoLosses, hfields]
  · simp [hkind, filter_protoLosses, hfields]
  · simp [hkind, filter_protoLosses, hfields]
  · simp [hkind, filter_protoLosses, Loss.inMessage]
  · simp only [List.mem_cons, List.not_mem_nil, or_false, not_or] at hother
    obtain ⟨hwidened, hbound, hdefault, hconstant⟩ := hother
    simp [hkind, filter_protoLosses, Ne.symm hwidened, Ne.symm hbound, Ne.symm hdefault,
      Ne.symm hconstant]

/-- Nothing that the log of a conversion to proto3 is about is left out: all scalars are kept, there are no
constants, and no field has bounds or a default value. -/
structure Schema.KeptByProto (r : Schema) : Prop where
  fields : ∀ m ∈ r.messages, ∀ f ∈ m.fields, f.replaced? = none ∧ f.bounds = [] ∧ f.default = none
  constants : ∀ m ∈ r.messages, m.constants = []

theorem Schema.ProtoLog.eq_nil_iff {losses : List Loss} (h : r.ProtoLog losses) :
    losses = [] ↔ r.KeptByProto := by
  rw [eq_nil_iff_ofKind]
  constructor
  · intro hnone
    have hwidened := fieldRecords_eq_nil_iff.1 (h.widened.symm.trans (hnone _))
    have hbounds := fieldRecords_eq_nil_iff.1 (h.bounds.symm.trans (hnone _))
    have hdefaults := fieldRecords_eq_nil_iff.1 (h.defaults.symm.trans (hnone _))
    have hconstants := List.flatMap_eq_nil_iff.1 (h.constants.symm.trans (hnone _))
    refine ⟨fun m hm f hf => ⟨?_, ?_, ?_⟩, fun m hm => List.map_eq_nil_iff.1 (hconstants m hm)⟩
    · exact Option.toList_eq_nil_iff.1 (hwidened m hm f hf)
    · exact List.map_eq_nil_iff.1 (hbounds m hm f hf)
    · simpa using hdefaults m hm f hf
  · intro hkept kind
    cases kind with
    | scalarWidened =>
      rw [h.widened, fieldRecords_eq_nil_iff]
      exact fun m hm f hf => by rw [(hkept.fields m hm f hf).1, Option.toList_none]
    | boundDiscarded =>
      rw [h.bounds, fieldRecords_eq_nil_iff]
      exact fun m hm f hf => by rw [(hkept.fields m hm f hf).2.1, List.map_nil]
    | defaultDropped =>
      rw [h.defaults, fieldRecords_eq_nil_iff]
      exact fun m hm f hf => by simp [(hkept.fields m hm f hf).2.2]
    | constantAsComment =>
      rw [h.constants, List.flatMap_eq_nil_iff]
      exact fun m hm => by rw [hkept.constants m hm, List.map_nil]
    | nestingFlattened | enumFlattened | enumDropped | presenceDropped => exact h.others _ (by decide)

/-! ## Both ways -/

/-- The log of a conversion is exact: there is one record for everything on the lists of `Schema.RosLog` and
`Schema.ProtoLog`, and no other record; an empty log means that nothing on these lists is left out. -/
theorem log_exact (t : SymbolTable) (s : Schema) (c : Conversion) :
    (∀ repr, s.toRos t repr = .ok c →
      ∃ r, s.resolve t = .ok r ∧ r.RosLog t repr c.losses ∧ (c.losses = [] ↔ r.KeptByRos t repr)) ∧
      (s.toProto t = .ok c →
        ∃ r, s.resolve t = .ok r ∧ r.ProtoLog c.losses ∧ (c.losses = [] ↔ r.KeptByProto)) := by
  constructor
  · intro repr h
    obtain ⟨r, hr, hlog⟩ := rosLog_of_toRos h
    exact ⟨r, hr, hlog, hlog.eq_nil_iff⟩
  · intro h
    obtain ⟨r, hr, hlog⟩ := protoLog_of_toProto h
    exact ⟨r, hr, hlog, hlog.eq_nil_iff⟩

/-- A file that loses something of every kind on its way to ROS. -/
def craftFile : Schema :=
  { name := "craft.proto"
    dialect := .proto3
    package := ["lab"]
    messages :=
      [{ name := "Craft"
         fields :=
           [{ name := "raw", type := .scalar .bytes, optional := true, default := some "x" },
            { name := "payload", type := .named "google.protobuf.BytesValue" },
            { name := "mode", type := .named "Mode" },
            { name := "crew", type := .scalar .int32, repeated := true, bounds := [.boundedArray 4] }]
         nested := [{ name := "Part" }]
         enums := [{ name := "Mode", values := [⟨"OFF", 0, []⟩, ⟨"LOST", -1, []⟩] }] }]
    enums := [{ name := "Unused", values := [⟨"NONE", 0, []⟩] }] }

/-- A file that loses something of every kind on its way to proto3. -/
def gaugeFile : Schema :=
  { name := "lab/Gauge.msg"
    package := ["lab"]
    messages :=
      [{ name := "Gauge"
         fields :=
           [{ name := "unit", type := .scalar .wstring, default := some "bar", bounds := [.boundedString 8] }]
         constants := [{ name := "MAX", type := .int32, value := "7", anchor := some 0 }] }] }

def craftLosses : List Loss :=
  [⟨"Craft", some "raw", .scalar .bytes .string⟩, ⟨"Craft", some "raw", .default "x"⟩,
   ⟨"Craft", some "raw", .presence⟩, ⟨"Craft", some "payload", .wellKnown .bytesValue⟩,
   ⟨"Craft", some "mode", .enumWidth "Mode" .int32⟩, ⟨"Craft", some "mode", .enum "Mode" .int32⟩,
   ⟨"Craft", some "crew", .bound (.boundedArray 4)⟩, ⟨"Part", none, .nesting ⟨["lab"], ["Craft"]⟩⟩,
   ⟨"Unused", none, .unusedEnum⟩]

def gaugeLosses : List Loss :=
  [⟨"Gauge", some "unit", .scalar .wstring .string⟩, ⟨"Gauge", some "unit", .bound (.boundedString 8)⟩,
   ⟨"Gauge", some "unit", .default "bar"⟩,
   ⟨"Gauge", none, .constant { name := "MAX", type := .int32, value := "7", anchor := some 0 }⟩]

theorem log_exact_craftFile :
    (∃ c r, craftFile.toRos (.ofFiles [craftFile]) .uint8 = .ok c ∧ c.losses = craftLosses ∧
      craftFile.resolve (.ofFiles [craftFile]) = .ok r ∧
      r.RosLog (.ofFiles [craftFile]) .uint8 c.losses) ∧
      ∃ c r, gaugeFile.toProto (.ofFiles [gaugeFile]) = .ok c ∧ c.losses = gaugeLosses ∧
        gaugeFile.resolve (.ofFiles [gaugeFile]) = .ok r ∧ r.ProtoLog c.losses := by
  constructor
  · have hlosses : (craftFile.toRos (.ofFiles [craftFile]) .uint8).map (·.losses) = .ok craftLosses := by
      decide +kernel
    obtain ⟨c, hc, hlosses⟩ := map_eq_ok_iff.1 hlosses
    obtain ⟨r, hr, hlog, -⟩ := (log_exact _ _ c).1 .uint8 hc
    exact ⟨c, r, hc, hlosses, hr, hlog⟩
  · have hlosses : (gaugeFile.toProto (.ofFiles [gaugeFile])).map (·.losses) = .ok gaugeLosses := by
      decide +kernel
    obtain ⟨c, hc, hlosses⟩ := map_eq_ok_iff.1 hlosses
    obtain ⟨r, hr, hlog, -⟩ := (log_exact _ _ c).2 hc
    exact ⟨c, r, hc, hlosses, hr, hlog⟩

end SchemaBridge
