import SchemaBridge.Proofs.FileRoundTrip

/-!
# Mapping a parsed file to proto3 and back

A parsed file that is mapped to proto3 is mapped back to ROS without any loss, whatever its package is
and whether or not its batch declares what it refers to (`toRos_toProto`). The mapped files declare
outermost messages only, so that no reference is ambiguous once nesting is flattened; the fields come
back as `Field.comingBack` says, and a file that lost nothing on the way comes back as it was.
-/

namespace SchemaBridge

open RosText

variable {t : SymbolTable} {site : Site} {spelling file message : String} {type : TypeRef}
  {f g : Field} {m p : Message} {s : Schema} {files : List Schema} {enclosing : TypeName} {repr : EnumRepr}

/-! ## Parsed files -/

/-- A field as a `.msg` file declares it. -/
structure Field.IsDeclared (f : Field) : Prop where
  type : (∃ k : Scalar, k.rosKeyword?.isSome ∧ f.type = .scalar k) ∨
    ∃ spelling, f.type = .named spelling
  optional : f.optional = false
  ordinal : f.ordinal = none

/-- A file with the one message that a `.msg` file declares. -/
structure Schema.IsDeclared (s : Schema) (m : Message) : Prop where
  single : s.Single m
  dialect : s.dialect = .ros
  fields : ∀ f ∈ m.fields, f.IsDeclared
  distinct : (m.fields.map (·.name)).Nodup

/-- A file that was parsed, in whatever package. -/
def Schema.IsParsed (s : Schema) : Prop :=
  ∃ text path s₀ package, parse text path = .ok s₀ ∧ s = { s₀ with package := package }

theorem Schema.IsParsed.exists_declared (h : s.IsParsed) : ∃ m, s.IsDeclared m := by
  obtain ⟨text, path, s₀, package, hparse, rfl⟩ := h
  obtain ⟨directories, name, found, -, hname, hdistinct, hfound, rfl⟩ := exists_lines_of_parse hparse
  have hwritable : Writable directories (messageOfLines name found) :=
    writable_messageOfLines hname hfound hdistinct
  refine ⟨messageOfLines name found, ⟨rfl, rfl, rfl, rfl⟩, rfl, fun f hf => ?_,
    (List.nodup_append.1 hwritable.distinct).1⟩
  obtain ⟨l, hl, heq⟩ := mem_fields hf
  obtain ⟨-, ⟨spelling, hbase⟩, -⟩ := hfound _ hl
  have htype : f.type = l.type.base.typeRef := congrArg Field.type heq
  refine ⟨?_, congrArg Field.optional heq, congrArg Field.ordinal heq⟩
  rw [htype]
  generalize hbound : none = bound at hbase
  generalize l.type.base = base at hbase
  cases hbase with
  | scalar hs => exact .inl ⟨_, by rw [hs]; rfl, rfl⟩
  | bounded => cases hbound
  | named => exact .inr ⟨_, rfl⟩

/-! ## Resolved fields -/

theorem isRos_typeRef {symbol : Symbol} (ht : t.Outermost) {qualified : String}
    (h : t.named qualified = [symbol]) : symbol.typeRef.IsRos := by
  obtain ⟨hkind, hflat⟩ := ht symbol (SymbolTable.mem_named.1 (h ▸ List.mem_singleton_self _)).1
  rw [Symbol.typeRef, hkind]
  exact .message hflat

theorem isRos_of_resolveQualified {outer name : String} (ht : t.Outermost)
    (h : site.resolveQualified t spelling outer name = .ok type) : type.IsRos := by
  rcases resolveQualified_eq_ok_iff.1 h with ⟨symbol, hnamed, rfl⟩ | ⟨-, -, -, rfl⟩
  · exact isRos_typeRef ht hnamed
  -- a type that is only trusted to exist is named as an outermost one
  · exact .message rfl

theorem isRos_of_resolveLocal {name : String} (ht : t.Outermost)
    (h : site.resolveLocal t spelling name = .ok type) : type.IsRos := by
  rcases resolveLocal_eq_ok_iff.1 h with ⟨symbol, hnamed, rfl⟩ | ⟨-, -, rfl⟩
  · exact isRos_typeRef ht hnamed
  · exact .message rfl

theorem isRos_of_resolveRos (ht : t.Outermost) (h : site.resolveRos t spelling = .ok type) :
    type.IsRos := by
  unfold Site.resolveRos at h
  split at h
  · next w hw =>
    obtain rfl := Except.ok.inj h
    have hfound := List.find?_some hw
    exact .wellKnown (by simpa using (of_decide_eq_true hfound).1)
  · split at h
    · exact isRos_of_resolveLocal ht h
    · exact isRos_of_resolveQualified ht h
    · exact isRos_of_resolveQualified ht h
    · cases h

/-- A field of a parsed file once its type is known. -/
structure Field.IsRos (f : Field) : Prop where
  type : f.type.IsRos
  optional : f.optional = false
  ordinal : f.ordinal = none

theorem Field.IsDeclared.isRos (hf : f.IsDeclared) (ht : t.Outermost)
    (h : f.resolve t .ros file enclosing = .ok g) : g.IsRos := by
  obtain ⟨⟨k, hk, htype⟩ | ⟨spelling, htype⟩, hoptional, hordinal⟩ := hf
  · rw [Field.resolve_eq_self (by rw [htype]; rfl)] at h
    obtain rfl := Except.ok.inj h
    exact ⟨htype ▸ .scalar hk, hoptional, hordinal⟩
  · simp only [Field.resolve, htype] at h
    obtain ⟨type, hmeant, h⟩ := bind_eq_ok_iff.1 h
    obtain rfl := Except.ok.inj h
    exact ⟨isRos_of_resolveRos ht hmeant, hoptional, hordinal⟩

/-! ## Through proto3 -/

/-- The field `f` as it comes back, with the comments of the field `g`. -/
def Field.comingBack (f g : Field) : Field :=
  { f with
    type := f.type.returned
    ordinal := none
    default := none
    bounds := []
    comments := g.comments }

/-- The field `g` stands for `f` in a proto3 message. -/
structure Field.MapsTo (f g : Field) : Prop where
  name : g.name = f.name
  type : g.type = f.type.toProto
  repeated : g.repeated = f.repeated
  optional : g.optional = f.optional
  default : g.default = none
  bounds : g.bounds = []

theorem mapsTo_toProto (m : Message) : List.Forall₂ Field.MapsTo m.fields m.toProto.fields :=
  forall₂_mapIdx fun _ _ _ => ⟨rfl, rfl, rfl, rfl, rfl, rfl⟩

theorem Field.MapsTo.withRosType_eq (h : f.MapsTo g) (hf : f.IsRos) :
    g.withRosType { type := f.type.returned } = f.comingBack g := by
  simp [Field.withRosType, Field.comingBack, h.name, h.repeated, hf.optional]

theorem Field.MapsTo.rosLosses_eq (h : f.MapsTo g) (hf : f.IsRos) : g.rosLosses = [] := by
  simp [Field.rosLosses, h.default, h.optional, h.bounds, hf.optional]

/-- The types that fields have once they come back. -/
def returnedTypes (fields : List Field) : List RosType :=
  fields.map fun f => { type := f.type.returned }

/-- With the types that come back the fields are as they come back, and nothing is lost with them. -/
theorem map_returnedTypes {fields mapped : List Field}
    (h : List.Forall₂ (fun f g => f.IsRos ∧ f.MapsTo g) fields mapped) :
    ((mapped.zip (returnedTypes fields)).map fun (g, t) => g.withRosType t) =
        List.zipWith Field.comingBack fields mapped ∧
      ((mapped.zip (returnedTypes fields)).flatMap fun (g, t) =>
        (t.losses ++ g.rosLosses).map (Loss.inField p g)) = [] := by
  induction h with
  | nil => exact ⟨rfl, rfl⟩
  | @cons f g fields mapped hfg _ ih =>
    obtain ⟨hf, hg⟩ := hfg
    obtain ⟨hback, hlosses⟩ := ih
    constructor
    · simp only [returnedTypes, List.map_cons, List.zip_cons_cons, hg.withRosType_eq hf,
        List.zipWith_cons_cons]
      rw [← hback]
      rfl
    · simp only [returnedTypes, List.map_cons, List.zip_cons_cons, List.flatMap_cons,
        hg.rosLosses_eq hf, List.append_nil, List.map_nil, List.nil_append]
      exact hlosses

/-- A message that was mapped to proto3 comes back. -/
theorem toRos_toProto_message (ht : t.Outermost) (hfields : ∀ f ∈ m.fields, f.IsRos)
    (hdistinct : (m.fields.map (·.name)).Nodup) :
    m.toProto.toRos t repr file =
      .ok
        { message :=
            { name := m.name
              fields := List.zipWith Field.comingBack m.fields m.toProto.fields
              comments := m.toProto.comments }
          losses := []
          enums := [] } := by
  have hall : List.Forall₂ (fun f g => f.IsRos ∧ f.MapsTo g) m.fields m.toProto.fields :=
    (List.forall₂_and_left m.fields m.toProto.fields).2 ⟨hfields, mapsTo_toProto m⟩
  have htypes : m.toProto.fields.mapM (Field.rosType t repr file m.toProto.name) =
      .ok (returnedTypes m.fields) := by
    refine mapM_eq_ok_iff.2 (List.forall₂_map_right_iff.2 (hall.flip.imp fun g f ⟨hf, hg⟩ => ?_))
    exact rosType_toProto repr ht hf.type hg.type
  have henums : (returnedTypes m.fields).filterMap (·.enum) = [] :=
    List.filterMap_eq_nil_iff.2 (by simp [returnedTypes])
  have hnames : m.toProto.fields.map (·.name) = m.fields.map (·.name) :=
    map_eq_of_forall₂ ((mapsTo_toProto m).imp fun _ _ h => h.name)
  have hconstants : m.toProto.constants = [] := rfl
  have hrepeated : firstRepeated? (declarations m.toProto.fields m.toProto.constants []) = none := by
    refine firstRepeated?_eq_none_iff.2 ?_
    simpa [declarations, hconstants, Function.comp_def, hnames] using hdistinct
  obtain ⟨hback, hlosses⟩ := map_returnedTypes (p := m.toProto) hall
  simp only [Message.toRos, htypes, bind, Except.bind, henums, List.eraseDups_nil, hrepeated, hback,
    hlosses]
  rfl

/-! ## Files -/

/-- A file that was mapped to proto3 comes back without a loss. -/
theorem toRos_toProto_file (repr : EnumRepr) (hs : s.Single m.toProto) (ht : t.Outermost)
    (hfields : ∀ f ∈ m.fields, f.IsRos) (hdistinct : (m.fields.map (·.name)).Nodup) :
    s.toRos t repr =
      .ok
        { schema :=
            { name := s.name
              dialect := .ros
              package := s.package
              messages :=
                [{ name := m.name
                   fields := List.zipWith Field.comingBack m.fields m.toProto.fields
                   comments := m.toProto.comments }] }
          losses := [] } := by
  have hflatten := hs.flatten_eq
  -- the mapped file has no spelled references left, so the table of the batch is not asked
  have hresolve : s.resolve t = .ok s := by
    refine Schema.resolve_eq_self fun p hp g hg => ?_
    rw [hflatten] at hp
    obtain rfl := List.mem_singleton.1 hp
    obtain ⟨f, hf, hmaps⟩ := exists_of_mem_left (mapsTo_toProto m).flip g hg
    rw [hmaps.type]
    exact (hfields f hf).type.isResolved_toProto
  simp only [Schema.toRos, hresolve, bind, Except.bind, hflatten, flattenError?_single ht,
    List.mapM_cons, List.mapM_nil, toRos_toProto_message ht hfields hdistinct, unusedEnumLosses,
    hs.namedEnums_eq]
  rfl

/-! ## Without losses -/

theorem TypeRef.IsRos.returned_eq (h : type.IsRos)
    (hkeeps : ∀ k, type = .scalar k → k.keepsProto = true) : type.returned = type := by
  cases h with
  | @scalar k hk =>
    have hproto : k.toProto = k := by simpa [Scalar.keepsProto] using hkeeps k rfl
    have hros : k.toRos = k := by cases k <;> first | rfl | cases hk
    rw [TypeRef.returned, hproto, hros]
  | wellKnown => rfl
  | message => rfl

theorem bounds_eq_nil_of_protoLosses (h : f.protoLosses = []) : f.bounds = [] := by
  simp only [Field.protoLosses, List.append_eq_nil_iff, List.map_eq_nil_iff] at h
  exact h.1.2

/-- A field that loses nothing comes back as it was. -/
theorem Field.IsRos.comingBack_eq (hf : f.IsRos) (hlosses : f.protoLosses = [])
    (hcomments : g.comments = f.comments) : f.comingBack g = f := by
  have hbounds := bounds_eq_nil_of_protoLosses hlosses
  simp only [Field.protoLosses, List.append_eq_nil_iff] at hlosses
  obtain ⟨⟨htype, -⟩, hdefault⟩ := hlosses
  have hnone : f.default = none := by
    cases hd : f.default with
    | none => rfl
    | some value => simp [hd] at hdefault
  have hreturned : f.type.returned = f.type := by
    refine hf.type.returned_eq fun k hk => ?_
    by_contra hne
    simp [hk, hne] at htype
  rw [Field.comingBack, hreturned, hcomments, ← hf.ordinal, ← hnone, ← hbounds]

/-- A message that loses nothing comes back as it was. -/
theorem comingBack_message (hnested : m.nested = []) (henums : m.enums = [])
    (hfields : ∀ f ∈ m.fields, f.IsRos) (hlosses : m.protoLosses = []) :
    ({ name := m.name
       fields := List.zipWith Field.comingBack m.fields m.toProto.fields
       comments := m.toProto.comments } : Message) = m := by
  simp only [Message.protoLosses, List.append_eq_nil_iff, List.flatMap_eq_nil_iff,
    List.map_eq_nil_iff] at hlosses
  obtain ⟨hlosses, hconstants⟩ := hlosses
  have hcomments : m.toProto.comments = m.comments := by
    simp [Message.toProto, hconstants, linesAfter]
  have hsame : List.zipWith Field.comingBack m.fields m.toProto.fields = m.fields := by
    refine zipWith_eq_left (forall₂_mapIdx fun i f hf => ?_)
    -- only constants and bounds leave comments on a field, and either would be a loss
    refine (hfields f hf).comingBack_eq (hlosses f hf) ?_
    simp [Field.toProto, bounds_eq_nil_of_protoLosses (hlosses f hf), linesBefore, hconstants]
  rw [hcomments, hsame]
  obtain ⟨name, fields, nested, enums, constants, comments⟩ := m
  obtain rfl : nested = [] := hnested
  obtain rfl : enums = [] := henums
  obtain rfl : constants = [] := hconstants
  rfl

/-! ## Batches -/

/-- The fields of a message that was mapped to proto3 are numbered from one. -/
theorem ordinals_toProto (m : Message) :
    m.toProto.fields.map (·.ordinal) =
      (List.range' 1 m.toProto.fields.length).map fun number => some (UInt32.ofNat number) := by
  refine List.ext_getElem (by simp) fun i hi _ => ?_
  simp [Message.toProto, Field.toProto, Nat.add_comm]

/-- The files of a batch that can be mapped to proto3, as proto3 files. -/
def mappedFiles (files : List Schema) : List Schema :=
  files.filterMap fun s => (s.toProto (.ofFiles files)).toOption.map (·.schema)

/-- What becomes of a parsed file in proto3. -/
theorem exists_fields_of_toProto {mapped : Conversion} (ht : t.Outermost) (h : s.IsDeclared m)
    (hmapped : s.toProto t = .ok mapped) :
    ∃ fields, s.resolve t = .ok { s with messages := [{ m with fields := fields }] } ∧
      (∀ f ∈ fields, f.IsRos) ∧ (fields.map (·.name)).Nodup ∧
      mapped.schema.Single (Message.toProto { m with fields := fields }) ∧
      mapped.losses = Message.protoLosses { m with fields := fields } := by
  rw [Schema.toProto] at hmapped
  obtain ⟨r, hr, hmapped⟩ := bind_eq_ok_iff.1 hmapped
  obtain ⟨fields, hfields, rfl⟩ := h.single.resolve_eq_ok_iff.1 hr
  rw [h.dialect] at hfields
  obtain rfl := Except.ok.inj hmapped
  refine ⟨fields, hr, fun g hg => ?_, ?_, ⟨rfl, h.single.enums, rfl, h.single.inner⟩, by simp⟩
  · obtain ⟨f, hf, hresolve⟩ := exists_of_mem_left (mapM_eq_ok_iff.1 hfields).flip g hg
    exact (h.fields f hf).isRos ht hresolve
  · rw [names_resolved hfields]
    exact h.distinct

theorem outermost_of_isParsed (h : ∀ s ∈ files, s.IsParsed) : (SymbolTable.ofFiles files).Outermost :=
  outermost_ofFiles fun s hs => by
    obtain ⟨m, hm⟩ := (h s hs).exists_declared
    exact ⟨m, hm.single⟩

/-- The mapped files of a batch declare outermost messages only, as its files do. -/
theorem outermost_mappedFiles (h : ∀ s ∈ files, s.IsParsed) :
    (SymbolTable.ofFiles (mappedFiles files)).Outermost := by
  refine outermost_ofFiles fun c hc => ?_
  obtain ⟨s, hs, hmapped⟩ := List.mem_filterMap.1 hc
  obtain ⟨m, hm⟩ := (h s hs).exists_declared
  cases hconversion : s.toProto (.ofFiles files) with
  | error e => simp [hconversion, Except.toOption] at hmapped
  | ok mapped =>
    obtain rfl : mapped.schema = c := by simpa [hconversion, Except.toOption] using hmapped
    obtain ⟨fields, -, -, -, hsingle, -⟩ :=
      exists_fields_of_toProto (outermost_of_isParsed h) hm hconversion
    exact ⟨_, hsingle⟩

/-- A parsed file that can be mapped to proto3 is mapped back without a loss, whatever the enum policy
is: its message has the same name and the resolved fields as they come back. If nothing was lost on the
way to proto3 either, it is the resolved message. Whatever file is mapped to proto3, the fields of a
message are numbered from one. -/
theorem toRos_toProto (hparsed : ∀ s ∈ files, s.IsParsed) (hs : s ∈ files) {mapped : Conversion}
    (hmapped : s.toProto (.ofFiles files) = .ok mapped) (repr : EnumRepr) :
    (∃ m fields p back, s.messages = [m] ∧
      s.resolve (.ofFiles files) = .ok { s with messages := [{ m with fields := fields }] } ∧
      mapped.schema.messages = [p] ∧ p.fields.length = fields.length ∧
      mapped.schema.toRos (.ofFiles (mappedFiles files)) repr = .ok back ∧ back.losses = [] ∧
      (∃ out, back.schema.messages = [out] ∧ out.name = m.name ∧
        out.fields = List.zipWith Field.comingBack fields p.fields) ∧
      (mapped.losses = [] → back.schema.messages = [{ m with fields := fields }])) ∧
    ∀ (t : SymbolTable) (s : Schema) (c : Conversion), s.toProto t = .ok c → ∀ p ∈ c.schema.messages,
      p.fields.map (·.ordinal) =
        (List.range' 1 p.fields.length).map fun number => some (UInt32.ofNat number) := by
  refine ⟨?_, fun t s c hc p hp => ?_⟩
  · obtain ⟨m, hm⟩ := (hparsed s hs).exists_declared
    obtain ⟨fields, hr, hfields, hdistinct, hsingle, hlosses⟩ :=
      exists_fields_of_toProto (outermost_of_isParsed hparsed) hm hmapped
    have hback := toRos_toProto_file repr hsingle (outermost_mappedFiles hparsed) hfields hdistinct
    refine ⟨m, fields, _, _, hm.single.messages, hr, hsingle.messages, ?_, hback, rfl,
      ⟨_, rfl, rfl, rfl⟩, fun hnone => ?_⟩
    · exact (mapsTo_toProto { m with fields := fields }).length_eq.symm
    · have hwhole := comingBack_message (m := { m with fields := fields }) hm.single.nested
        hm.single.inner hfields (hlosses.symm.trans hnone)
      rw [hwhole]
  · rw [Schema.toProto] at hc
    obtain ⟨r, hr, hc⟩ := bind_eq_ok_iff.1 hc
    obtain rfl := Except.ok.inj hc
    obtain ⟨m, -, rfl⟩ := List.mem_map.1 hp
    exact ordinals_toProto m

/-! ## A batch with and without losses -/

/-- A vector, and a scan that refers to it and to a message that the batch does not declare. -/
def scanFiles : List Schema :=
  [{ name := "lab/Vector.msg"
     package := ["lab", "units"]
     messages :=
       [{ name := "Vector"
          fields :=
            [{ name := "x", type := .scalar .float64, comments := ["east"] },
             { name := "y", type := .scalar .float64 }] }] },
   { name := "lab/Scan.msg"
     package := ["lab", "units"]
     messages :=
       [{ name := "Scan"
          fields :=
            [{ name := "levels"
               type := .scalar .uint8
               repeated := true
               bounds := [.boundedArray 4] },
             { name := "origin", type := .named "Vector" },
             { name := "pose", type := .named "geometry_msgs/Pose" }]
          constants := [{ name := "LIMIT", type := .int32, value := "5", anchor := some 1 }] }] }]

/-- The vector comes back as it was, and the scan without a further loss. -/
theorem toRos_toProto_scanFiles :
    (∀ s ∈ scanFiles, s.IsParsed) ∧ scanFiles.length = 2 ∧
      ∀ s ∈ scanFiles, ∃ mapped back, s.toProto (.ofFiles scanFiles) = .ok mapped ∧
        mapped.schema.toRos (.ofFiles (mappedFiles scanFiles)) .uint8 = .ok back ∧
        back.losses = [] ∧ back.schema.messages.map (·.name) = s.messages.map (·.name) ∧
        (s.name = "lab/Vector.msg" → mapped.losses = [] ∧ back.schema.messages = s.messages) := by
  have hparsed : ∀ s ∈ scanFiles, s.IsParsed := by
    intro s hs
    simp only [scanFiles, List.mem_cons, List.not_mem_nil, or_false] at hs
    rcases hs with rfl | rfl
    · exact ⟨"float64 x # east\nfloat64 y\n", "lab/Vector.msg", _, ["lab", "units"], rfl, rfl⟩
    · exact ⟨"uint8[<=4] levels\nint32 LIMIT = 5\nVector origin\ngeometry_msgs/Pose pose\n",
        "lab/Scan.msg", _, ["lab", "units"], rfl, rfl⟩
  refine ⟨hparsed, rfl, fun s hs => ?_⟩
  have hmapped : ∃ mapped, s.toProto (.ofFiles scanFiles) = .ok mapped ∧
      (s.name = "lab/Vector.msg" → mapped.losses = [] ∧ s.resolve (.ofFiles scanFiles) = .ok s) := by
    simp only [scanFiles, List.mem_cons, List.not_mem_nil, or_false] at hs
    rcases hs with rfl | rfl
    · exact ⟨_, rfl, fun _ => ⟨rfl, rfl⟩⟩
    · exact ⟨_, rfl, fun h => absurd h (by decide)⟩
  obtain ⟨mapped, hmapped, hvector⟩ := hmapped
  obtain ⟨⟨m, fields, p, back, hm, hr, -, -, hback, hlosses, ⟨out, hout, hname, -⟩, hsame⟩, -⟩ :=
    toRos_toProto hparsed hs hmapped .uint8
  refine ⟨mapped, back, hmapped, hback, hlosses, by rw [hout, hm]; simp [hname], fun h => ?_⟩
  obtain ⟨hnone, hresolved⟩ := hvector h
  have hmessages := congrArg Schema.messages (Except.ok.inj (hresolved.symm.trans hr))
  exact ⟨hnone, (hsame hnone).trans hmessages.symm⟩

end SchemaBridge
