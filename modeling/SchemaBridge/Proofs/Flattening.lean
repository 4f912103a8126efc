import SchemaBridge.Proofs.RosAcceptance

/-!
# What flattening keeps

A file that becomes ROS messages has one of them for each message that it declares, at whatever depth,
in the same order and under the innermost name; the fields keep their names, their order and their
repetition, and a reference to the message `n` becomes one to `n.flat` (`flattensTo_of_schema`). The
checks on the way leave no two messages that are declared and used with one flattened name
(`collisions_eq_none_of_uses`), so the flattened name still tells which message is meant
(`toRos_flattens`).
-/

namespace SchemaBridge

variable {files : List Schema} {t : SymbolTable} {repr : EnumRepr} {s r : Schema} {c : Conversion}
  {m : Message} {ros : RosMessage} {f : Field} {rosType : RosType} {n : TypeName}
  {file message : String}

/-! ## Fields -/

/-- The field `g` stands for `f` once nesting is flattened: it has the name and the repetition of `f`,
and it refers to a message exactly if `f` does, by the flattened name. -/
structure Field.FlattensTo (f g : Field) : Prop where
  name : g.name = f.name
  repeated : g.repeated = f.repeated
  reference : ∀ k, g.type = .message k ↔ ∃ n, f.type = .message n ∧ n.flat = k

theorem flattensTo_withRosType (h : f.rosType t repr file message = .ok rosType) :
    f.FlattensTo (f.withRosType rosType) := by
  refine ⟨rfl, rfl, fun k => ?_⟩
  unfold Field.rosType at h
  split at h
  · next hf =>
    obtain rfl := Except.ok.inj h
    simp [Field.withRosType, hf]
  · next n hf =>
    split at h
    · cases h
    · obtain rfl := Except.ok.inj h
      simp [Field.withRosType, hf]
  · next hf =>
    split at h
    · obtain rfl := Except.ok.inj h
      simp [Field.withRosType, hf]
    · cases h
  · next hf =>
    obtain rfl := Except.ok.inj h
    simp [Field.withRosType, hf]
  · cases h

/-- A field whose message shares its flattened name with another one has no type in ROS. -/
theorem collisions_eq_none_of_rosType (h : f.rosType t repr file message = .ok rosType)
    (hf : f.type = .message n) : t.collisions n = none := by
  simp only [Field.rosType, hf, collisionError?] at h
  cases hcollisions : t.collisions n with
  | none => rfl
  | some candidates => simp [hcollisions] at h

/-! ## Messages -/

/-- The message `out` stands for the message `m` of the full name `n` once nesting is flattened. -/
structure Message.FlattensTo (n : TypeName) (m out : Message) : Prop where
  name : out.name = n.name
  nested : out.nested = []
  enums : out.enums = []
  fields : List.Forall₂ Field.FlattensTo m.fields out.fields

/-- The message `out` has the flattened name of the message `m` of the full name `n`, nothing nested in
it, and fields of the same names and repetition in the same order, whatever they refer to. -/
structure Message.KeptIn (n : TypeName) (m out : Message) : Prop where
  name : out.name = n.name
  nested : out.nested = []
  enums : out.enums = []
  fields : out.fields.map (fun g => (g.name, g.repeated)) = m.fields.map fun f => (f.name, f.repeated)

/-- What a message is made of is kept from before its references were resolved. -/
theorem keptIn_of_flattensTo {dialect : Dialect} {resolved out : Message}
    (hresolves : m.ResolvesTo t dialect file n resolved) (h : resolved.FlattensTo n out) :
    m.KeptIn n out := by
  refine ⟨h.name, h.nested, h.enums, ?_⟩
  refine map_eq_of_forall₂ ((forall₂_trans hresolves.fields h.fields).imp ?_)
  rintro f g ⟨resolved, hresolve, hflattens⟩
  obtain ⟨type, rfl⟩ := exists_type_of_resolve hresolve
  rw [hflattens.name, hflattens.repeated]

/-- What a message that becomes a ROS message is made of. -/
theorem exists_types_of_toRos (h : m.toRos t repr file = .ok ros) :
    ∃ types, m.fields.mapM (Field.rosType t repr file m.name) = .ok types ∧
      ros.message =
        { name := m.name
          fields := (m.fields.zip types).map fun (f, rosType) => f.withRosType rosType
          constants := m.constants ++ (types.filterMap (·.enum)).eraseDups.flatMap fun (_, e) =>
            e.toConstants (e.scalar repr)
          comments := m.comments } ∧
      firstRepeated? (declarations m.fields m.constants (types.filterMap (·.enum)).eraseDups) =
        none := by
  simp only [Message.toRos] at h
  obtain ⟨types, htypes, h⟩ := bind_eq_ok_iff.1 h
  refine ⟨types, htypes, ?_⟩
  split at h
  · cases h
  · next hnone =>
    obtain rfl := Except.ok.inj h
    exact ⟨rfl, hnone⟩

/-- The enum that a field refers to, as the table defines it. -/
def Field.enum? (t : SymbolTable) (f : Field) : Option (TypeName × EnumDef) :=
  match f.type with
  | .enum n => (t.enumDef? n).map fun e => (n, e)
  | _ => none

/-- The enums that the fields of a message refer to, each once, in the order of the fields. -/
def Message.enumsUsed (t : SymbolTable) (m : Message) : List (TypeName × EnumDef) :=
  (m.fields.filterMap (Field.enum? t)).eraseDups

theorem enum_of_rosType (h : f.rosType t repr file message = .ok rosType) : rosType.enum = f.enum? t := by
  unfold Field.rosType at h
  split at h
  · next hf =>
    obtain rfl := Except.ok.inj h
    simp [Field.enum?, hf]
  · next hf =>
    split at h
    · cases h
    · obtain rfl := Except.ok.inj h
      simp [Field.enum?, hf]
  · next hf =>
    split at h
    · next he =>
      obtain rfl := Except.ok.inj h
      simp [Field.enum?, hf, he]
    · cases h
  · next hf =>
    obtain rfl := Except.ok.inj h
    simp [Field.enum?, hf]
  · cases h

theorem enumsUsed_of_types {types : List RosType}
    (h : m.fields.mapM (Field.rosType t repr file message) = .ok types) :
    (types.filterMap (·.enum)).eraseDups = m.enumsUsed t := by
  have henums := map_eq_of_forall₂ ((mapM_eq_ok_iff.1 h).imp fun _ _ hf => enum_of_rosType hf)
  have hall := congrArg (List.filterMap id) henums
  rw [List.filterMap_map, List.filterMap_map] at hall
  rw [Message.enumsUsed]
  exact congrArg List.eraseDups hall

theorem mem_enumsUsed {p : TypeName × EnumDef} :
    p ∈ m.enumsUsed t ↔ ∃ f ∈ m.fields, f.type = .enum p.1 ∧ t.enumDef? p.1 = some p.2 := by
  have hfield : ∀ f : Field, f.enum? t = some p ↔ f.type = .enum p.1 ∧ t.enumDef? p.1 = some p.2 := by
    intro f
    unfold Field.enum?
    split
    · next n hn =>
      simp only [hn, Option.map_eq_some_iff, TypeRef.enum.injEq]
      constructor
      · rintro ⟨e, he, rfl⟩
        exact ⟨rfl, he⟩
      · rintro ⟨rfl, he⟩
        exact ⟨p.2, he, rfl⟩
    · next hn =>
      simp only [reduceCtorEq, false_iff, not_and]
      exact fun htype => absurd htype (hn p.1)
  rw [Message.enumsUsed, List.mem_eraseDups, List.mem_filterMap]
  simp only [hfield]

theorem flattensTo_of_toRos (hname : n.name = m.name) (h : m.toRos t repr file = .ok ros) :
    m.FlattensTo n ros.message := by
  obtain ⟨types, htypes, hros, -⟩ := exists_types_of_toRos h
  rw [hros]
  refine ⟨hname.symm, rfl, rfl, ?_⟩
  exact forall₂_map_zip (mapM_eq_ok_iff.1 htypes) fun _ _ => flattensTo_withRosType

/-- The messages that the fields of a ROS message refer to collide with no other ones. -/
theorem collisions_eq_none_of_toRos (h : m.toRos t repr file = .ok ros) (hf : f ∈ m.fields)
    (htype : f.type = .message n) : t.collisions n = none := by
  obtain ⟨types, htypes, -⟩ := exists_types_of_toRos h
  obtain ⟨rosType, hrosType⟩ := exists_of_mapM_eq_ok htypes f hf
  exact collisions_eq_none_of_rosType hrosType htype

/-! ## Files -/

/-- What a file that becomes ROS messages is made of. -/
theorem exists_mapped_of_toRos (h : s.toRos t repr = .ok c) :
    ∃ r, s.resolve t = .ok r ∧ flattenError? t r.name r.flatten = none ∧
      ∃ mapped, r.flatten.mapM (fun p => p.2.toRos t repr r.name) = .ok mapped ∧
        c.schema =
          { name := r.name
            dialect := .ros
            package := r.package
            messages := mapped.map (·.message) } := by
  rw [Schema.toRos] at h
  obtain ⟨r, hr, h⟩ := bind_eq_ok_iff.1 h
  refine ⟨r, hr, ?_⟩
  simp only at h
  split at h
  · cases h
  · next hnone =>
    obtain ⟨mapped, hmapped, h⟩ := bind_eq_ok_iff.1 h
    obtain rfl := Except.ok.inj h
    exact ⟨hnone, mapped, hmapped, rfl⟩

/-- The table defines every enum that a field of a file refers to, if the file becomes ROS messages. -/
theorem exists_enumDef_of_toRos (h : s.toRos t repr = .ok c) (hr : s.resolve t = .ok r) :
    ∀ p ∈ r.flatten, ∀ f ∈ p.2.fields, ∀ n, f.type = .enum n → ∃ e, (n, e) ∈ p.2.enumsUsed t := by
  intro p hp f hf n hn
  obtain ⟨r', hr', -, mapped, hmapped, -⟩ := exists_mapped_of_toRos h
  obtain rfl := Except.ok.inj (hr'.symm.trans hr)
  obtain ⟨ros, hros⟩ := exists_of_mapM_eq_ok hmapped p hp
  obtain ⟨types, htypes, -⟩ := exists_types_of_toRos hros
  obtain ⟨rosType, hrosType⟩ := exists_of_mapM_eq_ok htypes f hf
  simp only [Field.rosType, hn] at hrosType
  split at hrosType
  · next e he => exact ⟨e, mem_enumsUsed.2 ⟨f, hf, hn, he⟩⟩
  · cases hrosType

/-- Nothing is amiss with the flattened names of a file if they are apart and collide with none of the
batch. -/
theorem of_flattenError?_eq_none (h : flattenError? t file s.flatten = none) :
    s.NamesApart ∧ ∀ p ∈ s.flatten, t.collisions p.1 = none := by
  simp only [flattenError?] at h
  split at h
  · cases h
  · next hrepeated =>
    refine ⟨?_, fun p hp => ?_⟩
    · have hnodup := firstRepeated?_eq_none_iff.1 hrepeated
      simpa [Schema.NamesApart, Function.comp_def] using hnodup
    · have hnone := List.findSome?_eq_none_iff.1 h p hp
      simpa [collisionError?] using hnone

/-- The messages of a resolved file, each beside the one that stands for it. -/
theorem flattensTo_of_schema (hr : s.resolve t = .ok r) (h : s.toRos t repr = .ok c) :
    List.Forall₂ (fun p out => p.2.FlattensTo p.1 out) r.flatten c.schema.messages := by
  obtain ⟨r', hr', -, mapped, hmapped, hschema⟩ := exists_mapped_of_toRos h
  obtain rfl := Except.ok.inj (hr.symm.trans hr')
  rw [hschema, List.forall₂_map_right_iff]
  refine (forall₂_with_mem (mapM_eq_ok_iff.1 hmapped)).imp fun p ros ⟨hp, _, hros⟩ => ?_
  exact flattensTo_of_toRos (r.of_mem_flatten hp).2.2 hros

/-- The messages that a file declares or refers to collide with no other ones if it becomes ROS
messages. -/
theorem collisions_eq_none_of_uses (hr : s.resolve t = .ok r) (h : s.toRos t repr = .ok c)
    (hn : r.Uses n) : t.collisions n = none := by
  obtain ⟨r', hr', hnone, mapped, hmapped, -⟩ := exists_mapped_of_toRos h
  obtain rfl := Except.ok.inj (hr.symm.trans hr')
  -- a declared name is checked with the names of the file, a referred one with its field
  rcases hn with hn | ⟨p, hp, f, hf, htype⟩
  · obtain ⟨p, hp, rfl⟩ := List.mem_map.1 hn
    exact (of_flattenError?_eq_none hnone).2 p hp
  · obtain ⟨ros, hros⟩ := exists_of_mapM_eq_ok hmapped p hp
    exact collisions_eq_none_of_toRos hros hf htype

/-- No two messages of the ROS file have one name. -/
theorem nodup_flatNames (hr : s.resolve t = .ok r) (h : s.toRos t repr = .ok c) :
    (c.schema.messages.map (·.name)).Nodup := by
  obtain ⟨r', hr', hnone, -⟩ := exists_mapped_of_toRos h
  obtain rfl := Except.ok.inj (hr.symm.trans hr')
  rw [map_eq_of_forall₂ ((flattensTo_of_schema hr h).imp fun _ _ hout => hout.name)]
  exact (of_flattenError?_eq_none hnone).1

/-- The ROS file has exactly one message of the flattened name of a message that the file declares, and
it is made of that message. -/
theorem exists_translation (hr : s.resolve t = .ok r) (h : s.toRos t repr = .ok c)
    {p : TypeName × Message} (hp : p ∈ r.flatten) :
    ∃ ros, p.2.toRos t repr r.name = .ok ros ∧
      c.schema.messages.filter (·.name = p.1.name) = [ros.message] ∧
      p.1.flat = ⟨c.schema.package, [ros.message.name]⟩ := by
  have hnodup := nodup_flatNames hr h
  obtain ⟨r', hr', -, mapped, hmapped, hschema⟩ := exists_mapped_of_toRos h
  obtain rfl := Except.ok.inj (hr.symm.trans hr')
  obtain ⟨ros, hmem, hros⟩ := exists_of_mem_left (mapM_eq_ok_iff.1 hmapped) p hp
  obtain ⟨hpackage, -, hname⟩ := r.of_mem_flatten hp
  have hrosName : ros.message.name = p.1.name := (flattensTo_of_toRos hname hros).name
  refine ⟨ros, hros, ?_, ?_⟩
  · rw [← hrosName]
    refine filter_key hnodup ?_
    rw [hschema]
    exact List.mem_map_of_mem hmem
  · rw [TypeName.flat, hrosName, hpackage, hschema]

/-- The batch declares a message that its table knows. -/
theorem declares_of_meant (h : TypeRef.Meant (.ofFiles files) (.message n)) : Declares files n := by
  obtain ⟨symbol, hnamed, hkind, hname⟩ := exists_symbol_of_meant h
  have hmem := (SymbolTable.mem_named.1 (hnamed ▸ List.mem_singleton_self symbol)).1
  exact exists_symbol_iff_declares.1 ⟨symbol, hmem, hkind, hname⟩

/-- If a proto3 file refers by spelled names only, the batch declares the messages that it refers to. -/
theorem declares_of_mentions (hdialect : s.dialect = .proto3) (hraw : s.Unresolved)
    (hr : s.resolve (.ofFiles files) = .ok r) (hn : r.Mentions n) : Declares files n := by
  obtain ⟨p, hp, f, hf, htype⟩ := hn
  exact declares_of_meant (htype ▸ meant_of_resolve hdialect hraw hr p hp f hf)

/-- A file that becomes ROS messages has one of them for each message that it declares, in the same
order, with the same fields. A reference stays one to the same message, by the flattened name: what the
file declares or refers to shares it with no message of any file, as long as the batch declares both or
both are outermost ones, and the batch declares all messages that a file without resolved types refers
to. The ROS message of a flattened name is unique in its file and made of the message that had the
name. -/
theorem toRos_flattens (hbatch : ProtoBatch files) (hs : s ∈ files)
    (h : s.toRos (.ofFiles files) repr = .ok c) :
    ∃ r, s.resolve (.ofFiles files) = .ok r ∧
      (List.Forall₂ (fun p out => p.2.KeptIn p.1 out) s.flatten c.schema.messages ∧
        (c.schema.messages.map (·.name)).Nodup ∧ c.schema.enums = []) ∧
      List.Forall₂ (fun p out => p.2.FlattensTo p.1 out) r.flatten c.schema.messages ∧
      (s.Unresolved → ∀ n, r.Mentions n → Declares files n) ∧
      (∀ n n', r.Uses n → (Declares files n ∧ Declares files n') ∨ (n.flat = n ∧ n'.flat = n') →
        (n.flat = n'.flat ↔ n = n')) ∧
      ∀ p ∈ r.flatten, ∃ ros, p.2.toRos (.ofFiles files) repr r.name = .ok ros ∧
        c.schema.messages.filter (·.name = p.1.name) = [ros.message] ∧
        p.1.flat = ⟨c.schema.package, [ros.message.name]⟩ := by
  obtain ⟨r, hr, -, mapped, -, hschema⟩ := exists_mapped_of_toRos h
  have hflattens := flattensTo_of_schema hr h
  refine ⟨r, hr, ⟨?_, nodup_flatNames hr h, by rw [hschema]⟩, hflattens, ?_, ?_, ?_⟩
  · refine (forall₂_trans (Schema.flatten_resolve hr) hflattens).imp ?_
    rintro p out ⟨q, ⟨hname, hresolves⟩, hout⟩
    exact keptIn_of_flattensTo hresolves (hname ▸ hout)
  · exact fun hraw n hn => declares_of_mentions (hbatch.dialect s hs) hraw hr hn
  · intro n n' hn hknown
    -- the table knows nothing of undeclared messages: only their being flat tells them apart
    rcases hknown with ⟨hdeclares, hdeclares'⟩ | ⟨hflat, hflat'⟩
    · have hnone := collisions_eq_none_of_uses hr h hn
      rw [collisions_eq_none_iff_unshared hbatch.dotFree hdeclares] at hnone
      exact flat_eq_iff_of_unshared hbatch.dotFree hdeclares hdeclares' hnone
    · rw [hflat, hflat']
  · exact fun p hp => exists_translation hr h hp

/-! ## A nested message and references to it -/

/-- A file that refers to a message of another file and to one nested in it. -/
def cellFile : Schema :=
  robotFile "cell.proto"
    { name := "Cell"
      fields :=
        [{ name := "arm", type := .named "Arm" },
         { name := "spares", type := .named "Arm.Joint", repeated := true }] }

/-- A batch of a file with a nested message and one that refers to it. -/
def cellFiles : List Schema := [armFile, cellFile]

/-- The nested message of the batch becomes an outermost one, and its flattened name means no other
one. -/
theorem toRos_cellFiles :
    ProtoBatch cellFiles ∧ armFile ∈ cellFiles ∧
      ∃ c, armFile.toRos (.ofFiles cellFiles) .auto = .ok c ∧
        c.schema.messages.map (·.name) = ["Arm", "Joint"] ∧
        ∀ n, Declares cellFiles n →
          (⟨["robot"], ["Joint"]⟩ = n.flat ↔ ⟨["robot"], ["Arm", "Joint"]⟩ = n) := by
  have hbatch : ProtoBatch cellFiles := ⟨by decide, by decide⟩
  have hmem : armFile ∈ cellFiles := by simp [cellFiles]
  have hok : (armFile.toRos (.ofFiles cellFiles) .auto).isOk = true := by decide +kernel
  cases hc : armFile.toRos (.ofFiles cellFiles) .auto with
  | error e => simp [hc, Except.isOk, Except.toBool] at hok
  | ok c =>
    obtain ⟨r, hr, ⟨hkept, -⟩, -, -, hidentity, -⟩ := toRos_flattens hbatch hmem hc
    have hjoint : ⟨["robot"], ["Arm", "Joint"]⟩ ∈ armFile.flatten.map (·.1) := by decide
    refine ⟨hbatch, hmem, c, rfl, map_eq_of_forall₂ (hkept.imp fun _ _ hout => hout.name), ?_⟩
    intro n hn
    refine hidentity _ n (.inl ?_) (.inl ⟨declares_of_mem_flatten hmem hjoint, hn⟩)
    rwa [Schema.names_resolve hr]

/-- A file whose references are resolved to messages that no file of its batch declares. -/
def trustingFile : Schema :=
  robotFile "cart.proto"
    { name := "Cart"
      fields :=
        [{ name := "front", type := .message ⟨["robot"], ["Front", "Wheel"]⟩ },
         { name := "rear", type := .message ⟨["robot"], ["Rear", "Wheel"]⟩ }] }

/-- References to two messages that the batch does not declare become references to one: such
references are trusted, and no collision is found among them. -/
theorem toRos_trustingFile :
    ProtoBatch [trustingFile] ∧
      ∃ r c, trustingFile.resolve (.ofFiles [trustingFile]) = .ok r ∧
        trustingFile.toRos (.ofFiles [trustingFile]) .auto = .ok c ∧
        ∃ front rear : TypeName, front.DotFree ∧ rear.DotFree ∧ r.Mentions front ∧
          r.Mentions rear ∧ front ≠ rear ∧ front.flat = rear.flat ∧
          c.schema.messages.flatMap (·.fields.map (·.type)) =
            [.message front.flat, .message rear.flat] := by
  refine ⟨⟨by decide, by decide⟩, _, _, rfl, rfl, ⟨["robot"], ["Front", "Wheel"]⟩,
    ⟨["robot"], ["Rear", "Wheel"]⟩, by decide, by decide, ?_, ?_, by decide, by decide, rfl⟩
  · exact ⟨_, .head _, _, .head _, rfl⟩
  · exact ⟨_, .head _, _, .tail _ (.head _), rfl⟩

end SchemaBridge
