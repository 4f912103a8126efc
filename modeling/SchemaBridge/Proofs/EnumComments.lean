import SchemaBridge.Proofs.DescriptorNotes
import SchemaBridge.Proofs.PluginRun

/-!
# Comments of enums in generated messages

A generated message ends in the constants of the enums that its fields refer to, and the comments above
them are those of the table's definitions (`writtenWith_of_toRos`). The table of a plugin is made of
skeletons, whose enums have none. So the constants of an enum stand there under its name and nothing
else, while the table of the files themselves has the comments for them (`rosMessages_groups`).
-/

namespace SchemaBridge

open Text

/-! ## Groups of constants -/

/-- The lines of the constants of an enum: above each of them the comments of its value, and above the
first one the name and the comments of the enum too. -/
def EnumDef.groupLines (repr : EnumRepr) (e : EnumDef) : List String :=
  (e.toConstants (e.scalar repr)).flatMap RosText.constantLines

/-- The lines of the constants of an enum with its name above the first one, and no other comments. -/
def EnumDef.namedLines (repr : EnumRepr) (e : EnumDef) : List String :=
  (if e.values.isEmpty then [] else ["", commentLine "#" e.name]) ++
    e.values.map fun v => RosText.constantText (EnumDef.constant (e.scalar repr) v)

variable {t : SymbolTable} {repr : EnumRepr} {s r : Schema} {c : Conversion} {m : Message}
  {ros : RosMessage} {e : EnumDef} {file : String} {package : List String}

/-- The comments of a definition stand above its constants, in their places. -/
theorem constantLines_toConstants (name : String) (v : EnumValue) (values : List EnumValue)
    (comments : List String) (type : Scalar) :
    (EnumDef.toConstants ⟨name, v :: values, comments⟩ type).flatMap RosText.constantLines =
      ("" :: RosText.commentLines (name :: comments ++ v.comments)) ++
        [RosText.constantText (EnumDef.constant type v)] ++
        values.flatMap fun v => RosText.constantLines (EnumDef.constant type v) := by
  simp only [EnumDef.toConstants, List.map_cons, List.flatMap_cons, List.flatMap_map]
  rfl

/-- Without comments in the definition there are none above the constants. -/
theorem groupLines_bare (e : EnumDef) : e.bare.groupLines repr = e.namedLines repr := by
  rw [EnumDef.groupLines, e.scalar_bare, EnumDef.namedLines]
  obtain ⟨name, values, comments⟩ := e
  generalize EnumDef.scalar ⟨name, values, comments⟩ repr = type
  cases values with
  | nil => rfl
  | cons v values =>
    rw [EnumDef.bare, List.map_cons, constantLines_toConstants, List.flatMap_map, List.map_cons,
      List.map_eq_flatMap]
    rfl

/-! ## Generated messages -/

/-- The text is that of a message with the name and the comments of `m`, fields of the same names and no
constants, and after it the lines `groups`. -/
def Message.WrittenWith (package : List String) (groups : List String) (m : Message) (text : String) :
    Prop :=
  ∃ fields, fields.map (fun f : Field => f.name) = m.fields.map (·.name) ∧
    text =
      unlines (RosText.messageLines package { name := m.name, fields, comments := m.comments } ++ groups)

theorem writtenWith_of_message_toRos (hconstants : m.constants = [])
    (h : m.toRos t repr file = .ok ros) :
    m.WrittenWith package ((m.enumsUsed t).flatMap fun p => p.2.groupLines repr)
      (RosText.render package ros.message) := by
  obtain ⟨types, htypes, hros, -⟩ := exists_types_of_toRos h
  refine ⟨(m.fields.zip types).map fun p => p.1.withRosType p.2, ?_, ?_⟩
  · exact map_eq_of_forall₂ (forall₂_map_zip (mapM_eq_ok_iff.1 htypes) fun f rosType _ => rfl)
  · rw [RosText.render, hros, hconstants, enumsUsed_of_types htypes]
    simp only [RosText.messageLines, List.nil_append, List.flatMap_nil, List.append_nil,
      List.flatMap_assoc, EnumDef.groupLines]

/-- Every generated message ends in the constants of the enums that its fields refer to, as the table
defines them. -/
theorem writtenWith_of_toRos (hs : s.Noted) (h : s.toRos t repr = .ok c) :
    ∃ r, s.resolve t = .ok r ∧ c.schema.package = r.package ∧
      List.Forall₂ (fun p out => out.name = p.2.name ∧
        p.2.WrittenWith r.package ((p.2.enumsUsed t).flatMap fun q => q.2.groupLines repr)
          (RosText.render r.package out)) r.flatten c.schema.messages := by
  obtain ⟨r, hr, -, mapped, hmapped, hschema⟩ := exists_mapped_of_toRos h
  refine ⟨r, hr, by rw [hschema], ?_⟩
  rw [hschema, List.forall₂_map_right_iff]
  refine (forall₂_with_mem (mapM_eq_ok_iff.1 hmapped)).imp ?_
  rintro p ros ⟨hp, -, hros⟩
  obtain ⟨types, -, hmessage, -⟩ := exists_types_of_toRos hros
  exact ⟨by rw [hmessage], writtenWith_of_message_toRos (hs.resolve hr p hp).1 hros⟩

/-! ## The table of a plugin -/

theorem EnumDescriptor.bare_skeleton (d : EnumDescriptor) : d.skeleton.bare = d.skeleton := by
  simp [skeleton, EnumDef.bare, EnumValueDescriptor.value]

mutual

theorem MessageDescriptor.signature_skeleton : ∀ d : MessageDescriptor,
    d.skeleton.signature = d.skeleton
  | ⟨name, _, nested, enums, _, _, _, _⟩ => by
    simp only [skeleton, Message.signature, signatures_skeletons nested, List.map_nil, List.map_map,
      Function.comp_def, EnumDescriptor.bare_skeleton]

theorem MessageDescriptor.signatures_skeletons : ∀ ds : List MessageDescriptor,
    Message.signatures (skeletons ds) = skeletons ds
  | [] => rfl
  | d :: ds => by
    rw [skeletons, Message.signatures, signature_skeleton d, signatures_skeletons ds]

end

/-- A skeleton is its own signature. -/
theorem FileDescriptor.signature_skeleton (d : FileDescriptor) : d.skeleton.signature = d.skeleton := by
  simp only [skeleton, Schema.signature, ← Message.signatures_eq_map,
    MessageDescriptor.signatures_skeletons, List.map_map, Function.comp_def,
    EnumDescriptor.bare_skeleton]

namespace Plugin

variable {request : Request} {options : Options} {f : FileDescriptor} {files : List OutputFile}
  {n : TypeName}

/-- The table of a plugin has no comments. -/
theorem bare_context (request : Request) (options : Options) :
    (request.context options).symbols.bare = (request.context options).symbols := by
  rw [Request.context, ← SymbolTable.ofFiles_signature, List.map_map]
  exact congrArg SymbolTable.ofFiles (List.map_congr_left fun d _ => d.signature_skeleton)

/-- No definition in the table of a plugin has comments. -/
theorem bare_of_enumDef? (h : (request.context options).symbols.enumDef? n = some e) : e.bare = e := by
  have hbare := (request.context options).symbols.enumDef?_bare n
  rw [bare_context, h] at hbare
  exact (Option.some.inj hbare).symm

/-- The definition of an enum in the table of a plugin is that of the file that declares it, without the
comments. -/
theorem eq_bare_of_enumDef? {d : FileDescriptor} {declaring : Schema} {definition : EnumDef}
    (hd : d ∈ request.files) (hdeclaring : d.toSchema = .ok declaring)
    (he : (n, e) ∈ declaring.namedEnums)
    (h : (request.context options).symbols.enumDef? n = some definition) : definition = e.bare := by
  have hskeleton : (n, e.bare) ∈ d.skeleton.namedEnums := by
    rw [(FileDescriptor.mirrors_of_toSchema hdeclaring).namedEnums_skeleton]
    exact List.mem_map_of_mem he
  have hsymbol : (⟨n, d.skeleton.name, .enum e.bare⟩ : Symbol) ∈
      (request.context options).symbols.named n.qualified := by
    refine SymbolTable.mem_named.2 ⟨?_, rfl⟩
    rw [Request.context, SymbolTable.ofFiles_eq]
    exact List.mem_flatMap.2 ⟨d.skeleton, List.mem_map_of_mem hd,
      List.mem_append_left _ (List.mem_map_of_mem hskeleton)⟩
  unfold SymbolTable.enumDef? at h
  split at h
  · next symbol hnamed =>
    obtain rfl := List.mem_singleton.1 (hnamed ▸ hsymbol)
    exact (Option.some.inj h).symm
  · cases h

theorem flatMap_groupLines_context (m : Message) :
    (m.enumsUsed (request.context options).symbols).flatMap (fun q => q.2.groupLines repr) =
      (m.enumsUsed (request.context options).symbols).flatMap fun q => q.2.namedLines repr := by
  refine List.flatMap_congr fun q hq => ?_
  obtain ⟨g, -, -, hdef⟩ := mem_enumsUsed.1 hq
  rw [← groupLines_bare, bare_of_enumDef? hdef]

theorem noted_of_toSchema (h : f.toSchema = .ok s) : s.Noted := by
  have hsame := toSchema_locations f f.locations
  rw [show ({ f with locations := f.locations } : FileDescriptor) = f from rfl, h] at hsame
  cases hsame with
  | ok h => exact h.2.1

/-- The files of a request that can all be converted make up a table with the comments of enums, and with
it the generated messages have those above their constants. -/
theorem writtenWith_schemas {schemas : List Schema} (hs : s.Noted)
    (hc : s.toRos (request.context options).symbols repr = .ok c)
    (hr : s.resolve (request.context options).symbols = .ok r)
    (h : request.files.mapM FileDescriptor.toSchema = .ok schemas) :
    ∃ c', s.toRos (.ofFiles schemas) repr = .ok c' ∧
      List.Forall₂ (fun p out => out.name = p.2.name ∧
        p.2.WrittenWith r.package
          ((p.2.enumsUsed (.ofFiles schemas)).flatMap fun q => q.2.groupLines repr)
          (RosText.render r.package out)) r.flatten c'.schema.messages := by
  have htable : (request.context options).symbols = (SymbolTable.ofFiles schemas).bare :=
    ofFiles_skeletons h
  have hsame : ResultRel Eq Conversion.SameButConstantComments (s.toRos (.ofFiles schemas) repr)
      (s.toRos (SymbolTable.ofFiles schemas).bare repr) := s.toRos_bare
  rw [← htable, hc] at hsame
  generalize hc' : s.toRos (.ofFiles schemas) repr = result at hsame
  cases hsame with
  | @ok c' _ _ =>
    refine ⟨c', rfl, ?_⟩
    obtain ⟨r', hr', -, houts⟩ := writtenWith_of_toRos hs hc'
    rw [htable, SymbolTable.resolve_bare, hr'] at hr
    obtain rfl := Except.ok.inj hr
    exact houts

/-- In the messages that a plugin generates, the constants of an enum stand under the name of the enum and
no other comments, although the enum may have comments in the file that declares it. It is the table that
loses them: with the table of the files themselves, the comments stand above the constants. -/
theorem rosMessages_groups (h : rosMessages (request.context options) f = .ok files) :
    ∃ s r, f.toSchema = .ok s ∧ s.resolve (request.context options).symbols = .ok r ∧
      List.Forall₂ (fun p file => file.name = rosFileName r.package p.2.name ∧
        p.2.WrittenWith r.package
          ((p.2.enumsUsed (request.context options).symbols).flatMap fun q =>
            q.2.namedLines options.enumRepr) file.content) r.flatten files ∧
      (∀ p ∈ r.flatten, ∀ g ∈ p.2.fields, ∀ n, g.type = .enum n →
        ∀ d ∈ request.files, ∀ declaring, d.toSchema = .ok declaring →
          ∀ e, (n, e) ∈ declaring.namedEnums →
            (n, e.bare) ∈ p.2.enumsUsed (request.context options).symbols) ∧
      ∀ schemas, request.files.mapM FileDescriptor.toSchema = .ok schemas →
        ∃ c, s.toRos (.ofFiles schemas) options.enumRepr = .ok c ∧
          List.Forall₂ (fun p out => out.name = p.2.name ∧
            p.2.WrittenWith r.package
              ((p.2.enumsUsed (.ofFiles schemas)).flatMap fun q => q.2.groupLines options.enumRepr)
              (RosText.render r.package out)) r.flatten c.schema.messages := by
  obtain ⟨s, hs, h⟩ := bind_eq_ok_iff.1 h
  obtain ⟨c, hc, h⟩ := bind_eq_ok_iff.1 h
  obtain rfl := Except.ok.inj h
  have hnoted := noted_of_toSchema hs
  obtain ⟨r, hr, hpackage, houts⟩ := writtenWith_of_toRos hnoted hc
  refine ⟨s, r, hs, hr, ?_, ?_, fun schemas hschemas => writtenWith_schemas hnoted hc hr hschemas⟩
  · rw [hpackage]
    refine List.forall₂_map_right_iff.2 (houts.imp fun p out hout => ⟨?_, ?_⟩)
    · rw [msgFile, hout.1]
    · rw [← flatMap_groupLines_context]
      exact hout.2
  · intro p hp g hg n hn d hd declaring hdeclaring e he
    obtain ⟨definition, hdefinition⟩ := exists_enumDef_of_toRos hc hr p hp g hg n hn
    obtain ⟨-, -, -, hdef⟩ := mem_enumsUsed.1 hdefinition
    obtain rfl : definition = e.bare := eq_bare_of_enumDef? hd hdeclaring he hdef
    exact hdefinition

/-! ## A message with a commented enum -/

/-- The comment on the value `ON` is in the schema of the file but not in the generated message. -/
theorem rosMessages_groups_lampFile :
    let request : Request := { filesToGenerate := ["lamp.proto"], files := [lampFile] }
    ∃ files s r, rosMessages (request.context {}) lampFile = .ok files ∧
      lampFile.toSchema = .ok s ∧ s.resolve (request.context {}).symbols = .ok r ∧
      files.map (·.content) =
        ["# This file was generated. DO NOT EDIT!\n\n# Lamp\n# Mode\nuint8 mode\n\n# Mode\n" ++
          "uint8 OFF=0\nuint8 ON=1\n"] ∧
      (s.namedEnums.flatMap fun p => p.2.values.flatMap (·.comments)) = ["burning"] := by
  intro request
  have htexts : (rosMessages (request.context {}) lampFile).map (List.map (·.content)) =
      .ok ["# This file was generated. DO NOT EDIT!\n\n# Lamp\n# Mode\nuint8 mode\n\n# Mode\n" ++
        "uint8 OFF=0\nuint8 ON=1\n"] := by decide +kernel
  have hcomments : lampFile.toSchema.map
      (fun s => s.namedEnums.flatMap fun p => p.2.values.flatMap (·.comments)) = .ok ["burning"] := by
    decide +kernel
  obtain ⟨files, hfiles, htexts⟩ := map_eq_ok_iff.1 htexts
  obtain ⟨s, r, hs, hr, -, -, -⟩ := rosMessages_groups hfiles
  rw [hs] at hcomments
  exact ⟨files, s, r, hfiles, hs, hr, htexts, Except.ok.inj hcomments⟩

end Plugin

end SchemaBridge
