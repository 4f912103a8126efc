import SchemaBridge.Proofs.FileNaming
import SchemaBridge.Proofs.ReferenceRoundTrip
import SchemaBridge.Proofs.Resolution

/-!
# A file of one message, step by step

What becomes of a file that declares one message (`Schema.Single`) on its way to proto3 and back:
its references are resolved field by field (`Schema.Single.resolve_eq_ok_iff`), its descriptor is read
again (`ofDescriptor_single`), the decoded file becomes a ROS message (`exists_toRos`), and that message
is written and parsed (`parse_rosFile`). A field keeps its name and whether it is repeated on the way
(`Field.Follows`), while its type changes from step to step.
-/

namespace SchemaBridge

open RosText

/-! ## References of a file -/

variable {t : SymbolTable} {s r c d : Schema} {m : Message} {names : List TypeName}
  {package : List String} {name : String} {fields : List Field} {conversion : Conversion}

/-- The references of a file are those of the fields of its message. -/
theorem Schema.Single.resolve_eq_ok_iff (h : s.Single m) :
    s.resolve t = .ok r ↔
      ∃ fields, m.fields.mapM (Field.resolve t s.dialect s.name ⟨s.package, [m.name]⟩) = .ok fields ∧
        r = { s with messages := [{ m with fields := fields }] } := by
  obtain ⟨name, fields, nested, enums, constants, comments⟩ := m
  obtain rfl : nested = [] := h.nested
  have hscope : (TypeName.root s.package).child name = ⟨s.package, [name]⟩ := rfl
  simp only [Schema.resolve, h.messages, Message.resolveAll, Message.resolve, hscope]
  cases fields.mapM (Field.resolve t s.dialect s.name ⟨s.package, [name]⟩) with
  | error e => simp [bind, Except.bind]
  | ok resolved => simp [bind, Except.bind, pure, Except.pure, eq_comm]

/-- A file is a file of one message still once its fields are resolved. -/
theorem Schema.Single.with_fields (h : s.Single m) (fields : List Field) :
    Schema.Single { s with messages := [{ m with fields := fields }] } { m with fields := fields } where
  messages := rfl
  enums := h.enums
  nested := h.nested
  inner := h.inner

/-! ## Fields on their way -/

/-- A field of a file of package `package` whose type is known and can be spelled there. -/
structure Field.Known (names : List TypeName) (package : List String) (f : Field) : Prop where
  name : IsIdentifier f.name.toList
  type : Spellable package f.type
  declared : ∀ n, f.type = .message n → n ∈ names

/-- The messages that a field refers to are declared once. -/
def Field.RefersOnce (names : List TypeName) (f : Field) : Prop :=
  ∀ n, f.type = .message n → names.count n = 1

/-- The field `g` has the name of `f`, is repeated if `f` is, and has the type `type`. -/
structure Field.Follows (type : TypeRef) (f g : Field) : Prop where
  name : g.name = f.name
  repeated : g.repeated = f.repeated
  type : g.type = type
  comments : ∀ text ∈ g.comments, '\n' ∉ text.toList

/-! ## Through the descriptor -/

/-- The descriptor of a file of one message is read again. -/
theorem ofDescriptor_single (h : c.Single m) (hlen : c.toDescriptor.length < UInt64.size) :
    ∃ (comments : List String) (lines : Nat → List String),
      Schema.ofDescriptor c.toDescriptor =
        .ok
          { name := c.name
            dialect := .proto3
            package := c.package.flatMap packageSegments
            imports := c.imports
            messages :=
              [{ name := m.name
                 fields := m.fields.mapIdx fun i f => { f.normalForm i with comments := lines i }
                 comments }] } ∧
      (∀ text ∈ comments, '\n' ∉ text.toList) ∧ ∀ i, ∀ text ∈ lines i, '\n' ∉ text.toList := by
  obtain ⟨name, fields, nested, enums, constants, comments⟩ := m
  obtain rfl : nested = [] := h.nested
  obtain rfl : enums = [] := h.inner
  have hdepth : Message.depths c.messages ≤ Descriptor.nestingBudget := by
    simp only [h.messages, Message.depths, Message.depth, Descriptor.nestingBudget]
    split <;> simp
  obtain ⟨locations, hlocations⟩ : ∃ l, (FileDescriptor.ofSchema c).locations.getD [] = l :=
    ⟨_, rfl⟩
  have hfields := toFields_descriptor c.name name locations (childPath [] .fileMessage 0) fields
  have hmessages : ∃ (comments : List String) (lines : Nat → List String),
      MessageDescriptor.toMessages c.name locations [] .fileMessage 0
          (Message.descriptors c.messages) =
        .ok
          [{ name
             fields := fields.mapIdx fun i f => { f.normalForm i with comments := lines i }
             comments }] ∧
      (∀ text ∈ comments, '\n' ∉ text.toList) ∧ ∀ i, ∀ text ∈ lines i, '\n' ∉ text.toList := by
    refine ⟨commentsAt locations (childPath [] .fileMessage 0),
      fun i => commentsAt locations (childPath (childPath [] .fileMessage 0) .messageField i), ?_,
      fun _ h => newline_not_mem_commentsAt h, fun _ _ h => newline_not_mem_commentsAt h⟩
    rw [h.messages, Message.descriptors, Message.descriptors, Message.descriptor,
      MessageDescriptor.toMessages, MessageDescriptor.toMessages, MessageDescriptor.toMessage]
    simp only [MessageDescriptor.unsupported?, unsupportedOption?, Option.getD_some, hfields]
    rfl
  obtain ⟨comments, lines, hmessages, hcomments, hlines⟩ := hmessages
  refine ⟨comments, lines, ?_, hcomments, hlines⟩
  have hsupported : (FileDescriptor.ofSchema c).unsupported? = none := rfl
  rw [ofDescriptor_eq hdepth hlen, FileDescriptor.toSchema, hlocations, hsupported,
    packageSegments_ofSchema]
  simp only [FileDescriptor.ofSchema, Option.getD_some, h.enums, hmessages]
  rfl

/-- A decoded file of one message, whose fields are those of `fields` as proto3 spells them. -/
structure Decoded (package : List String) (name : String) (fields : List Field) (d : Schema)
    (m : Message) : Prop where
  single : d.Single m
  dialect : d.dialect = .proto3
  package : d.package = package
  name : m.name = name
  fields : List.Forall₂ (fun f g => Field.Follows f.type.toProto.normalForm f g) fields m.fields
  constants : m.constants = []
  comments : ∀ text ∈ m.comments, '\n' ∉ text.toList

theorem exists_decoded (h : s.Single m) (hsegments : ∀ p ∈ s.package, IsSegment p)
    (hfields : m.fields.mapM (Field.resolve t s.dialect s.name ⟨s.package, [m.name]⟩) = .ok fields)
    (hconversion : s.toProto t = .ok conversion)
    (hlen : conversion.schema.toDescriptor.length < UInt64.size) :
    ∃ d m', Schema.ofDescriptor conversion.schema.toDescriptor = .ok d ∧
      Decoded s.package m.name fields d m' := by
  have hresolve := h.resolve_eq_ok_iff.2 ⟨fields, hfields, rfl⟩
  rw [Schema.toProto, hresolve] at hconversion
  have heq := Except.ok.inj hconversion
  have hc : conversion.schema.Single (Message.toProto { m with fields := fields }) := by
    rw [← heq]
    exact ⟨rfl, h.enums, rfl, h.inner⟩
  have hpackage : conversion.schema.package = s.package := by rw [← heq]
  obtain ⟨comments, lines, hd, hcomments, hlines⟩ := ofDescriptor_single hc hlen
  rw [hpackage, flatMap_packageSegments hsegments] at hd
  refine ⟨_, _, hd, ⟨rfl, rfl, rfl, rfl⟩, rfl, rfl, rfl, ?_, rfl, hcomments⟩
  simp only [Message.toProto, List.mapIdx_mapIdx]
  exact forall₂_mapIdx fun i f _ => ⟨rfl, rfl, rfl, hlines i⟩

/-! ## To ROS -/

/-- A message whose fields are those of `fields` with the types that come back. -/
structure Returned (name : String) (fields : List Field) (m : Message) : Prop where
  name : m.name = name
  fields : List.Forall₂ (fun f g => Field.Follows f.type.returned f g) fields m.fields
  constants : m.constants = []
  comments : ∀ text ∈ m.comments, '\n' ∉ text.toList

/-- A message of a decoded file, its types being known, becomes a ROS message. -/
theorem exists_message_toRos (repr : EnumRepr) (file : String) {resolved : List Field}
    (ht : t.Lists names) (hknown : ∀ f ∈ fields, f.Known names package)
    (hdistinct : (fields.map (·.name)).Nodup)
    (hfields : List.Forall₂ (fun f g => Field.Follows f.type.toProto f g) fields resolved)
    (hm : m.constants = []) (hcomments : ∀ text ∈ m.comments, '\n' ∉ text.toList) :
    ∃ ros, Message.toRos t repr file { m with fields := resolved } = .ok ros ∧
      Returned m.name fields ros.message := by
  have hstep : List.Forall₂ (fun f g => f.Known names package ∧ Field.Follows f.type.toProto f g)
      fields resolved := (List.forall₂_and_left fields resolved).2 ⟨hknown, hfields⟩
  have htypes : ∃ types, resolved.mapM (Field.rosType t repr file m.name) = .ok types ∧
      List.Forall₂ (fun f type => type.type = f.type.returned ∧ type.enum = none) fields types := by
    refine exists_mapM_eq_ok hstep fun f g ⟨hf, hg⟩ => ?_
    exact ⟨_, rosType_toProto repr ht.outermost hf.type.isRos hg.type, rfl, rfl⟩
  obtain ⟨types, htypes, hall⟩ := htypes
  have henums : types.filterMap (·.enum) = [] := by
    refine List.filterMap_eq_nil_iff.2 fun type htype => ?_
    obtain ⟨f, -, hf⟩ := exists_of_mem_left hall.flip type htype
    exact hf.2
  have hnames : resolved.map (·.name) = fields.map (·.name) :=
    map_eq_of_forall₂ (hfields.imp fun _ _ h => h.name)
  have hrepeated : firstRepeated? (declarations resolved m.constants []) = none := by
    refine firstRepeated?_eq_none_iff.2 ?_
    simpa [declarations, hm, Function.comp_def, hnames] using hdistinct
  simp only [Message.toRos, htypes, bind, Except.bind, henums, List.eraseDups_nil, hrepeated]
  refine ⟨_, rfl, rfl, ?_, by simpa using hm, hcomments⟩
  refine List.forall₂_map_right_iff.2 ((forall₂_zip_right hfields hall).imp fun f p hp => ?_)
  obtain ⟨hfollows, htype, henum⟩ := hp
  refine ⟨hfollows.name, hfollows.repeated, htype, ?_⟩
  simpa [Field.withRosType, henum] using hfollows.comments

/-- The flattened name of an outermost message clashes with none. -/
theorem flattenError?_single {file : String} (ht : t.Outermost) :
    flattenError? t file [(⟨package, [name]⟩, m)] = none := by
  have hfirst : firstRepeated? [(TypeName.name ⟨package, [name]⟩,
      TypeName.qualified ⟨package, [name]⟩)] = none := firstRepeated?_eq_none_iff.2 (by simp)
  have hflat : TypeName.flat ⟨package, [name]⟩ = ⟨package, [name]⟩ := rfl
  simp [flattenError?, hfirst, collisionError?, ht.collisions_eq_none hflat]

/-- A decoded file becomes a ROS message, if the messages that it refers to are declared once. -/
theorem exists_toRos (repr : EnumRepr) (hd : Decoded package name fields d m) (ht : t.Lists names)
    (hplain : TypeName.IsPlain ⟨package, [name]⟩) (hknown : ∀ f ∈ fields, f.Known names package)
    (hdistinct : (fields.map (·.name)).Nodup) (honce : ∀ f ∈ fields, f.RefersOnce names) :
    ∃ conversion ros, d.toRos t repr = .ok conversion ∧ conversion.schema.package = package ∧
      conversion.schema.messages = [ros] ∧ Returned name fields ros := by
  obtain ⟨hsingle, hdialect, rfl, rfl, hfields, hconstants, hcomments⟩ := hd
  have hstep : List.Forall₂ (fun f g => (f.Known names d.package ∧ f.RefersOnce names) ∧
      Field.Follows f.type.toProto.normalForm f g) fields m.fields :=
    (List.forall₂_and_left fields m.fields).2 ⟨fun f hf => ⟨hknown f hf, honce f hf⟩, hfields⟩
  have hresolved : ∃ resolved,
      m.fields.mapM (Field.resolve t d.dialect d.name ⟨d.package, [m.name]⟩) = .ok resolved ∧
      List.Forall₂ (fun f g => Field.Follows f.type.toProto f g) fields resolved := by
    rw [hdialect]
    refine exists_mapM_eq_ok hstep fun f g ⟨⟨hf, hfonce⟩, hg⟩ => ?_
    refine ⟨_, (resolve_normalForm_iff ht hf.type hf.declared hg.type).2 ⟨hfonce, rfl⟩, ?_⟩
    exact ⟨hg.name, hg.repeated, rfl, hg.comments⟩
  obtain ⟨resolved, hmap, hfollows⟩ := hresolved
  have hresolve := hsingle.resolve_eq_ok_iff.2 ⟨resolved, hmap, rfl⟩
  have hflatten := (hsingle.with_fields resolved).flatten_eq
  obtain ⟨ros, hros, hreturned⟩ := exists_message_toRos repr d.name ht hknown hdistinct hfollows
    hconstants hcomments
  rw [Schema.toRos, hresolve]
  simp only [bind, Except.bind, hflatten, flattenError?_single ht.outermost, List.mapM_cons,
    List.mapM_nil, hros]
  exact ⟨_, _, rfl, rfl, rfl, hreturned⟩

theorem refersOnce_of_toRos {repr : EnumRepr} (hd : Decoded package name fields d m)
    (ht : t.Lists names)
    (hknown : ∀ f ∈ fields, f.Known names package) (h : d.toRos t repr = .ok conversion) :
    ∀ f ∈ fields, f.RefersOnce names := by
  obtain ⟨hsingle, hdialect, rfl, rfl, hfields, -, -⟩ := hd
  have hresolved : ∃ resolved,
      m.fields.mapM (Field.resolve t d.dialect d.name ⟨d.package, [m.name]⟩) = .ok resolved := by
    rw [Schema.toRos] at h
    obtain ⟨r, hresolve, -⟩ := bind_eq_ok_iff.1 h
    obtain ⟨resolved, hmap, -⟩ := hsingle.resolve_eq_ok_iff.1 hresolve
    exact ⟨resolved, hmap⟩
  obtain ⟨resolved, hmap⟩ := hresolved
  intro f hf
  obtain ⟨g, hg, hfollows⟩ := exists_of_mem_left hfields f hf
  obtain ⟨g', hg'⟩ := exists_of_mapM_eq_ok hmap g hg
  rw [hdialect] at hg'
  have hfield := hknown f hf
  exact ((resolve_normalForm_iff ht hfield.type hfield.declared hfollows.type).1 hg').1

/-! ## Through the text -/

theorem Returned.writable (h : Returned name fields m) (hname : isMessageName name = true)
    (hknown : ∀ f ∈ fields, f.Known names package) (hdistinct : (fields.map (·.name)).Nodup) :
    Writable package m where
  name := by
    rw [h.name]
    exact hname
  fields g hg := by
    have hstep := (List.forall₂_and_left fields m.fields).2 ⟨hknown, h.fields⟩
    obtain ⟨f, -, hf, hfollows⟩ := exists_of_mem_left hstep.flip g hg
    refine ⟨?_, ⟨spelledAs package f.type.returned, ?_⟩, hfollows.comments⟩
    · rw [hfollows.name]
      exact hf.name
    · rw [hfollows.type]
      exact hf.type.returned.baseSpelling
  constants := by simp [h.constants]
  comments := h.comments
  distinct := by
    have hnames : m.fields.map (·.name) = fields.map (·.name) :=
      map_eq_of_forall₂ (h.fields.imp fun _ _ hfg => hfg.name)
    simpa [h.constants, hnames] using hdistinct

/-- What is parsed of the file that is written for a returned message. -/
theorem parse_rosFile (h : Returned name fields m) (hname : isMessageName name = true)
    (hpackage : package.length ≤ 1)
    (hparts : ∀ part ∈ package, IsPathPart part ∧ '.' ∉ part.toList ∧ part ≠ "msg")
    (hknown : ∀ f ∈ fields, f.Known names package) (hdistinct : (fields.map (·.name)).Nodup) :
    parse (render package m) (rosFileName package m.name) =
      .ok
        { name := rosFileName package name
          dialect := .ros
          package := package
          messages := [rereadMessage package name m] } := by
  rw [h.name]
  exact parse_render (h.writable hname hknown hdistinct)
    (namedByPath_rosFileName hpackage hparts hname)

/-- The fields that are parsed are spelled as the types that come back. -/
theorem fields_rosFile (h : Returned name fields m) :
    List.Forall₂ (fun f g => g.name = f.name ∧ g.repeated = f.repeated ∧
        g.type = (spelledBase (typeText package f.type.returned)).typeRef)
      fields (rereadMessage package name m).fields := by
  refine (forall₂_trans h.fields (forall₂_fields_rendered package name m)).imp ?_
  rintro f g ⟨f', hfollows, hname, hrepeated, htype⟩
  rw [← hfollows.name, ← hfollows.repeated, ← hfollows.type]
  exact ⟨hname, hrepeated, htype⟩

end SchemaBridge
