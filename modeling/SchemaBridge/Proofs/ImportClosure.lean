import SchemaBridge.Proofs.BatchOutputs
import SchemaBridge.Proofs.MappingRoundTrip

/-!
# Imports of a batch lead to its outputs

A converted file imports what its fields refer to: the output of the only source that defines the
message, the file of a message whose package no source has, or the file of a well-known type
(`LeadsTo`). A reference that the table answers means a message that one source defines
(`exists_only_definer`), and any other reference is to a package that the table does not have
(`resolveRos_message`). So the imports of a batch that is converted as a whole are neither missing nor
dangling (`imports_closed`).
-/

namespace SchemaBridge

open RosText

/-! ## What a message reference means -/

variable {t : SymbolTable} {site : Site} {spelling file : String} {n : TypeName} {enclosing : TypeName}
  {f g : Field} {s : Schema} {m : Message} {c : Conversion} {fields : List Field}

/-- The table holds one type of the name, or does not have the package. -/
def SymbolTable.Knows (t : SymbolTable) (n : TypeName) : Prop :=
  (∃ symbol, t.named n.qualified = [symbol] ∧ symbol.name = n) ∨ t.hasPackage n.package = false

theorem Symbol.name_of_typeRef {symbol : Symbol} (h : symbol.typeRef = .message n) :
    symbol.name = n := by
  unfold typeRef at h
  split at h
  · exact TypeRef.message.inj h
  · cases h

theorem knows_of_named {qualified : String} {symbol : Symbol} (h : t.named qualified = [symbol])
    (htype : symbol.typeRef = .message n) : t.Knows n := by
  obtain ⟨-, hqualified⟩ := SymbolTable.mem_named.1 (h ▸ List.mem_singleton_self symbol)
  have hname := Symbol.name_of_typeRef htype
  refine .inl ⟨symbol, ?_, hname⟩
  rw [← hname, hqualified, h]

theorem knows_of_resolveLocal {name : String} (hheader : name ≠ "Header")
    (h : site.resolveLocal t spelling name = .ok (.message n)) : t.Knows n := by
  rcases resolveLocal_eq_ok_iff.1 h with ⟨symbol, hnamed, htype⟩ | ⟨-, hname, -⟩
  · exact knows_of_named hnamed htype
  · exact absurd hname hheader

theorem knows_of_resolveQualified {package name : String}
    (h : site.resolveQualified t spelling package name = .ok (.message n)) : t.Knows n := by
  rcases resolveQualified_eq_ok_iff.1 h with ⟨symbol, hnamed, htype⟩ | ⟨-, -, hforeign, htype⟩
  · exact knows_of_named hnamed htype
  · obtain rfl := TypeRef.message.inj htype
    exact .inr hforeign

/-- A reference to a message, other than one to a bare header, is known to the table. -/
theorem resolveRos_message {text : List Char} (hspelling : BaseSpelling text (.named spelling) none)
    (hheader : spelling ≠ "Header") (h : site.resolveRos t spelling = .ok (.message n)) :
    t.Knows n := by
  rcases resolveRos_cases hspelling h with ⟨w, hw⟩ | ⟨-, hlocal⟩ | ⟨outer, name, -, -, hqualified⟩
  · cases hw
  · exact knows_of_resolveLocal hheader hlocal
  · exact knows_of_resolveQualified hqualified

/-- The same of a field of a parsed file. -/
theorem knows_of_resolve (hs : Parsed s m) (hf : f ∈ m.fields) (hheader : f.type ≠ .named "Header")
    (h : f.resolve t .ros file enclosing = .ok g) (hg : g.type = .message n) : t.Knows n := by
  obtain ⟨-, text, base, hbase, htype⟩ := hs.fields f hf
  cases base with
  | scalar k =>
    rw [Field.resolve_eq_self (by rw [htype]; rfl)] at h
    obtain rfl := Except.ok.inj h
    rw [htype] at hg
    cases hg
  | named spelling =>
    have hnamed : f.type = .named spelling := htype
    simp only [Field.resolve, hnamed, Site.resolve] at h
    obtain ⟨type, hresolve, h⟩ := bind_eq_ok_iff.1 h
    obtain rfl := Except.ok.inj h
    obtain rfl : type = .message n := hg
    exact resolveRos_message hbase (fun heq => hheader (by rw [hnamed, heq])) hresolve

/-! ## What is converted -/

/-- A file of one message is converted field by field, once its references are resolved. -/
theorem Schema.Single.exists_of_toProto (h : s.Single m) (hc : s.toProto t = .ok c) :
    ∃ fields, m.fields.mapM (Field.resolve t s.dialect s.name ⟨s.package, [m.name]⟩) = .ok fields ∧
      c.schema =
        { name := protoFileName s.package m.name
          dialect := .proto3
          package := s.package
          imports := sortedDistinct (fields.filterMap (Field.protoImport? s.package [m.name]))
          messages := [Message.toProto { m with fields := fields }]
          enums := s.enums } := by
  rw [Schema.toProto] at hc
  obtain ⟨r, hr, hc⟩ := bind_eq_ok_iff.1 hc
  obtain ⟨fields, hfields, rfl⟩ := h.resolve_eq_ok_iff.1 hr
  obtain rfl := Except.ok.inj hc
  refine ⟨fields, hfields, ?_⟩
  simp [Schema.protoName, Schema.protoImports]

theorem types_toProto (m : Message) :
    m.toProto.fields.map (·.type) = m.fields.map fun f => f.type.toProto :=
  map_eq_of_forall₂ (forall₂_mapIdx fun _ _ _ => rfl)

theorem toProto_eq_message_iff {type : TypeRef} : type.toProto = .message n ↔ type = .message n := by
  cases type <;> simp [TypeRef.toProto]

theorem toProto_eq_wellKnown_iff {type : TypeRef} {w : WellKnown} :
    type.toProto = .wellKnown w ↔ type = .wellKnown w := by
  cases type <;> simp [TypeRef.toProto]

/-- A field is imported from the file of a message that is not the file's own, or from that of a
well-known type. -/
theorem Field.protoImport?_eq_some_iff {package outermost : List String} {path : String} :
    f.protoImport? package outermost = some path ↔
      (∃ n, f.type = .message n ∧ ¬(n.package = package ∧ n.name ∈ outermost) ∧
          protoFileName n.package n.name = path) ∨
        ∃ w, f.type = .wellKnown w ∧ w.protoImport = path := by
  unfold Field.protoImport?
  cases f.type <;> simp

namespace Batch

variable {sources : List Source} {source : Source} {package : Option String} {path : String}

/-! ## What imports lead to -/

/-- The source defines the message of the name. -/
def Source.defines (package : Option String) (n : TypeName) (source : Source) : Bool :=
  match source.schema package with
  | .ok s => n ∈ s.messageNames
  | .error _ => false

/-- The conversion of a source of a batch. -/
def conversion (sources : List Source) (package : Option String) (source : Source) :
    Except ConversionError Conversion :=
  (source.schema package).bind (Schema.toProto (.ofFiles (schemas package sources)))

/-- The output that a conversion gives. -/
def written (c : Conversion) : Output := ⟨c.schema.name, ProtoText.render c.schema, c.losses⟩

/-- What a type is imported from: the output of the only source that defines a message; the file of a
message of a package that no source has; or the file of a well-known type. -/
inductive LeadsTo (sources : List Source) (package : Option String) : TypeRef → String → Prop
  | output {n : TypeName} {source : Source} {c : Conversion}
      (honly : sources.filter (·.defines package n) = [source])
      (hc : conversion sources package source = .ok c) :
      LeadsTo sources package (.message n) (written c).path
  | external {n : TypeName} (h : ∀ s ∈ schemas package sources, s.package ≠ n.package) :
      LeadsTo sources package (.message n) (protoFileName n.package n.name)
  | wellKnown (w : WellKnown) : LeadsTo sources package (.wellKnown w) w.protoImport

/-- The imports of a converted file are those of its fields, neither more nor less, in their order. -/
structure ImportsClosed (sources : List Source) (package : Option String) (c : Conversion) : Prop where
  messages : ∀ m ∈ c.schema.messages, ∀ f ∈ m.fields, ∀ n, f.type = .message n →
    n ∈ c.schema.messageNames ∨ ∃ path ∈ c.schema.imports, LeadsTo sources package f.type path
  wellKnown : ∀ m ∈ c.schema.messages, ∀ f ∈ m.fields, ∀ w, f.type = .wellKnown w →
    w.protoImport ∈ c.schema.imports
  arises : ∀ path ∈ c.schema.imports, ∃ m ∈ c.schema.messages, ∃ f ∈ m.fields,
    LeadsTo sources package f.type path
  increasing : c.schema.imports.Pairwise (· < ·)

theorem convert_eq : convert sources package =
    sources.map fun source => ⟨source.path, (conversion sources package source).map written⟩ := by
  refine List.map_congr_left fun source _ => ?_
  rw [conversion]
  cases source.schema package with
  | error e => rfl
  | ok s =>
    show Result.mk _ ((s.toProto _).bind _) = Result.mk _ ((s.toProto _).map written)
    cases s.toProto (.ofFiles (schemas package sources)) <;> rfl

/-- If no source of a batch fails, every source is read and converted. -/
theorem exists_conversion (h : failures (convert sources package) = []) (hs : source ∈ sources) :
    ∃ s ∈ schemas package sources, source.schema package = .ok s ∧
      ∃ c, s.toProto (.ofFiles (schemas package sources)) = .ok c ∧
        conversion sources package source = .ok c := by
  have hresult := List.filterMap_eq_nil_iff.1 h
    ⟨source.path, (conversion sources package source).map written⟩
    (convert_eq ▸ List.mem_map_of_mem hs)
  cases hc : conversion sources package source with
  | error e => simp [hc, Result.error?, Except.map] at hresult
  | ok c =>
    obtain ⟨s, hschema, hproto⟩ := bind_eq_ok_iff.1 hc
    exact ⟨s, List.mem_filterMap.2 ⟨source, hs, by rw [hschema]; rfl⟩, hschema, c, hproto, rfl⟩

theorem hasPackage_of_mem_schemas (hs : s ∈ schemas package sources) :
    (SymbolTable.ofFiles (schemas package sources)).hasPackage s.package = true := by
  rw [SymbolTable.ofFiles_eq, SymbolTable.hasPackage, List.contains_iff_mem]
  exact List.mem_map_of_mem hs

/-! ## Definers -/

/-- As many sources define a message as the table has types of its name. -/
theorem length_filter_defines (n : TypeName) :
    (sources.filter (·.defines package n)).length =
      ((SymbolTable.ofFiles (schemas package sources)).symbols.filter (·.name = n)).length := by
  rw [SymbolTable.ofFiles_eq]
  induction sources with
  | nil => rfl
  | cons source sources ih =>
    cases hschema : source.schema package with
    | error e =>
      have hdefines : source.defines package n = false := by rw [Source.defines, hschema]
      have hschemas : schemas package (source :: sources) = schemas package sources :=
        List.filterMap_cons_none (by rw [hschema]; rfl)
      rw [List.filter_cons_of_neg (by simp [hdefines]), hschemas, ih]
    | ok s =>
      obtain ⟨m, hm⟩ := exists_readable hschema
      have hdefines : source.defines package n = decide (n = ⟨s.package, [m.name]⟩) := by
        simp only [Source.defines, hschema, hm.single.messageNames_eq, List.mem_singleton]
      have hschemas : schemas package (source :: sources) = s :: schemas package sources :=
        List.filterMap_cons_some (by rw [hschema]; rfl)
      rw [hschemas, List.flatMap_cons, hm.single.symbols_eq, List.singleton_append]
      by_cases hn : n = ⟨s.package, [m.name]⟩
      · rw [List.filter_cons_of_pos (by rw [hdefines]; exact decide_eq_true hn),
          List.filter_cons_of_pos (by simp [hn]), List.length_cons, List.length_cons, ih]
      · rw [List.filter_cons_of_neg (by simp [hdefines, hn]),
          List.filter_cons_of_neg (by simp [Ne.symm hn]), ih]

/-- A message that is the only type of its qualified name is defined by one source only. -/
theorem exists_only_definer {symbol : Symbol}
    (h : (SymbolTable.ofFiles (schemas package sources)).named symbol.name.qualified = [symbol]) :
    ∃ source, sources.filter (·.defines package symbol.name) = [source] := by
  generalize ht : SymbolTable.ofFiles (schemas package sources) = t at h
  have hfilter : t.symbols.filter (·.name = symbol.name) = [symbol] := by
    have hnamed := congrArg (List.filter (·.name = symbol.name)) h
    rw [SymbolTable.named, List.filter_filter, List.filter_singleton] at hnamed
    rw [← List.filter_congr fun s _ => ?_, hnamed]
    · simp
    · rw [Bool.and_eq_left_iff_imp]
      intro hname
      simp [of_decide_eq_true hname]
  refine List.length_eq_one_iff.1 ?_
  rw [length_filter_defines, ht, hfilter, List.length_singleton]

/-- A message that a reference means is imported from where its definition or its package says. -/
theorem leadsTo_of_knows (hall : failures (convert sources package) = [])
    (h : (SymbolTable.ofFiles (schemas package sources)).Knows n) :
    LeadsTo sources package (.message n) (protoFileName n.package n.name) := by
  rcases h with ⟨symbol, hnamed, rfl⟩ | hforeign
  · obtain ⟨source, honly⟩ := exists_only_definer hnamed
    obtain ⟨hsource, hdefines⟩ := List.mem_filter.1 (honly ▸ List.mem_singleton_self source)
    obtain ⟨s, -, hschema, c, hc, hconversion⟩ := exists_conversion hall hsource
    obtain ⟨m, hm⟩ := exists_readable hschema
    obtain ⟨fields, -, hwritten⟩ := hm.single.exists_of_toProto hc
    have hname : symbol.name = ⟨s.package, [m.name]⟩ := by
      simpa only [Source.defines, hschema, hm.single.messageNames_eq, List.mem_singleton,
        decide_eq_true_eq] using hdefines
    have hpath : (written c).path = protoFileName symbol.name.package symbol.name.name := by
      rw [written, hwritten, hname]
      rfl
    exact hpath ▸ .output honly hconversion
  · refine .external fun s hs hpackage => ?_
    have hhas := hasPackage_of_mem_schemas hs
    rw [hpackage, hforeign] at hhas
    cases hhas

/-! ## The imports of a converted file -/

/-- A message that the file does not import is its own. -/
theorem mem_messageNames_of_knows (hs : s ∈ schemas package sources)
    (h : (SymbolTable.ofFiles (schemas package sources)).Knows n) (hpackage : n.package = s.package)
    (hname : n.name = m.name) : n = ⟨s.package, [m.name]⟩ := by
  rcases h with ⟨symbol, hnamed, rfl⟩ | hforeign
  · have hsymbol := (SymbolTable.mem_named.1 (hnamed ▸ List.mem_singleton_self symbol)).1
    have houtermost : (SymbolTable.ofFiles (schemas package sources)).Outermost :=
      outermost_ofFiles fun s hs => (readable_of_mem_schemas hs).imp fun _ hm => hm.single
    rw [← (houtermost symbol hsymbol).2, TypeName.flat, hpackage, hname]
  · have hhas := hasPackage_of_mem_schemas hs
    rw [← hpackage, hforeign] at hhas
    cases hhas

theorem importsClosed_of_toProto (hall : failures (convert sources package) = [])
    (hheader : ∀ s ∈ schemas package sources, ∀ m ∈ s.messages, ∀ f ∈ m.fields,
      f.type ≠ .named "Header")
    (hs : s ∈ schemas package sources) (hschema : source.schema package = .ok s)
    (hc : s.toProto (.ofFiles (schemas package sources)) = .ok c) :
    ImportsClosed sources package c := by
  obtain ⟨s₀, m, hm, rfl⟩ := exists_parsed_source hschema
  generalize (package.map givenPackage).getD s₀.package = P at hs hc
  have hsingle : Schema.Single { s₀ with package := P } m :=
    ⟨hm.single.messages, hm.single.enums, hm.single.nested, hm.single.inner⟩
  obtain ⟨fields, hfields, hwritten⟩ := hsingle.exists_of_toProto hc
  rw [hm.dialect] at hfields
  have hknows : ∀ g ∈ fields, ∀ n, g.type = .message n →
      (SymbolTable.ofFiles (schemas package sources)).Knows n := by
    intro g hg n hn
    obtain ⟨f, hf, hresolve⟩ := exists_of_mem_left (mapM_eq_ok_iff.1 hfields).flip g hg
    have hbare := hheader _ hs m (by rw [hsingle.messages]; exact List.mem_singleton_self m) f hf
    exact knows_of_resolve hm hf hbare hresolve hn
  have htypes : ∀ {type : TypeRef}, (∃ f ∈ (Message.toProto { m with fields := fields }).fields,
      f.type = type) ↔ ∃ g ∈ fields, g.type.toProto = type := by
    intro type
    rw [← List.mem_map, ← List.mem_map, types_toProto]
  have himports : ∀ {path : String}, path ∈ c.schema.imports ↔
      ∃ g ∈ fields, g.protoImport? P [m.name] = some path := by
    intro path
    rw [hwritten, mem_sortedDistinct, List.mem_filterMap]
  have hmessages : ∀ {m' : Message}, m' ∈ c.schema.messages ↔
      m' = Message.toProto { m with fields := fields } := by
    intro m'
    rw [hwritten, List.mem_singleton]
  refine ⟨?messages, ?wellKnown, ?arises, hwritten ▸ pairwise_sortedDistinct _⟩
  case messages =>
    intro m' hm' f hf n hn
    obtain rfl := hmessages.1 hm'
    obtain ⟨g, hg, htype⟩ := htypes.1 ⟨f, hf, hn⟩
    rw [toProto_eq_message_iff] at htype
    have hknown := hknows g hg n htype
    by_cases hown : n.package = P ∧ n.name ∈ [m.name]
    · left
      rw [mem_messageNames_of_knows hs hknown hown.1 (List.mem_singleton.1 hown.2), hwritten]
      exact List.mem_singleton_self _
    · right
      refine ⟨_, himports.2 ⟨g, hg, ?_⟩, hn ▸ leadsTo_of_knows hall hknown⟩
      exact Field.protoImport?_eq_some_iff.2 (.inl ⟨n, htype, hown, rfl⟩)
  case wellKnown =>
    intro m' hm' f hf w hw
    obtain rfl := hmessages.1 hm'
    obtain ⟨g, hg, htype⟩ := htypes.1 ⟨f, hf, hw⟩
    rw [toProto_eq_wellKnown_iff] at htype
    exact himports.2 ⟨g, hg, Field.protoImport?_eq_some_iff.2 (.inr ⟨w, htype, rfl⟩)⟩
  case arises =>
    intro path hpath
    obtain ⟨g, hg, himport⟩ := himports.1 hpath
    obtain ⟨f, hf, htype⟩ := htypes.2 ⟨g, hg, rfl⟩
    refine ⟨_, hmessages.2 rfl, f, hf, ?_⟩
    rw [htype]
    rcases Field.protoImport?_eq_some_iff.1 himport with ⟨n, hn, -, rfl⟩ | ⟨w, hw, rfl⟩
    · rw [hn]
      exact leadsTo_of_knows hall (hknows g hg n hn)
    · rw [hw]
      exact .wellKnown w

/-- In a batch of which every source is converted, and without fields of the bare type `Header`, every
message that an output refers to is its own, or is imported: from the output of the only source that
defines it, or from its own file if no source has its package. Well-known types are imported, nothing
else is, and the imports of a file increase. -/
theorem imports_closed (hall : failures (convert sources package) = [])
    (hheader : ∀ s ∈ schemas package sources, ∀ m ∈ s.messages, ∀ f ∈ m.fields,
      f.type ≠ .named "Header") :
    ∀ source ∈ sources, ∃ c, conversion sources package source = .ok c ∧
      ⟨source.path, .ok (written c)⟩ ∈ convert sources package ∧ ImportsClosed sources package c := by
  intro source hsource
  obtain ⟨s, hs, hschema, c, hc, hconversion⟩ := exists_conversion hall hsource
  refine ⟨c, hconversion, ?_, ?_⟩
  · rw [convert_eq]
    refine List.mem_map.2 ⟨source, hsource, ?_⟩
    rw [hconversion]
    rfl
  · exact importsClosed_of_toProto hall hheader hs hschema hc

/-! ## A route of poses -/

/-- A file that refers to itself, to another source, to a package that no source has, and to a
well-known type. -/
def routeSource : Source :=
  { path := "nav/msg/Route.msg"
    text := "Route[] detours\ngeo/msg/Pose[] poses\nnav_core/Goal goal\nbuiltin_interfaces/Time start\n" }

def routeSources : List Source :=
  [{ path := "geo/Point.msg", text := "float64 x\n" },
   { path := "geo/Pose.msg", text := "Point position\n" }, routeSource]

/-- The file imports all of them but itself. -/
theorem imports_closed_routeSources :
    failures (convert routeSources none) = [] ∧
      (∀ s ∈ schemas none routeSources, ∀ m ∈ s.messages, ∀ f ∈ m.fields, f.type ≠ .named "Header") ∧
      ∃ c, conversion routeSources none routeSource = .ok c ∧
        c.schema.imports =
          ["geo/pose.proto", "google/protobuf/timestamp.proto", "nav_core/goal.proto"] ∧
        ImportsClosed routeSources none c := by
  have hall : failures (convert routeSources none) = [] := by decide +kernel
  have hheader : ∀ s ∈ schemas none routeSources, ∀ m ∈ s.messages, ∀ f ∈ m.fields,
      f.type ≠ .named "Header" := by decide +kernel
  refine ⟨hall, hheader, ?_⟩
  obtain ⟨c, hc, -, hclosed⟩ := imports_closed hall hheader routeSource (by simp [routeSources])
  refine ⟨c, hc, ?_, hclosed⟩
  have himports : (conversion routeSources none routeSource).map (·.schema.imports) =
      .ok ["geo/pose.proto", "google/protobuf/timestamp.proto", "nav_core/goal.proto"] := by
    decide +kernel
  rw [hc] at himports
  exact Except.ok.inj himports

end Batch

end SchemaBridge
