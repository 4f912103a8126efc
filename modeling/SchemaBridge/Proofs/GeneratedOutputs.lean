import SchemaBridge.Proofs.GeneratedReferences

/-!
# The outputs of a batch, parsed again

The table of all outputs of a batch that are parsed again lists the messages whose text can be parsed,
each in the package of its last directory (`lists_rereadFiles`). A message that a file refers to is
generated once, since the file would be rejected otherwise (`count_generatedNames_le_one`). So generated
text means what it was generated from, up to what paths and spellings can say (`reread_toRos`).
-/

namespace SchemaBridge

open RosText

variable {files : List Schema} {repr : EnumRepr} {s : Schema} {c : Conversion} {m : Message} {f : Field}
  {t : SymbolTable} {n : TypeName} {package : List String} {p : List String × Message}

/-! ## Outputs that are parsed again -/

/-- The messages that the files of a batch become, each with its package. -/
def generatedMessages (files : List Schema) (repr : EnumRepr) : List (List String × Message) :=
  files.flatMap fun s =>
    match s.toRos (.ofFiles files) repr with
    | .ok c => c.schema.messages.map fun m => (c.schema.package, m)
    | .error _ => []

/-- The text of a generated message, parsed under its own path. -/
def reread (p : List String × Message) : Except ParseError Schema :=
  parse (render p.1 p.2) (rosFileName p.1 p.2.name)

/-- The outputs of a batch that can be parsed again. -/
def rereadFiles (files : List Schema) (repr : EnumRepr) : List Schema :=
  (generatedMessages files repr).filterMap fun p => (reread p).toOption

/-- The name that a generated message is parsed under. -/
def rereadName (p : List String × Message) : TypeName := ⟨packageOf p.1, [p.2.name]⟩

/-- The names of the generated messages whose text can be parsed. -/
def rereadNames (files : List Schema) (repr : EnumRepr) : List TypeName :=
  ((generatedMessages files repr).filter fun p => p.2.Spelled p.1).map rereadName

theorem exists_of_mem_generatedMessages (hp : p ∈ generatedMessages files repr) :
    ∃ s ∈ files, ∃ c, s.toRos (.ofFiles files) repr = .ok c ∧ p.1 = c.schema.package ∧
      p.2 ∈ c.schema.messages := by
  obtain ⟨s, hs, hp⟩ := List.mem_flatMap.1 hp
  cases hc : s.toRos (.ofFiles files) repr with
  | error e => simp [hc] at hp
  | ok c =>
    simp only [hc] at hp
    obtain ⟨m, hm, rfl⟩ := List.mem_map.1 hp
    exact ⟨s, hs, c, hc, rfl, hm⟩

theorem mem_generatedMessages (hs : s ∈ files) (hc : s.toRos (.ofFiles files) repr = .ok c)
    (hm : m ∈ c.schema.messages) : (c.schema.package, m) ∈ generatedMessages files repr := by
  refine List.mem_flatMap.2 ⟨s, hs, ?_⟩
  simp only [hc]
  exact List.mem_map_of_mem hm

/-- A generated message that is parsed again. -/
def rereadFile (p : List String × Message) : Schema :=
  { name := rosFileName p.1 p.2.name
    dialect := .ros
    package := packageOf p.1
    messages := [rereadMessage p.1 p.2.name p.2] }

theorem single_rereadFile (p : List String × Message) :
    (rereadFile p).Single (rereadMessage p.1 p.2.name p.2) := ⟨rfl, rfl, rfl, rfl⟩

theorem isGenerated_of_mem (hbatch : IdentifierBatch files) (hp : p ∈ generatedMessages files repr) :
    (∀ segment ∈ p.1, IsIdentifier segment.toList) ∧ p.2.IsGenerated := by
  obtain ⟨s, hs, c, hc, hpackage, hm⟩ := exists_of_mem_generatedMessages hp
  rw [hpackage]
  exact isGenerated_of_toRos hbatch hs hc hm

/-- The text of a generated message can be parsed exactly if the message can be spelled. -/
theorem reread_eq_ok_iff (hbatch : IdentifierBatch files) (hp : p ∈ generatedMessages files repr) :
    reread p = .ok s ↔ p.2.Spelled p.1 ∧ s = rereadFile p := by
  obtain ⟨hpackage, hgenerated⟩ := isGenerated_of_mem hbatch hp
  constructor
  · intro h
    have hspelled := spelled_of_parse hgenerated hpackage h
    exact ⟨hspelled, Except.ok.inj (h.symm.trans (parse_generated hgenerated hpackage hspelled))⟩
  · rintro ⟨hspelled, rfl⟩
    exact parse_generated hgenerated hpackage hspelled

theorem rereadFiles_eq (hbatch : IdentifierBatch files) (repr : EnumRepr) :
    rereadFiles files repr =
      ((generatedMessages files repr).filter fun p => p.2.Spelled p.1).map rereadFile := by
  rw [← List.filterMap_eq_map, List.filterMap_filter, rereadFiles]
  refine List.filterMap_congr fun p hp => ?_
  by_cases hspelled : p.2.Spelled p.1
  · rw [(reread_eq_ok_iff hbatch hp).2 ⟨hspelled, rfl⟩]
    simp [hspelled, Except.toOption]
  · cases hparse : reread p with
    | error e => simp [hspelled, Except.toOption]
    | ok s => exact absurd ((reread_eq_ok_iff hbatch hp).1 hparse).1 hspelled

/-- The table of the outputs that are parsed again lists the names of their messages. -/
theorem lists_rereadFiles (hbatch : IdentifierBatch files) (repr : EnumRepr) :
    (SymbolTable.ofFiles (rereadFiles files repr)).Lists (rereadNames files repr) := by
  have hnames : (rereadFiles files repr).flatMap Schema.messageNames = rereadNames files repr := by
    rw [rereadFiles_eq hbatch, List.flatMap_map, rereadNames, List.map_eq_flatMap]
    rfl
  rw [← hnames]
  refine lists_ofFiles (fun s hs => ?_) fun n hn => ?_
  · rw [rereadFiles_eq hbatch] at hs
    obtain ⟨p, -, rfl⟩ := List.mem_map.1 hs
    exact ⟨_, single_rereadFile p⟩
  · rw [hnames] at hn
    obtain ⟨p, hp, rfl⟩ := List.mem_map.1 hn
    obtain ⟨hpackage, hgenerated⟩ := isGenerated_of_mem hbatch (List.mem_filter.1 hp).1
    refine isPlain_own (packageOf_length _) (fun segment hsegment => ?_) hgenerated.name
    exact isSegment_of_isIdentifier (hpackage segment (packageOf_subset _ hsegment))

theorem hasPackage_rereadFiles (hbatch : IdentifierBatch files) (repr : EnumRepr) :
    (SymbolTable.ofFiles (rereadFiles files repr)).hasPackage package = true ↔
      ∃ n ∈ rereadNames files repr, n.package = package := by
  rw [SymbolTable.ofFiles_eq, rereadFiles_eq hbatch]
  simp [SymbolTable.hasPackage, rereadNames, rereadFile, rereadName]

/-! ## How often a name is read -/

/-- The name that a generated message has. -/
def generatedName (p : List String × Message) : TypeName := ⟨p.1, [p.2.name]⟩

/-- A generated message of the name `n` can be spelled and is parsed under that name, and no message of
another package is. -/
structure TypeName.ReadOnce (files : List Schema) (repr : EnumRepr) (n : TypeName) : Prop where
  package : packageOf n.package = n.package
  generated : ∃ p ∈ generatedMessages files repr, generatedName p = n ∧ p.2.Spelled p.1
  alone : ∀ p ∈ generatedMessages files repr, p.2.Spelled p.1 → rereadName p = n → p.1 = n.package

/-- The messages that a file becomes have the flattened names of those that it declares. -/
theorem names_toRos (hc : s.toRos t repr = .ok c) :
    c.schema.messages.map (fun m => generatedName (c.schema.package, m)) =
      s.flatten.map (·.1.flat) := by
  obtain ⟨r, hr, -, mapped, -, hschema⟩ := exists_mapped_of_toRos hc
  have hpackage : c.schema.package = r.package := by rw [hschema]
  have hnames : r.flatten.map (·.1.flat) = s.flatten.map (·.1.flat) := by
    have hsame := congrArg (List.map TypeName.flat) (Schema.names_resolve hr)
    simpa only [List.map_map, Function.comp_def] using hsame
  rw [← hnames]
  refine map_eq_of_forall₂ ((forall₂_with_mem (flattensTo_of_schema hr hc)).imp ?_)
  rintro p m ⟨hp, -, hflattens⟩
  rw [generatedName, hflattens.name, hpackage, ← (r.of_mem_flatten hp).1]
  rfl

/-- The generated messages have flattened names of messages that the batch declares. -/
theorem sublist_generatedNames (files : List Schema) (repr : EnumRepr) :
    ((generatedMessages files repr).map generatedName).Sublist
      ((allMessages files).map (·.1.flat)) := by
  rw [generatedMessages, allMessages, List.map_flatMap, List.map_flatMap]
  refine List.Sublist.flatMap_right _ fun s _ => ?_
  cases hc : s.toRos (.ofFiles files) repr with
  | error e => simp
  | ok c =>
    rw [← names_toRos hc, List.map_map]
    exact List.Sublist.refl _

/-- The table of a batch holds the messages that the batch declares. -/
theorem sublist_names_ofFiles (files : List Schema) :
    ((allMessages files).map (·.1)).Sublist ((SymbolTable.ofFiles files).symbols.map (·.name)) := by
  rw [SymbolTable.ofFiles_eq, allMessages, List.map_flatMap, List.map_flatMap]
  refine List.Sublist.flatMap_right _ fun s _ => ?_
  have hmessages : (s.flatten.map fun p => Symbol.mk p.1 s.name .message).map (·.name) =
      s.flatten.map (·.1) := by
    simp [Function.comp_def]
  rw [Schema.symbols, List.map_append, ← hmessages]
  exact List.sublist_append_right _ _

/-- A message that is the only type of its qualified name is declared once. -/
theorem count_allMessages_le_one {symbol : Symbol}
    (h : (SymbolTable.ofFiles files).named n.qualified = [symbol]) :
    ((allMessages files).map (·.1)).count n ≤ 1 := by
  have hlength : ((SymbolTable.ofFiles files).named n.qualified).length = 1 := by rw [h]; rfl
  rw [SymbolTable.named, ← List.countP_eq_length_filter] at hlength
  refine ((sublist_names_ofFiles files).count_le n).trans ?_
  rw [List.count, List.countP_map, ← hlength]
  refine List.countP_mono_left fun symbol _ hname => ?_
  have hname : symbol.name = n := by simpa using hname
  simp [hname]

/-- Only one message is generated under the name of a message that is referred to. -/
theorem count_generatedNames_le_one (hbatch : IdentifierBatch files) (hs : s ∈ files)
    (hraw : s.Unresolved) (hc : s.toRos (.ofFiles files) repr = .ok c) (hm : m ∈ c.schema.messages)
    (hf : f ∈ m.fields) (hn : f.type = .message n) :
    ((generatedMessages files repr).map generatedName).count n ≤ 1 := by
  have hdots : ∀ p ∈ allMessages files, p.1.DotFree := fun p hp => (hbatch.names p hp).dotFree
  obtain ⟨r, hr, -⟩ := exists_mapped_of_toRos hc
  obtain ⟨p, hp, hflattens⟩ := exists_of_mem_left (flattensTo_of_schema hr hc).flip m hm
  obtain ⟨g, hg, hfield⟩ := exists_of_mem_left hflattens.fields.flip f hf
  obtain ⟨k, hk, rfl⟩ := (hfield.reference n).1 hn
  -- the reference was found, so `k` is declared once; it collides with nothing, so no other message
  -- of the batch takes its flattened name
  have hmeant := meant_of_resolve (hbatch.dialect s hs) hraw hr p hp g hg
  rw [hk] at hmeant
  have hdeclares := declares_of_meant hmeant
  obtain ⟨symbol, hnamed, -⟩ := exists_symbol_of_meant hmeant
  have hunshared := collisions_eq_none_of_uses hr hc (.inr ⟨p, hp, g, hg, hk⟩)
  rw [collisions_eq_none_iff_unshared hdots hdeclares] at hunshared
  refine ((sublist_generatedNames files repr).count_le k.flat).trans ?_
  refine le_trans ?_ (count_allMessages_le_one hnamed)
  rw [List.count, List.count, List.countP_map, List.countP_map]
  refine List.countP_mono_left fun q hq hflat => ?_
  have hflat : k.flat = q.1.flat := (beq_iff_eq.1 hflat).symm
  have hsame := (flat_eq_iff_of_unshared hdots hdeclares (List.mem_map_of_mem hq) hunshared).1 hflat
  simp [hsame]

/-- A message that is referred to and read once is listed once. -/
theorem count_rereadNames (hbatch : IdentifierBatch files) (hs : s ∈ files) (hraw : s.Unresolved)
    (hc : s.toRos (.ofFiles files) repr = .ok c) (hm : m ∈ c.schema.messages) (hf : f ∈ m.fields)
    (hn : f.type = .message n) (honce : n.ReadOnce files repr) :
    (rereadNames files repr).count n = 1 := by
  refine Nat.le_antisymm ?_ ?_
  · refine le_trans ?_ (count_generatedNames_le_one hbatch hs hraw hc hm hf hn)
    rw [rereadNames, List.count, List.countP_map, List.countP_map, List.countP_filter]
    refine List.countP_mono_left fun p hp hread => ?_
    obtain ⟨hname, hspelled⟩ : rereadName p = n ∧ p.2.Spelled p.1 := by simpa using hread
    have hpackage := honce.alone p hp hspelled hname
    rw [rereadName, hpackage, honce.package, ← hpackage] at hname
    simp [generatedName, hname]
  · obtain ⟨p, hp, rfl, hspelled⟩ := honce.generated
    have hname : rereadName p = generatedName p := by
      rw [rereadName, show packageOf p.1 = p.1 from honce.package]
      rfl
    rw [← hname]
    refine List.count_pos_iff.2 (List.mem_map_of_mem ?_)
    exact List.mem_filter.2 ⟨hp, decide_eq_true hspelled⟩

/-! ## The outputs of a batch -/

/-- The field `g` of the parsed file `s'` comes from a text of package `package` that was written for the
field `f`: a well-known type is found again, and a message exactly if it comes back. -/
structure Field.MeansAgain (files : List Schema) (repr : EnumRepr) (package : List String)
    (s' : Schema) (enclosing : TypeName) (f g : Field) : Prop where
  name : g.name = f.name
  repeated : g.repeated = f.repeated
  wellKnown : ∀ w, f.type = .wellKnown w →
    g.resolve (.ofFiles (rereadFiles files repr)) .ros s'.name enclosing =
      .ok { g with type := .wellKnown w.comingBack }
  message : ∀ n, f.type = .message n →
    (g.resolve (.ofFiles (rereadFiles files repr)) .ros s'.name enclosing =
        .ok { g with type := .message n } ↔
      n.ComesBack (rereadNames files repr) package)

/-- The fields of a text that is parsed again mean what they were written for. -/
theorem meansAgain_rereadFile (hbatch : IdentifierBatch files) (hp : p ∈ generatedMessages files repr)
    (hspelled : p.2.Spelled p.1) :
    List.Forall₂ (Field.MeansAgain files repr p.1 (rereadFile p) (rereadName p)) p.2.fields
      (rereadMessage p.1 p.2.name p.2).fields := by
  obtain ⟨hpackage, hgenerated⟩ := isGenerated_of_mem hbatch hp
  have ht := lists_rereadFiles hbatch repr
  refine (forall₂_with_mem (forall₂_fields_rendered p.1 p.2.name p.2)).imp ?_
  rintro f g ⟨hf, -, hname, hrepeated, htype⟩
  refine ⟨hname, hrepeated, fun w hw => ?_, fun n hn => ?_⟩
  · rw [hw] at htype
    exact resolve_reread_wellKnown ht htype
  · obtain ⟨-, hreference, -⟩ := hgenerated.fields f hf
    have hn' := hspelled.references f hf n hn
    rw [hn] at hreference htype
    cases hreference with
    | @message k hk =>
      exact resolve_reread_message_iff ht hk.flat rfl htype rfl
        (fun _ => hasPackage_rereadFiles hbatch repr) hpackage hn'

/-- The text of a generated message can be parsed under its own path exactly if the message can be
spelled. It then is a file of one message of the same name, in the same package if that has at most one
segment other than `msg`. In the table of all outputs that are parsed again, the fields find the
well-known types that they were written for, and the messages that come back; a message that is read
once is listed once. -/
theorem reread_toRos (hbatch : IdentifierBatch files) (hs : s ∈ files)
    (hc : s.toRos (.ofFiles files) repr = .ok c) (hm : m ∈ c.schema.messages) :
    ((∃ s', reread (c.schema.package, m) = .ok s') ↔ m.Spelled c.schema.package) ∧
      (∀ s', reread (c.schema.package, m) = .ok s' →
        s' ∈ rereadFiles files repr ∧ s'.package = packageOf c.schema.package ∧
          (s'.package = c.schema.package ↔
            c.schema.package.length ≤ 1 ∧ c.schema.package ≠ ["msg"]) ∧
          ∃ m', s'.messages = [m'] ∧ m'.name = m.name ∧
            List.Forall₂
              (Field.MeansAgain files repr c.schema.package s' ⟨s'.package, [m'.name]⟩)
              m.fields m'.fields) ∧
      (s.Unresolved → ∀ f ∈ m.fields, ∀ n, f.type = .message n → n.ReadOnce files repr →
        (rereadNames files repr).count n = 1) := by
  have hp := mem_generatedMessages hs hc hm
  refine ⟨⟨?_, ?_⟩, ?_, ?_⟩
  · rintro ⟨s', hs'⟩
    exact ((reread_eq_ok_iff hbatch hp).1 hs').1
  · exact fun hspelled => ⟨_, (reread_eq_ok_iff hbatch hp).2 ⟨hspelled, rfl⟩⟩
  · intro s' hs'
    obtain ⟨hspelled, rfl⟩ := (reread_eq_ok_iff hbatch hp).1 hs'
    have hfields := meansAgain_rereadFile hbatch hp hspelled
    refine ⟨?_, rfl, packageOf_eq_self_iff, _, rfl, rfl, hfields⟩
    exact List.mem_filterMap.2 ⟨_, hp, by rw [hs']; rfl⟩
  · exact fun hraw f hf n hn honce => count_rereadNames hbatch hs hraw hc hm hf hn honce

/-! ## Batches of two files -/

/-- A proto3 file of one message. -/
def messageFile (package : List String) (m : Message) : Schema :=
  { name := m.name ++ ".proto", dialect := .proto3, package, messages := [m] }

/-- A file that refers to a message of another package, to a well-known type, and to a message that is
nested in its own. -/
def toolFile : Schema :=
  messageFile ["tool"]
    { name := "Tool"
      fields :=
        [{ name := "pose", type := .named ".geo.Pose" },
         { name := "label", type := .named "google.protobuf.BytesValue" },
         { name := "joints", type := .named "Joint", repeated := true }]
      nested := [{ name := "Joint", fields := [{ name := "angle", type := .scalar .float64 }] }] }

/-- A batch of a file with a pose and the file that refers to it. -/
def toolFiles : List Schema :=
  [messageFile ["geo"] { name := "Pose", fields := [{ name := "x", type := .scalar .float64 }] },
    toolFile]

/-- The message that the second file becomes. -/
def toolMessage : Message :=
  { name := "Tool"
    fields :=
      [{ name := "pose", type := .message ⟨["geo"], ["Pose"]⟩ },
       { name := "label", type := .wellKnown .bytesValue },
       { name := "joints", type := .message ⟨["tool"], ["Joint"]⟩, repeated := true }] }

/-- All fields of the tool find what they were written for. -/
theorem reread_toRos_toolFiles :
    IdentifierBatch toolFiles ∧ toolFile ∈ toolFiles ∧
      ∃ c, toolFile.toRos (.ofFiles toolFiles) .auto = .ok c ∧ toolMessage ∈ c.schema.messages ∧
        ∃ s', reread (c.schema.package, toolMessage) = .ok s' ∧ s'.package = ["tool"] ∧
          ∃ m', s'.messages = [m'] ∧
            List.Forall₂
              (fun type g => g.resolve (.ofFiles (rereadFiles toolFiles .auto)) .ros s'.name
                ⟨s'.package, [m'.name]⟩ = .ok { g with type := type })
              [.message ⟨["geo"], ["Pose"]⟩, .wellKnown .stringValue, .message ⟨["tool"], ["Joint"]⟩]
              m'.fields := by
  have hbatch : IdentifierBatch toolFiles :=
    ⟨by decide, by decide +kernel, by decide +kernel, by decide⟩
  have hmem : toolFile ∈ toolFiles := .tail _ (.head _)
  obtain ⟨c, hc, hpackage, hm⟩ : ∃ c, toolFile.toRos (.ofFiles toolFiles) .auto = .ok c ∧
      c.schema.package = ["tool"] ∧ toolMessage ∈ c.schema.messages := ⟨_, rfl, rfl, .head _⟩
  obtain ⟨hparses, hreread, -⟩ := reread_toRos hbatch hmem hc hm
  obtain ⟨s', hs'⟩ := hparses.2 (by rw [hpackage]; decide +kernel)
  obtain ⟨-, hback, -, m', hm', -, hfields⟩ := hreread s' hs'
  refine ⟨hbatch, hmem, c, hc, hm, s', hs', ?_, m', hm', ?_⟩
  · rw [hback, hpackage]
    rfl
  · rw [hpackage] at hfields
    obtain ⟨pose, _, hpose, hafterPose, heq⟩ := List.forall₂_cons_left_iff.1 hfields
    obtain ⟨label, _, hlabel, hafterLabel, rfl⟩ := List.forall₂_cons_left_iff.1 hafterPose
    obtain ⟨joints, _, hjoints, hend, rfl⟩ := List.forall₂_cons_left_iff.1 hafterLabel
    obtain rfl := List.forall₂_nil_left_iff.1 hend
    have hposeBack : TypeName.ComesBack (rereadNames toolFiles .auto) ["tool"] ⟨["geo"], ["Pose"]⟩ :=
      .qualified rfl (by decide) (by decide) (.inl (by decide +kernel))
    have hjointBack : TypeName.ComesBack (rereadNames toolFiles .auto) ["tool"] ⟨["tool"], ["Joint"]⟩ :=
      .bare (.inr rfl) (by decide) (by decide) (.inl (by decide +kernel))
    rw [heq]
    exact .cons ((hpose.message _ rfl).2 hposeBack) (.cons (hlabel.wellKnown _ rfl)
      (.cons ((hjoints.message _ rfl).2 hjointBack) .nil))

/-- A message in a package of two segments. -/
def linkMessage : Message :=
  { name := "Link", fields := [{ name := "angle", type := .scalar .float64 }] }

/-- A file that refers to it. -/
def benchFile : Schema :=
  messageFile ["bench"]
    { name := "Bench", fields := [{ name := "link", type := .named ".robot.arm.Link" }] }

/-- A batch of both. -/
def linkFiles : List Schema := [messageFile ["robot", "arm"] linkMessage, benchFile]

/-- What the second file becomes. -/
def benchMessage : Message :=
  { name := "Bench", fields := [{ name := "link", type := .message ⟨["robot", "arm"], ["Link"]⟩ }] }

/-- The directory of the link is its package once its text is parsed, and the reference to it, which has
its whole package, finds nothing. -/
theorem reread_toRos_linkFiles :
    IdentifierBatch linkFiles ∧
      (∃ c, (messageFile ["robot", "arm"] linkMessage).toRos (.ofFiles linkFiles) .auto = .ok c ∧
        linkMessage ∈ c.schema.messages ∧ c.schema.package = ["robot", "arm"] ∧
          ∃ s', reread (c.schema.package, linkMessage) = .ok s' ∧ s'.package = ["arm"]) ∧
      ∃ c, benchFile.toRos (.ofFiles linkFiles) .auto = .ok c ∧ benchMessage ∈ c.schema.messages ∧
        ∃ s' m' g, reread (c.schema.package, benchMessage) = .ok s' ∧ s'.messages = [m'] ∧
          m'.fields = [g] ∧ ∃ e, g.resolve (.ofFiles (rereadFiles linkFiles .auto)) .ros s'.name
            ⟨s'.package, [m'.name]⟩ = .error e := by
  refine ⟨⟨by decide, by decide +kernel, by decide +kernel, by decide⟩, ?_, ?_⟩
  · exact ⟨_, rfl, .head _, rfl, _, rfl, rfl⟩
  · exact ⟨_, rfl, .head _, _, _, _, rfl, rfl, rfl, _, rfl⟩

end SchemaBridge
