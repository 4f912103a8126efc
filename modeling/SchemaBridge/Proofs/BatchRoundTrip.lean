import SchemaBridge.Batch
import SchemaBridge.Proofs.FileRoundTrip

/-!
# Batches of ROS messages on their way to proto3 and back

`roundTrip` takes the files of a batch through proto3: they are mapped, written as descriptors, decoded,
mapped back, rendered and parsed again. Every step finds types in a table of the batch as it is at that
step.

A batch comes back whole, with every reference meaning what it meant, exactly if the messages that are
referred to are declared once each.
-/

namespace SchemaBridge

open RosText

/-! ## There and back -/

/-- Why a batch does not come back. -/
inductive RoundTripError where
  | mapping (error : ConversionError)
  | descriptor (error : DescriptorError)
  | text (error : ParseError)
deriving DecidableEq

/-- A file as a proto3 file, written as a descriptor and decoded. -/
def Schema.throughDescriptor (table : SymbolTable) (s : Schema) : Except RoundTripError Schema := do
  let conversion ← (s.toProto table).mapError .mapping
  (Schema.ofDescriptor conversion.schema.toDescriptor).mapError .descriptor

/-- A decoded file as ROS messages, each rendered and parsed under the path of its own file. -/
def Schema.throughText (table : SymbolTable) (repr : EnumRepr) (s : Schema) :
    Except RoundTripError (List Schema) := do
  let conversion ← (s.toRos table repr).mapError .mapping
  let package := conversion.schema.package
  conversion.schema.messages.mapM fun m =>
    (parse (render package m) (rosFileName package m.name)).mapError .text

/-- The files of a batch once they have gone through proto3 and back. -/
def roundTrip (repr : EnumRepr) (files : List Schema) : Except RoundTripError (List Schema) := do
  let decoded ← files.mapM (Schema.throughDescriptor (.ofFiles files))
  let written ← decoded.mapM (Schema.throughText (.ofFiles decoded) repr)
  pure written.flatten

/-- The messages that the files of a batch declare. -/
def declaredMessages (files : List Schema) : List TypeName := files.flatMap Schema.messageNames

/-- A field of the batch refers to the message `n`. -/
def RefersTo (files : List Schema) (n : TypeName) : Prop :=
  ∃ s ∈ files, ∃ r, s.resolve (.ofFiles files) = .ok r ∧
    ∃ m ∈ r.messages, ∃ f ∈ m.fields, f.type = .message n

/-- A field that came back: it has the same name, is repeated if it was, and its type means what it
meant, but for the scalars that proto3 lacks. -/
structure Field.Restored (t t' : SymbolTable) (file file' : String) (enclosing : TypeName)
    (f f' : Field) : Prop where
  name : f'.name = f.name
  repeated : f'.repeated = f.repeated
  type : ∃ type, f.resolve t .ros file enclosing = .ok { f with type := type } ∧
    f'.resolve t' .ros file' enclosing = .ok { f' with type := type.returned }

/-- A file that came back: its package, its messages, and their fields in their order. -/
structure Schema.Restored (t t' : SymbolTable) (s s' : Schema) : Prop where
  dialect : s'.dialect = .ros
  package : s'.package = s.package
  messages : List.Forall₂ (fun m m' =>
    m'.name = m.name ∧
      List.Forall₂ (Field.Restored t t' s.name s'.name ⟨s.package, [m.name]⟩) m.fields m'.fields)
    s.messages s'.messages

/-! ## Parsed files -/

variable {s : Schema} {m : Message} {text path : String} {t : SymbolTable} {names : List TypeName}
  {f g : Field} {files : List Schema}

/-- What a parsed file declares: one message, whose fields have the spellings of ROS. -/
structure Parsed (s : Schema) (m : Message) : Prop where
  single : s.Single m
  dialect : s.dialect = .ros
  name : isMessageName m.name = true
  length : s.package.length ≤ 1
  parts : ∀ part ∈ s.package, IsPathPart part
  fields : ∀ f ∈ m.fields, IsIdentifier f.name.toList ∧
    ∃ spelling base, BaseSpelling spelling base none ∧ f.type = base.typeRef
  distinct : (m.fields.map (·.name)).Nodup

theorem exists_parsed (h : parse text path = .ok s) : ∃ m, Parsed s m := by
  obtain ⟨package, name, found, hpath, hname, hnodup, hfound, rfl⟩ := exists_lines_of_parse h
  obtain ⟨hlength, hparts⟩ := isPathPart_of_namedByPath hpath
  have hwritable : Writable package (messageOfLines name found) :=
    writable_messageOfLines hname hfound hnodup
  refine ⟨messageOfLines name found, ⟨rfl, rfl, rfl, rfl⟩, rfl, hname, hlength, hparts,
    fun f hf => ?_, (List.nodup_append.1 hwritable.distinct).1⟩
  obtain ⟨l, hl, heq⟩ := mem_fields hf
  obtain ⟨-, ⟨spelling, hbase⟩, -⟩ := hfound _ hl
  exact ⟨(hwritable.fields f hf).name, spelling, l.type.base, hbase, congrArg Field.type heq⟩

theorem isIdentifier_of_isMessageName {name : String} (h : isMessageName name = true) :
    IsIdentifier name.toList := by
  have hword := forall_isWordChar_of_isMessageName h
  cases hcs : name.toList with
  | nil => simp [isMessageName, hcs] at h
  | cons c cs =>
    have halpha : c.isAlpha = true := by
      simp only [isMessageName, hcs, List.head?_cons, Option.any_some, Bool.and_eq_true] at h
      exact h.1
    exact ⟨by simp [isWordStart, halpha], fun d hd => hword d (hcs ▸ List.mem_cons_of_mem _ hd)⟩

theorem Parsed.isPlain (h : Parsed s m) (hsegments : ∀ p ∈ s.package, IsSegment p) :
    TypeName.IsPlain ⟨s.package, [m.name]⟩ :=
  isPlain_own h.length hsegments (isIdentifier_of_isMessageName h.name)

/-- A resolved field of a parsed file is known, if the batch declares the messages it refers to. -/
theorem Parsed.known (h : Parsed s m) (ht : t.Lists names) (hspelled : Spelled names)
    (hsegments : ∀ p ∈ s.package, IsSegment p) (hf : f ∈ m.fields)
    (hresolve : f.resolve t .ros s.name ⟨s.package, [m.name]⟩ = .ok g)
    (hdeclared : ∀ n, g.type = .message n → n ∈ names) :
    g.Known names s.package := by
  obtain ⟨hname, spelling, base, hbase, htype⟩ := h.fields f hf
  cases base with
  | scalar scalar =>
    have hscalar : f.type = .scalar scalar := htype
    simp only [Field.resolve, hscalar] at hresolve
    obtain rfl : f = g := Except.ok.inj hresolve
    refine ⟨hname, ?_, hdeclared⟩
    generalize hbound : none = bound at hbase
    rw [hscalar]
    cases hbase with
    | scalar hs => exact .scalar (by rw [Scalar.keyword, hs]; rfl)
    | bounded => cases hbound
  | named reference =>
    have hnamed : f.type = .named reference := htype
    simp only [Field.resolve, hnamed, Site.resolve] at hresolve
    obtain ⟨type, hmeant, hresolve⟩ := bind_eq_ok_iff.1 hresolve
    obtain rfl : { f with type := type } = g := Except.ok.inj hresolve
    have hspellable := spellable_of_resolveRos ht hspelled rfl h.length hsegments hbase hmeant
      hdeclared
    exact ⟨hname, hspellable, hdeclared⟩

/-! ## Batches that can be converted -/

/-- A batch of sources that can be read and mapped to proto3, whose files have no dots in their
packages and are not named after scalars, and whose references lead to messages of the batch or to
well-known types. -/
structure Convertible (sources : List Batch.Source) (files : List Schema) : Prop where
  parsed : sources.mapM (fun source => parse source.text source.path) = .ok files
  accepted : ∀ s ∈ files, ∃ conversion, s.toProto (.ofFiles files) = .ok conversion ∧
    conversion.schema.toDescriptor.length < UInt64.size
  declared : ∀ n, RefersTo files n → n ∈ declaredMessages files
  packages : ∀ s ∈ files, ∀ p ∈ s.package, '.' ∉ p.toList ∧ p ≠ "msg"
  names : ∀ s ∈ files, ∀ m ∈ s.messages, Scalar.ofRosKeyword? m.name = none

variable {sources : List Batch.Source} {fields : List Field} {n : TypeName}

/-- A parsed file of the batch, the fields of its message being resolved to `fields`. -/
structure Mapped (files : List Schema) (s : Schema) (m : Message) (fields : List Field) : Prop where
  parsed : Parsed s m
  resolved : m.fields.mapM (Field.resolve (.ofFiles files) .ros s.name ⟨s.package, [m.name]⟩) =
    .ok fields
  known : ∀ f ∈ fields, f.Known (declaredMessages files) s.package

theorem Mapped.distinct (h : Mapped files s m fields) : (fields.map (·.name)).Nodup := by
  rw [names_resolved h.resolved]
  exact h.parsed.distinct

theorem Mapped.resolve_eq (h : Mapped files s m fields) :
    s.resolve (.ofFiles files) = .ok { s with messages := [{ m with fields := fields }] } :=
  h.parsed.single.resolve_eq_ok_iff.2 ⟨fields, by rw [h.parsed.dialect]; exact h.resolved, rfl⟩

/-- What the resolved fields of a file refer to, the batch refers to. -/
theorem Mapped.refersTo (h : Mapped files s m fields) (hs : s ∈ files) (hf : f ∈ fields)
    (htype : f.type = .message n) : RefersTo files n :=
  ⟨s, hs, _, h.resolve_eq, _, List.mem_singleton_self _, f, hf, htype⟩

theorem Mapped.mem_fields {r : Schema} {m' : Message} (h : Mapped files s m fields)
    (hr : s.resolve (.ofFiles files) = .ok r) (hm' : m' ∈ r.messages) (hf : f ∈ m'.fields) :
    f ∈ fields := by
  obtain rfl := Except.ok.inj (h.resolve_eq.symm.trans hr)
  obtain rfl := List.mem_singleton.1 hm'
  exact hf

/-- A decoded file, and the file of the batch that it comes from. -/
def DecodedFrom (files : List Schema) (s d : Schema) : Prop :=
  ∃ m fields m', s ∈ files ∧ Mapped files s m fields ∧ Decoded s.package m.name fields d m'

namespace Convertible

theorem exists_parsed (h : Convertible sources files) : ∀ s ∈ files, ∃ m, Parsed s m := by
  intro s hs
  obtain ⟨source, -, hsource⟩ := exists_of_mem_left (mapM_eq_ok_iff.1 h.parsed).flip s hs
  exact SchemaBridge.exists_parsed hsource

theorem isSegment (h : Convertible sources files) (hs : s ∈ files) : ∀ p ∈ s.package, IsSegment p := by
  intro p hp
  obtain ⟨m, hparsed⟩ := h.exists_parsed s hs
  exact ⟨(hparsed.parts p hp).1, (h.packages s hs p hp).1⟩

theorem isPlain (h : Convertible sources files) : ∀ n ∈ declaredMessages files, n.IsPlain := by
  intro n hn
  obtain ⟨s, hs, hn⟩ := List.mem_flatMap.1 hn
  obtain ⟨m, hparsed⟩ := h.exists_parsed s hs
  rw [hparsed.single.messageNames_eq] at hn
  rw [List.mem_singleton.1 hn]
  exact hparsed.isPlain (h.isSegment hs)

theorem lists (h : Convertible sources files) :
    (SymbolTable.ofFiles files).Lists (declaredMessages files) := by
  refine lists_ofFiles (fun s hs => ?_) h.isPlain
  obtain ⟨m, hparsed⟩ := h.exists_parsed s hs
  exact ⟨m, hparsed.single⟩

theorem spelled (h : Convertible sources files) : Spelled (declaredMessages files) := by
  intro package name hn
  obtain ⟨s, hs, hn⟩ := List.mem_flatMap.1 hn
  obtain ⟨m, hm, heq⟩ := List.mem_map.1 hn
  obtain rfl : m.name = name := by
    simpa [TypeName.child, TypeName.root] using congrArg TypeName.path heq
  exact h.names s hs m hm

theorem exists_mapped (h : Convertible sources files) :
    ∀ s ∈ files, ∃ m fields, Mapped files s m fields := by
  intro s hs
  obtain ⟨m, hparsed⟩ := h.exists_parsed s hs
  obtain ⟨conversion, hconversion, -⟩ := h.accepted s hs
  have hresolve : ∃ fields, m.fields.mapM
      (Field.resolve (.ofFiles files) s.dialect s.name ⟨s.package, [m.name]⟩) = .ok fields := by
    rw [Schema.toProto] at hconversion
    obtain ⟨r, hr, -⟩ := bind_eq_ok_iff.1 hconversion
    obtain ⟨fields, hfields, -⟩ := hparsed.single.resolve_eq_ok_iff.1 hr
    exact ⟨fields, hfields⟩
  obtain ⟨fields, hfields⟩ := hresolve
  have hr := hparsed.single.resolve_eq_ok_iff.2 ⟨fields, hfields, rfl⟩
  rw [hparsed.dialect] at hfields
  refine ⟨m, fields, hparsed, hfields, fun g hg => ?_⟩
  obtain ⟨f, hf, hresolve⟩ := exists_of_mem_left (mapM_eq_ok_iff.1 hfields).flip g hg
  refine hparsed.known h.lists h.spelled (h.isSegment hs) hf hresolve fun n hn => h.declared n ?_
  exact ⟨s, hs, _, hr, _, List.mem_singleton_self _, g, hg, hn⟩

/-- All files of the batch are decoded again. -/
theorem exists_decoded (h : Convertible sources files) :
    ∃ decoded, files.mapM (Schema.throughDescriptor (.ofFiles files)) = .ok decoded ∧
      List.Forall₂ (DecodedFrom files) files decoded := by
  have hsame : List.Forall₂ (fun s s' => s = s' ∧ s ∈ files) files files :=
    List.forall₂_same.2 fun s hs => ⟨rfl, hs⟩
  refine exists_mapM_eq_ok hsame fun s s' ⟨heq, hs⟩ => ?_
  subst heq
  obtain ⟨m, fields, hmapped⟩ := h.exists_mapped s hs
  obtain ⟨conversion, hconversion, hlen⟩ := h.accepted s hs
  have hfields := hmapped.resolved
  rw [← hmapped.parsed.dialect] at hfields
  obtain ⟨d, m', hd, hdecoded⟩ := SchemaBridge.exists_decoded hmapped.parsed.single (h.isSegment hs)
    hfields hconversion hlen
  refine ⟨d, ?_, m, fields, m', hs, hmapped, hdecoded⟩
  rw [Schema.throughDescriptor, hconversion]
  simp only [Except.mapError, bind, Except.bind, hd]

end Convertible

/-- Files that declare the same messages as those of the batch have a table of the same names. -/
theorem lists_of_forall₂ {files' : List Schema}
    (hplain : ∀ n ∈ declaredMessages files, n.IsPlain)
    (h : List.Forall₂ (fun s s' => s'.messageNames = s.messageNames ∧ ∃ m, s'.Single m) files files') :
    (SymbolTable.ofFiles files').Lists (declaredMessages files) := by
  have hnames : declaredMessages files' = declaredMessages files := by
    rw [declaredMessages, declaredMessages, List.flatMap_def, List.flatMap_def,
      map_eq_of_forall₂ (h.imp fun _ _ hs => hs.1)]
  rw [← hnames] at hplain ⊢
  refine lists_ofFiles (fun s' hs' => ?_) hplain
  obtain ⟨s, -, -, hsingle⟩ := exists_of_mem_left h.flip s' hs'
  exact hsingle

/-- A file that was parsed again, its fields being spelled as the types that come back. -/
structure Reread (package : List String) (name : String) (fields : List Field) (s : Schema)
    (m : Message) : Prop where
  single : s.Single m
  dialect : s.dialect = .ros
  fields : List.Forall₂ (fun f g => g.name = f.name ∧ g.repeated = f.repeated ∧
    g.type = (spelledBase (typeText package f.type.returned)).typeRef) fields m.fields
  package : s.package = package
  name : m.name = name

/-- A decoded file is written and parsed again, if the messages it refers to are declared once. -/
theorem Decoded.throughText_eq {d : Schema} {m' : Message} {names : List TypeName}
    (hd : Decoded s.package m.name fields d m')
    (ht : t.Lists names) (repr : EnumRepr) (hparsed : Parsed s m)
    (hparts : ∀ p ∈ s.package, '.' ∉ p.toList ∧ p ≠ "msg")
    (hknown : ∀ f ∈ fields, f.Known names s.package) (hdistinct : (fields.map (·.name)).Nodup)
    (honce : ∀ f ∈ fields, f.RefersOnce names) :
    ∃ s' m', d.throughText t repr = .ok [s'] ∧ Reread s.package m.name fields s' m' := by
  have hparts : ∀ p ∈ s.package, IsPathPart p ∧ '.' ∉ p.toList ∧ p ≠ "msg" := fun p hp =>
    ⟨hparsed.parts p hp, hparts p hp⟩
  have hplain := hparsed.isPlain fun p hp => ⟨(hparts p hp).1.1, (hparts p hp).2.1⟩
  obtain ⟨conversion, ros, hros, hpackage, hmessages, hreturned⟩ :=
    exists_toRos repr hd ht hplain hknown hdistinct honce
  have hparse := parse_rosFile hreturned hparsed.name hparsed.length hparts hknown hdistinct
  let s' : Schema :=
    { name := rosFileName s.package m.name
      dialect := .ros
      package := s.package
      messages := [rereadMessage s.package m.name ros] }
  refine ⟨s', rereadMessage s.package m.name ros, ?_, ⟨rfl, rfl, rfl, rfl⟩, rfl,
    fields_rosFile hreturned, rfl, rfl⟩
  rw [Schema.throughText, hros]
  simp only [Except.mapError, bind, Except.bind, hpackage, hmessages, List.mapM_cons, List.mapM_nil,
    hparse]
  rfl

/-- A file that was parsed again is restored, if the messages it refers to are declared once. -/
theorem Reread.restored {s' : Schema} {m' : Message} (hr : Reread s.package m.name fields s' m')
    (h : Mapped files s m fields) (ht : t.Lists names) (honce : ∀ f ∈ fields, f.RefersOnce names) :
    s.Restored (.ofFiles files) t s' where
  dialect := hr.dialect
  package := hr.package
  messages := by
    have hall := forall₂_trans (mapM_eq_ok_iff.1 h.resolved) (forall₂_with_mem hr.fields)
    rw [h.parsed.single.messages, hr.single.messages]
    refine .cons ⟨hr.name, hall.imp fun f f' hff' => ?_⟩ .nil
    obtain ⟨g, hresolve, hg, -, hname, hrepeated, htype⟩ := hff'
    obtain ⟨type, rfl⟩ := exists_type_of_resolve hresolve
    refine ⟨hname, hrepeated, type, hresolve, ?_⟩
    exact resolve_spelled ht (h.known _ hg).type.returned htype rfl fun n hn =>
      honce _ hg n (returned_eq_message_iff.1 hn)

/-! ## The batch -/

namespace Convertible

variable {decoded : List Schema} {repr : EnumRepr}

theorem lists_decoded (h : Convertible sources files)
    (hall : List.Forall₂ (DecodedFrom files) files decoded) :
    (SymbolTable.ofFiles decoded).Lists (declaredMessages files) := by
  refine lists_of_forall₂ h.isPlain (hall.imp fun s d hsd => ?_)
  obtain ⟨m, fields, m', -, hmapped, hd⟩ := hsd
  rw [hd.single.messageNames_eq, hmapped.parsed.single.messageNames_eq, hd.package, hd.name]
  exact ⟨rfl, m', hd.single⟩

/-- A batch that comes back declares every message that it refers to once. -/
theorem count_eq_one (h : Convertible sources files) {result : List Schema}
    (hresult : roundTrip repr files = .ok result) (hn : RefersTo files n) :
    (declaredMessages files).count n = 1 := by
  obtain ⟨decoded, hdecoded, hall⟩ := h.exists_decoded
  obtain ⟨s, hs, r, hr, m₀, hm₀, f, hf, htype⟩ := hn
  obtain ⟨d, hd, m, fields, m', -, hmapped, hdec⟩ := exists_of_mem_left hall s hs
  have hwritten : ∃ written, decoded.mapM (Schema.throughText (.ofFiles decoded) repr) =
      .ok written := by
    cases hw : decoded.mapM (Schema.throughText (.ofFiles decoded) repr) with
    | error e => simp [roundTrip, hdecoded, hw, bind, Except.bind] at hresult
    | ok written => exact ⟨written, rfl⟩
  obtain ⟨written, hwritten⟩ := hwritten
  obtain ⟨out, hout⟩ := exists_of_mapM_eq_ok hwritten d hd
  cases hros : d.toRos (.ofFiles decoded) repr with
  | error e => simp [Schema.throughText, hros, Except.mapError, bind, Except.bind] at hout
  | ok conversion =>
    exact refersOnce_of_toRos hdec (h.lists_decoded hall) hmapped.known hros f
      (hmapped.mem_fields hr hm₀ hf) n htype

/-- A batch that declares every message that it refers to once comes back. -/
theorem exists_restored (h : Convertible sources files)
    (hcount : ∀ n, RefersTo files n → (declaredMessages files).count n = 1) :
    ∃ result, roundTrip repr files = .ok result ∧
      List.Forall₂ (Schema.Restored (.ofFiles files) (.ofFiles result)) files result := by
  obtain ⟨decoded, hdecoded, hall⟩ := h.exists_decoded
  have hwritten : ∃ written,
      decoded.mapM (Schema.throughText (.ofFiles decoded) repr) = .ok written ∧
        List.Forall₂ (fun s out => ∃ s', out = [s'] ∧ ∃ m fields m', Mapped files s m fields ∧
          Reread s.package m.name fields s' m' ∧ ∀ f ∈ fields,
            f.RefersOnce (declaredMessages files)) files written := by
    refine exists_mapM_eq_ok hall fun s d ⟨m, fields, m', hs, hmapped, hd⟩ => ?_
    have honce : ∀ f ∈ fields, f.RefersOnce (declaredMessages files) := fun f hf n hn =>
      hcount n (hmapped.refersTo hs hf hn)
    obtain ⟨s', m'', hs', hreread⟩ := hd.throughText_eq (h.lists_decoded hall) repr hmapped.parsed
      (h.packages s hs) hmapped.known hmapped.distinct honce
    exact ⟨[s'], hs', s', rfl, m, fields, m'', hmapped, hreread, honce⟩
  obtain ⟨written, hwritten, hreread⟩ := hwritten
  have hresult := forall₂_flatten hreread
  have ht : (SymbolTable.ofFiles written.flatten).Lists (declaredMessages files) := by
    refine lists_of_forall₂ h.isPlain (hresult.imp fun s s' hs => ?_)
    obtain ⟨m, fields, m', hmapped, hr, -⟩ := hs
    rw [hr.single.messageNames_eq, hmapped.parsed.single.messageNames_eq, hr.package, hr.name]
    exact ⟨rfl, m', hr.single⟩
  refine ⟨written.flatten, ?_, hresult.imp fun s s' hs => ?_⟩
  · simp only [roundTrip, hdecoded, hwritten, bind, Except.bind]
    rfl
  · obtain ⟨m, fields, m', hmapped, hr, honce⟩ := hs
    exact hr.restored hmapped ht honce

end Convertible

/-- A batch comes back exactly if every message that it refers to is declared once in it, and then
all its files are restored. -/
theorem roundTrip_eq_ok_iff (repr : EnumRepr) (h : Convertible sources files) :
    ((∃ result, roundTrip repr files = .ok result) ↔
        ∀ n, RefersTo files n → (declaredMessages files).count n = 1) ∧
      ∀ result, roundTrip repr files = .ok result →
        List.Forall₂ (Schema.Restored (.ofFiles files) (.ofFiles result)) files result := by
  refine ⟨⟨fun ⟨result, hresult⟩ n hn => h.count_eq_one hresult hn, fun hcount => ?_⟩,
    fun result hresult => ?_⟩
  · obtain ⟨result, hresult, -⟩ := h.exists_restored hcount
    exact ⟨result, hresult⟩
  · obtain ⟨result', hresult', hrestored⟩ :=
      h.exists_restored fun n hn => h.count_eq_one hresult hn
    obtain rfl := Except.ok.inj (hresult'.symm.trans hresult)
    exact hrestored

/-! ## A header that two files declare -/

/-- A message with a header, and the files under the given paths that declare the header. -/
def headerSources (paths : List String) : List Batch.Source :=
  ⟨"a/Stamped.msg", "Header header\nuint8[] data\n"⟩ :: paths.map fun path => ⟨path, "int32 seq\n"⟩

/-- The schema of a message with a header of the given type. -/
def stampedFile (header : TypeRef) : Schema :=
  { name := "a/Stamped.msg"
    package := ["a"]
    messages :=
      [{ name := "Stamped"
         fields :=
           [{ name := "header", type := header },
            { name := "data", type := .scalar .uint8, repeated := true }] }] }

/-- The schema of a header. -/
def headerFile (path : String) : Schema :=
  { name := path
    package := ["std_msgs"]
    messages := [{ name := "Header", fields := [{ name := "seq", type := .scalar .int32 }] }] }

/-- The schemas of a message with a header, and of the header under the given paths. -/
def headerFiles (paths : List String) : List Schema :=
  stampedFile (.named "Header") :: paths.map headerFile

/-- The name of the header. -/
def headerName : TypeName := ⟨["std_msgs"], ["Header"]⟩

variable {paths : List String}

theorem refersTo_headerFiles
    (hresolve : (stampedFile (.named "Header")).resolve (.ofFiles (headerFiles paths)) =
      .ok (stampedFile (.message headerName))) :
    RefersTo (headerFiles paths) n ↔ n = headerName := by
  constructor
  · intro ⟨s, hs, r, hr, m, hm, f, hf, htype⟩
    rcases List.mem_cons.1 hs with rfl | hs
    · obtain rfl := Except.ok.inj (hresolve.symm.trans hr)
      obtain rfl := List.mem_singleton.1 hm
      simp only [List.mem_cons, List.not_mem_nil, or_false] at hf
      rcases hf with rfl | rfl
      · exact (TypeRef.message.inj htype).symm
      · cases htype
    · obtain ⟨path, -, rfl⟩ := List.mem_map.1 hs
      obtain rfl : headerFile path = r := Except.ok.inj hr
      obtain rfl := List.mem_singleton.1 hm
      obtain rfl := List.mem_singleton.1 hf
      cases htype
  · rintro rfl
    exact ⟨_, List.mem_cons_self .., _, hresolve, _, List.mem_singleton_self _, _,
      List.mem_cons_self .., rfl⟩

theorem convertible_headerFiles (hne : paths ≠ [])
    (hparsed : (headerSources paths).mapM (fun source => parse source.text source.path) =
      .ok (headerFiles paths))
    (hresolve : (stampedFile (.named "Header")).resolve (.ofFiles (headerFiles paths)) =
      .ok (stampedFile (.message headerName))) :
    Convertible (headerSources paths) (headerFiles paths) where
  parsed := hparsed
  accepted s hs := by
    rcases List.mem_cons.1 hs with rfl | hs
    · refine ⟨_, by rw [Schema.toProto, hresolve]; rfl, ?_⟩
      decide +kernel
    · obtain ⟨path, -, rfl⟩ := List.mem_map.1 hs
      let proto : Schema :=
        { name := "std_msgs/header.proto"
          dialect := .proto3
          package := ["std_msgs"]
          messages :=
            [{ name := "Header"
               fields := [{ name := "seq", type := .scalar .int32, ordinal := some 1 }] }] }
      exact ⟨⟨proto, []⟩, rfl, by decide +kernel⟩
  declared n hn := by
    obtain rfl := (refersTo_headerFiles hresolve).1 hn
    obtain ⟨path, rest, rfl⟩ := List.exists_cons_of_ne_nil hne
    simp [declaredMessages, headerFiles, headerFile, Schema.messageNames, headerName, TypeName.child,
      TypeName.root]
  packages s hs p hp := by
    rcases List.mem_cons.1 hs with rfl | hs
    · obtain rfl := List.mem_singleton.1 hp
      decide
    · obtain ⟨path, -, rfl⟩ := List.mem_map.1 hs
      obtain rfl := List.mem_singleton.1 hp
      decide
  names s hs m hm := by
    rcases List.mem_cons.1 hs with rfl | hs
    · obtain rfl := List.mem_singleton.1 hm
      decide
    · obtain ⟨path, -, rfl⟩ := List.mem_map.1 hs
      obtain rfl := List.mem_singleton.1 hm
      decide

/-- A batch that declares the header once comes back, and a batch that declares it twice does not,
although its files can be read and mapped to proto3. -/
theorem roundTrip_headerFiles :
    let once := ["std_msgs/Header.msg"]
    let twice := ["one/std_msgs/Header.msg", "two/std_msgs/Header.msg"]
    (Convertible (headerSources once) (headerFiles once) ∧
      ∃ result, roundTrip .auto (headerFiles once) = .ok result ∧
        List.Forall₂ (Schema.Restored (.ofFiles (headerFiles once)) (.ofFiles result))
          (headerFiles once) result) ∧
      Convertible (headerSources twice) (headerFiles twice) ∧
        ¬ ∃ result, roundTrip .auto (headerFiles twice) = .ok result := by
  intro once twice
  have honce : (stampedFile (.named "Header")).resolve (.ofFiles (headerFiles once)) =
      .ok (stampedFile (.message headerName)) := by rfl
  have htwice : (stampedFile (.named "Header")).resolve (.ofFiles (headerFiles twice)) =
      .ok (stampedFile (.message headerName)) := by rfl
  have hconvertible : Convertible (headerSources once) (headerFiles once) :=
    convertible_headerFiles (by decide) (by rfl) honce
  have hconvertible' : Convertible (headerSources twice) (headerFiles twice) :=
    convertible_headerFiles (by decide) (by rfl) htwice
  obtain ⟨hiff, hrestored⟩ := roundTrip_eq_ok_iff .auto hconvertible
  obtain ⟨hiff', -⟩ := roundTrip_eq_ok_iff .auto hconvertible'
  have hcount : ∀ n, RefersTo (headerFiles once) n →
      (declaredMessages (headerFiles once)).count n = 1 := by
    intro n hn
    obtain rfl := (refersTo_headerFiles honce).1 hn
    decide
  obtain ⟨result, hresult⟩ := hiff.2 hcount
  refine ⟨⟨hconvertible, result, hresult, hrestored result hresult⟩, hconvertible', fun h => ?_⟩
  have hcount' := hiff'.1 h headerName ((refersTo_headerFiles htwice).2 rfl)
  exact absurd hcount' (by decide)

end SchemaBridge
