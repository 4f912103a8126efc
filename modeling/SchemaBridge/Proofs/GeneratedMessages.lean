import Mathlib.Data.Nat.Digits.Lemmas
import SchemaBridge.Proofs.BatchRoundTrip
import SchemaBridge.Proofs.Flattening

/-!
# Messages that are generated

In a batch of proto3 files whose names are identifiers (`IdentifierBatch`), a message that a file becomes
has identifiers for names, types that ROS has, integers for the values of constants, and comments of one
line each, all names in it being different (`isGenerated_of_toRos`).
-/

namespace SchemaBridge

open RosText Text

/-! ## Batches of identifiers -/

/-- Comments of one line each. -/
def OneLine (comments : List String) : Prop := ∀ text ∈ comments, '\n' ∉ text.toList

instance (comments : List String) : Decidable (OneLine comments) :=
  inferInstanceAs (Decidable (∀ text ∈ comments, '\n' ∉ text.toList))

/-- The name of a type whose segments are identifiers. -/
structure TypeName.OfIdentifiers (n : TypeName) : Prop where
  path : n.path ≠ []
  segments : ∀ s ∈ n.package ++ n.path, IsIdentifier s.toList

instance (n : TypeName) : Decidable n.OfIdentifiers :=
  decidable_of_iff (n.path ≠ [] ∧ ∀ s ∈ n.package ++ n.path, IsIdentifier s.toList)
    ⟨fun h => ⟨h.1, h.2⟩, fun h => ⟨h.path, h.segments⟩⟩

/-- What is asked of the message that a type refers to, if it refers to one, can be decided. -/
instance (type : TypeRef) (P : TypeName → Prop) [DecidablePred P] :
    Decidable (∀ n, type = .message n → P n) :=
  match type with
  | .message n => decidable_of_iff (P n) (by simp)
  | .scalar _ | .named _ | .enum _ | .wellKnown _ => .isTrue (by simp)

/-- A field as a proto3 file declares it; a type that is resolved already has identifiers for names. -/
structure Field.OfIdentifiers (f : Field) : Prop where
  name : IsIdentifier f.name.toList
  comments : OneLine f.comments
  reference : ∀ n, f.type = .message n → n.OfIdentifiers

instance (f : Field) : Decidable f.OfIdentifiers :=
  decidable_of_iff (IsIdentifier f.name.toList ∧ OneLine f.comments ∧
      ∀ n, f.type = .message n → n.OfIdentifiers)
    ⟨fun h => ⟨h.1, h.2.1, h.2.2⟩, fun h => ⟨h.name, h.comments, h.reference⟩⟩

/-- An enum as a proto3 file declares it. -/
structure EnumDef.OfIdentifiers (e : EnumDef) : Prop where
  name : IsIdentifier e.name.toList
  comments : OneLine e.comments
  values : ∀ v ∈ e.values, IsIdentifier v.name.toList ∧ OneLine v.comments

instance (e : EnumDef) : Decidable e.OfIdentifiers :=
  decidable_of_iff (IsIdentifier e.name.toList ∧ OneLine e.comments ∧
      ∀ v ∈ e.values, IsIdentifier v.name.toList ∧ OneLine v.comments)
    ⟨fun h => ⟨h.1, h.2.1, h.2.2⟩, fun h => ⟨h.name, h.comments, h.values⟩⟩

/-- A message as a proto3 file declares it, apart from its name and what is nested in it; constants are
declared in ROS files only. -/
structure Message.OfIdentifiers (m : Message) : Prop where
  fields : ∀ f ∈ m.fields, f.OfIdentifiers
  constants : m.constants = []
  comments : OneLine m.comments

instance (m : Message) : Decidable m.OfIdentifiers :=
  decidable_of_iff ((∀ f ∈ m.fields, f.OfIdentifiers) ∧ m.constants = [] ∧ OneLine m.comments)
    ⟨fun h => ⟨h.1, h.2.1, h.2.2⟩, fun h => ⟨h.fields, h.constants, h.comments⟩⟩

/-- A batch of proto3 files whose names are identifiers, in packages of any number of segments. -/
structure IdentifierBatch (files : List Schema) : Prop where
  dialect : ∀ s ∈ files, s.dialect = .proto3
  names : ∀ p ∈ allMessages files, p.1.OfIdentifiers
  messages : ∀ p ∈ allMessages files, p.2.OfIdentifiers
  enums : ∀ p ∈ allEnums files, p.2.OfIdentifiers

variable {files : List Schema} {repr : EnumRepr} {s r : Schema} {c : Conversion} {m : Message}
  {ros : RosMessage} {f : Field} {rosType : RosType} {n : TypeName} {file message : String}
  {package : List String}

theorem TypeName.OfIdentifiers.isIdentifier_name (h : n.OfIdentifiers) :
    IsIdentifier n.name.toList := by
  rw [TypeName.name, List.getLastD_eq_getLast?, List.getLast?_eq_getLast_of_ne_nil h.path]
  exact h.segments _ (List.mem_append_right _ (List.getLast_mem _))

theorem TypeName.OfIdentifiers.dotFree (h : n.OfIdentifiers) : n.DotFree := fun segment hsegment =>
  (isSegment_of_isIdentifier (h.segments segment hsegment)).2

theorem TypeName.OfIdentifiers.flat (h : n.OfIdentifiers) : n.flat.OfIdentifiers where
  path := by simp [TypeName.flat]
  segments := by
    refine List.forall_mem_append.2 ⟨fun s hs => ?_, by simpa [TypeName.flat] using h.isIdentifier_name⟩
    exact h.segments s (List.mem_append_left _ hs)

theorem newline_not_mem_of_isIdentifier {word : String} (h : IsIdentifier word.toList) :
    '\n' ∉ word.toList := fun hnewline => absurd (h.forall _ hnewline) (by decide)

theorem OneLine.append {comments comments' : List String} (h : OneLine comments)
    (h' : OneLine comments') : OneLine (comments ++ comments') :=
  List.forall_mem_append.2 ⟨h, h'⟩

/-! ## Resolved messages -/

/-- A reference of a batch of identifiers is one to a name of identifiers, once it is resolved. -/
theorem ofIdentifiers_of_resolve_field (hbatch : IdentifierBatch files) {enclosing : TypeName}
    {g : Field} (hf : ∀ n, f.type = .message n → n.OfIdentifiers)
    (h : f.resolve (.ofFiles files) .proto3 file enclosing = .ok g) (hg : g.type = .message n) :
    n.OfIdentifiers := by
  unfold Field.resolve at h
  split at h
  · obtain ⟨type, htype, h⟩ := bind_eq_ok_iff.1 h
    obtain rfl := Except.ok.inj h
    obtain rfl : type = .message n := hg
    obtain ⟨p, hp, rfl⟩ := List.mem_map.1 (declares_of_meant (resolveProto_meant htype))
    exact hbatch.names p hp
  · obtain rfl := Except.ok.inj h
    exact hf n hg

/-- Resolving a field of a proto3 file leaves it one. -/
theorem Field.OfIdentifiers.resolve (hbatch : IdentifierBatch files) {enclosing : TypeName} {g : Field}
    (hf : f.OfIdentifiers) (h : f.resolve (.ofFiles files) .proto3 file enclosing = .ok g) :
    g.OfIdentifiers := by
  have hreference : ∀ n, g.type = .message n → n.OfIdentifiers := fun n hn =>
    ofIdentifiers_of_resolve_field hbatch hf.reference h hn
  obtain ⟨type, rfl⟩ := exists_type_of_resolve h
  exact ⟨hf.name, hf.comments, hreference⟩

/-- Resolving a proto3 message leaves it one. -/
theorem ofIdentifiers_of_resolve (hbatch : IdentifierBatch files) (hs : s ∈ files)
    (hr : s.resolve (.ofFiles files) = .ok r) :
    ∀ p ∈ r.flatten, p.1.OfIdentifiers ∧ p.2.OfIdentifiers := by
  intro q hq
  obtain ⟨p, hp, hname, hresolves⟩ := exists_of_mem_left (Schema.flatten_resolve hr).flip q hq
  have hmem : p ∈ allMessages files := List.mem_flatMap.2 ⟨s, hs, hp⟩
  have hm := hbatch.messages p hmem
  refine ⟨hname ▸ hbatch.names p hmem, fun g hg => ?_, ?_, ?_⟩
  · obtain ⟨f, hf, hfield⟩ := exists_of_mem_left hresolves.fields.flip g hg
    rw [hbatch.dialect s hs] at hfield
    exact (hm.fields f hf).resolve hbatch hfield
  · rw [hresolves.constants, hm.constants]
  · rw [hresolves.comments]
    exact hm.comments

/-! ## What is generated -/

/-- A type as it stands in a generated message: a scalar of ROS, a well-known type, or a message. -/
inductive TypeRef.IsGenerated : TypeRef → Prop where
  | scalar {k : Scalar} (hk : k.rosKeyword? = some k.keyword) : IsGenerated (.scalar k)
  | wellKnown (w : WellKnown) : IsGenerated (.wellKnown w)
  | message {n : TypeName} (hn : n.OfIdentifiers) : IsGenerated (.message n.flat)

/-- A message with names, types and values that can be written, as far as they do not depend on the
package. -/
structure Message.IsGenerated (m : Message) : Prop where
  name : IsIdentifier m.name.toList
  fields : ∀ f ∈ m.fields, IsIdentifier f.name.toList ∧ f.type.IsGenerated ∧ OneLine f.comments
  constants : ∀ c ∈ m.constants, WritableConstant c
  comments : OneLine m.comments
  distinct : (m.fields.map (·.name) ++ m.constants.map (·.name)).Nodup

theorem isDigit_of_mem_repr {c : Char} (n : Nat) (h : c ∈ n.repr.toList) : c.isDigit = true := by
  rw [Nat.repr, String.toList_ofList] at h
  exact Nat.isDigit_of_mem_toDigits (by decide) (by decide) h

theorem toList_toString_negSucc (n : Nat) :
    (toString (Int.negSucc n)).toList = '-' :: (n + 1).repr.toList := by
  show ("-" ++ (n + 1).repr).toList = _
  simp

/-- The text of an integer is digits, and a minus sign perhaps. -/
theorem isDigit_of_mem_toString (number : Int) :
    ∀ c ∈ (toString number).toList, c = '-' ∨ c.isDigit = true := by
  intro c hc
  cases number with
  | ofNat k => exact .inr (isDigit_of_mem_repr k hc)
  | negSucc k =>
    rw [toList_toString_negSucc] at hc
    exact (List.mem_cons.1 hc).imp id (isDigit_of_mem_repr (k + 1))

theorem trim_toString (number : Int) : trim (toString number).toList = (toString number).toList := by
  refine trim_of_forall_not_isBlank fun c hc => ?_
  rcases isDigit_of_mem_toString number c hc with rfl | hdigit
  · decide
  · exact not_isBlank_of_isWordChar (isWordChar_of_isDigit hdigit)

theorem toString_ne_nil (number : Int) : (toString number).toList ≠ [] := by
  cases number with
  | ofNat k =>
    show k.repr.toList ≠ []
    simp [Nat.repr]
  | negSucc k =>
    rw [toList_toString_negSucc]
    simp

theorem constantEnd_toString {k : Scalar} (hk : k ≠ .string) (number : Int) :
    ConstantEnd k (toString number).toList (toString number) none := by
  have hmark : '#' ∉ (toString number).toList := by
    intro hmem
    rcases isDigit_of_mem_toString number '#' hmem with heq | hdigit
    · exact absurd heq (by decide)
    · exact absurd hdigit (by decide)
  have htrim := trim_toString number
  have hvalue : IsValue (toString number).toList :=
    ⟨hmark, by rw [htrim]; exact toString_ne_nil number⟩
  have hend := ConstantEnd.other hk hvalue (show IsOptionalComment [] none from rfl)
  rwa [htrim, List.append_nil, String.ofList_toList] at hend

theorem newline_not_mem_toString (number : Int) : '\n' ∉ (toString number).toList := by
  intro hmem
  rcases isDigit_of_mem_toString number '\n' hmem with heq | hdigit
  · exact absurd heq (by decide)
  · exact absurd hdigit (by decide)

/-! ## Constants of an enum -/

variable {e : EnumDef} {k : Scalar} {constant : Constant}

theorem exists_of_mem_toConstants (h : constant ∈ e.toConstants k) :
    ∃ v ∈ e.values, constant.name = v.name ∧ constant.type = k ∧
      constant.value = toString v.number.toInt ∧
      (constant.comments = v.comments ∨ constant.comments = e.name :: e.comments ++ v.comments) := by
  obtain ⟨name, values, comments⟩ := e
  cases values with
  | nil => cases h
  | cons v values =>
    rcases List.mem_cons.1 h with rfl | h
    · exact ⟨v, List.mem_cons_self .., rfl, rfl, rfl, .inr rfl⟩
    · obtain ⟨v', hv', rfl⟩ := List.mem_map.1 h
      exact ⟨v', List.mem_cons_of_mem _ hv', rfl, rfl, rfl, .inl rfl⟩

theorem names_toConstants (e : EnumDef) (k : Scalar) :
    (e.toConstants k).map (·.name) = e.values.map (·.name) := by
  obtain ⟨name, values, comments⟩ := e
  cases values with
  | nil => rfl
  | cons v values => simp [EnumDef.toConstants, EnumDef.constant]

theorem scalar_cases (e : EnumDef) (repr : EnumRepr) :
    e.scalar repr = .uint8 ∨ e.scalar repr = .int32 := by
  unfold EnumDef.scalar
  split
  · exact .inl rfl
  · exact .inr rfl

theorem rosKeyword?_toRos (k : Scalar) : k.toRos.rosKeyword? = some k.toRos.keyword := by
  cases k <;> rfl

/-- The constants that an enum becomes can be written. -/
theorem writable_of_mem_toConstants (he : e.OfIdentifiers)
    (h : constant ∈ e.toConstants (e.scalar repr)) : WritableConstant constant := by
  obtain ⟨v, hv, hname, htype, hvalue, hcomments⟩ := exists_of_mem_toConstants h
  obtain ⟨hident, hlines⟩ := he.values v hv
  have hscalar : constant.type ≠ .string ∧ constant.type.rosKeyword? = some constant.type.keyword := by
    rw [htype]
    rcases scalar_cases e repr with hk | hk <;> rw [hk] <;> exact ⟨by decide, rfl⟩
  refine ⟨hname ▸ hident, hscalar.2, ?_, ?_, ?_⟩
  · rw [hvalue]
    exact constantEnd_toString hscalar.1 _
  · rw [hvalue]
    exact newline_not_mem_toString _
  · rcases hcomments with heq | heq <;> rw [heq]
    · exact hlines
    · exact List.forall_mem_cons.2 ⟨newline_not_mem_of_isIdentifier he.name, he.comments.append hlines⟩

/-! ## Messages of a file -/

theorem ofIdentifiers_of_enumDef? (hbatch : IdentifierBatch files)
    (h : (SymbolTable.ofFiles files).enumDef? n = some e) : e.OfIdentifiers := by
  have hmem : ∃ symbol ∈ (SymbolTable.ofFiles files).symbols, symbol.enumDef? = some e := by
    unfold SymbolTable.enumDef? at h
    split at h
    · next symbol hnamed =>
      have hsymbol := SymbolTable.mem_named.1 (hnamed ▸ List.mem_singleton_self symbol)
      exact ⟨symbol, hsymbol.1, h⟩
    · cases h
  obtain ⟨symbol, hsymbol, henum⟩ := hmem
  have hall : (symbol.name, e) ∈ allEnums files := by
    rw [← filterMap_symbols_eq_allEnums]
    exact List.mem_filterMap.2 ⟨symbol, hsymbol, by rw [henum]; rfl⟩
  exact hbatch.enums _ hall

/-- A field of a generated message: its enum is one of the batch. -/
theorem isGenerated_of_rosType (hbatch : IdentifierBatch files)
    (hf : ∀ n, f.type = .message n → n.OfIdentifiers)
    (h : f.rosType (.ofFiles files) repr file message = .ok rosType) :
    rosType.type.IsGenerated ∧ ∀ p ∈ rosType.enum, p.2.OfIdentifiers := by
  unfold Field.rosType at h
  split at h
  · next k hk =>
    obtain rfl := Except.ok.inj h
    exact ⟨.scalar (rosKeyword?_toRos k), by simp⟩
  · next n hn =>
    split at h
    · cases h
    · obtain rfl := Except.ok.inj h
      exact ⟨.message (hf n hn), by simp⟩
  · next n hn =>
    split at h
    · next e he =>
      obtain rfl := Except.ok.inj h
      refine ⟨.scalar ?_, by simpa using ofIdentifiers_of_enumDef? hbatch he⟩
      rcases scalar_cases e repr with hk | hk <;> rw [hk] <;> rfl
    · cases h
  · next w hw =>
    obtain rfl := Except.ok.inj h
    exact ⟨.wellKnown w, by simp⟩
  · cases h

theorem names_declarations (fields : List Field) (constants : List Constant)
    (enums : List (TypeName × EnumDef)) :
    (declarations fields constants enums).map (·.1) =
      fields.map (·.name) ++ constants.map (·.name) ++
        enums.flatMap fun p => p.2.values.map (·.name) := by
  simp only [declarations, List.map_append, List.map_map, List.map_flatMap, Function.comp_def]

/-- A message of a batch of identifiers becomes one that can be written. -/
theorem isGenerated_of_message_toRos (hbatch : IdentifierBatch files) (hm : m.OfIdentifiers)
    (hname : IsIdentifier m.name.toList) (h : m.toRos (.ofFiles files) repr file = .ok ros) :
    ros.message.IsGenerated := by
  obtain ⟨types, htypes, hros, hrepeated⟩ := exists_types_of_toRos h
  have hpairs := mapM_eq_ok_iff.1 htypes
  have henums : ∀ p ∈ (types.filterMap (·.enum)).eraseDups, p.2.OfIdentifiers := by
    intro p hp
    obtain ⟨type, htype, henum⟩ := List.mem_filterMap.1 (List.mem_eraseDups.1 hp)
    obtain ⟨f, hf, hrosType⟩ := exists_of_mem_left hpairs.flip type htype
    exact (isGenerated_of_rosType hbatch (hm.fields f hf).reference hrosType).2 p henum
  have hfields : List.Forall₂
      (fun f g => ∃ type, f.rosType (.ofFiles files) repr file m.name = .ok type ∧
        g = f.withRosType type)
      m.fields ((m.fields.zip types).map fun p => p.1.withRosType p.2) :=
    forall₂_map_zip hpairs fun f type htype => ⟨type, htype, rfl⟩
  generalize (types.filterMap (·.enum)).eraseDups = enums at hros henums hrepeated
  rw [hros]
  refine ⟨hname, fun g hg => ?_, fun constant hconstant => ?_, hm.comments, ?_⟩
  · obtain ⟨f, hf, type, htype, rfl⟩ := exists_of_mem_left hfields.flip g hg
    have hfield := hm.fields f hf
    obtain ⟨hgenerated, henum⟩ := isGenerated_of_rosType hbatch hfield.reference htype
    refine ⟨hfield.name, hgenerated, hfield.comments.append fun text htext => ?_⟩
    obtain ⟨p, hp, rfl⟩ := Option.map_eq_some_iff.1 (Option.mem_toList.1 htext)
    exact newline_not_mem_of_isIdentifier (henum p hp).name
  · simp only [hm.constants, List.nil_append] at hconstant
    obtain ⟨p, hp, hconstant⟩ := List.mem_flatMap.1 hconstant
    exact writable_of_mem_toConstants (henums p hp) hconstant
  · have hnames := map_eq_of_forall₂ (f := fun f : Field => f.name) (g := fun g : Field => g.name)
      (hfields.imp fun f g hg => by
        obtain ⟨type, -, rfl⟩ := hg
        rfl)
    rw [firstRepeated?_eq_none_iff, names_declarations] at hrepeated
    simpa only [hnames, hm.constants, List.nil_append, List.map_nil, List.append_nil, List.map_flatMap,
      names_toConstants] using hrepeated

/-- A generated message lies in a package of identifiers and can be written. -/
theorem isGenerated_of_toRos (hbatch : IdentifierBatch files) (hs : s ∈ files)
    (hc : s.toRos (.ofFiles files) repr = .ok c) (hm : m ∈ c.schema.messages) :
    (∀ segment ∈ c.schema.package, IsIdentifier segment.toList) ∧ m.IsGenerated := by
  obtain ⟨r, hr, -, mapped, hmapped, hschema⟩ := exists_mapped_of_toRos hc
  rw [hschema] at hm ⊢
  obtain ⟨ros, hros, rfl⟩ := List.mem_map.1 hm
  obtain ⟨p, hp, htoRos⟩ := exists_of_mem_left (mapM_eq_ok_iff.1 hmapped).flip ros hros
  obtain ⟨hnames, hmessage⟩ := ofIdentifiers_of_resolve hbatch hs hr p hp
  obtain ⟨hpackage, -, hname⟩ := r.of_mem_flatten hp
  refine ⟨fun segment hsegment => ?_, ?_⟩
  · exact hnames.segments segment (List.mem_append_left _ (hpackage ▸ hsegment))
  · exact isGenerated_of_message_toRos hbatch hmessage (hname ▸ hnames.isIdentifier_name) htoRos

end SchemaBridge
