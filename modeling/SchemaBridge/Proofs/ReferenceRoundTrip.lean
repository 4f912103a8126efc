import SchemaBridge.Mapping.ToProto
import SchemaBridge.Mapping.ToRos
import SchemaBridge.Proofs.PlainNames
import SchemaBridge.Proofs.Resolution
import SchemaBridge.Proofs.RosRoundTrip

/-!
# References keep their meaning

A type that a reference of a ROS file means can be spelled in that file (`Spellable`,
`spellable_of_resolveRos`). Its absolute proto3 name means the same type in a table of plain names if
the type is declared once, and nothing otherwise (`resolveProto_absolute_iff`). Its ROS spelling means
the same type again (`resolve_spelled`).
-/

namespace SchemaBridge

open RosText

/-! ## Spellings -/

/-- A type that has a spelling in a ROS file of package `package`. -/
inductive Spellable (package : List String) : TypeRef → Prop where
  | scalar {s : Scalar} (hs : s.rosKeyword? = some s.keyword) : Spellable package (.scalar s)
  | wellKnown {w : WellKnown} (hw : w ≠ .bytesValue) : Spellable package (.wellKnown w)
  | own {name : String} (hname : IsIdentifier name.toList)
      (hkeyword : Scalar.ofRosKeyword? name = none) :
      Spellable package (.message ⟨package, [name]⟩)
  | other {outer name : String} (houter : IsIdentifier outer.toList)
      (hkeyword : Scalar.ofRosKeyword? outer = none) (hname : IsIdentifier name.toList)
      (hw : WellKnown.ofRosName? (outer ++ "/" ++ name) = none) (hne : [outer] ≠ package) :
      Spellable package (.message ⟨[outer], [name]⟩)

variable {package : List String} {type : TypeRef} {t : SymbolTable} {names : List TypeName}
  {n : TypeName} {site : Site} {name spelling : String}

theorem slash_not_mem_of_isIdentifier {word : List Char} (h : IsIdentifier word) : '/' ∉ word := by
  intro hm
  exact absurd (h.forall _ hm) (by decide)

theorem isSegment_of_isIdentifier (h : IsIdentifier name.toList) : IsSegment name := by
  refine ⟨fun heq => h.ne_nil (by simp [heq]), fun hm => ?_⟩
  exact absurd (h.forall _ hm) (by decide)

/-- A part of a spelling, between slashes. -/
def IsPart (part : String) : Prop := part ≠ "" ∧ '/' ∉ part.toList

theorem isPart_of_isIdentifier (h : IsIdentifier name.toList) : IsPart name :=
  ⟨(isSegment_of_isIdentifier h).1, slash_not_mem_of_isIdentifier h⟩

theorem slashParts_of_isPart (h : IsPart name) : slashParts name = [name] := by
  refine piecesBetween_eq_singleton h.1 fun c hc => ?_
  have hne : c ≠ '/' := fun heq => h.2 (heq ▸ hc)
  simpa using hne

theorem slashParts_cons (h : IsPart name) (more : String) :
    slashParts (name ++ "/" ++ more) = name :: slashParts more := by
  have htext : (name ++ "/" ++ more).toList = name.toList ++ '/' :: more.toList := by simp
  have hname := slashParts_of_isPart h
  unfold slashParts at hname ⊢
  rw [piecesBetween_append htext (by decide), hname, List.singleton_append]

theorem slashParts_of_isIdentifier (h : IsIdentifier name.toList) : slashParts name = [name] :=
  slashParts_of_isPart (isPart_of_isIdentifier h)

/-- The parts of a spelling are its words. -/
theorem slashParts_words {first : List Char} {more : List (List Char)} (hf : IsIdentifier first)
    (hm : ∀ word ∈ more, IsIdentifier word) :
    slashParts (String.ofList (first ++ more.flatMap ('/' :: ·))) =
      (first :: more).map String.ofList := by
  have hname : ∀ {word : List Char}, IsIdentifier word →
      slashParts (String.ofList word) = [String.ofList word] := fun hword =>
    slashParts_of_isIdentifier (by simpa using hword)
  induction more generalizing first with
  | nil => simpa using hname hf
  | cons word more ih =>
    obtain ⟨hword, hmore⟩ := List.forall_mem_cons.1 hm
    have htext : (String.ofList (first ++ (word :: more).flatMap ('/' :: ·))).toList =
        (String.ofList first).toList ++
          '/' :: (String.ofList (word ++ more.flatMap ('/' :: ·))).toList := by
      simp
    have hfirst := hname hf
    have hmore := ih hword hmore
    unfold slashParts at hfirst hmore ⊢
    rw [piecesBetween_append htext (by decide), hfirst, hmore]
    rfl

theorem slashParts_qualified {outer : String} (houter : IsPart outer) (hname : IsPart name) :
    slashParts (outer ++ "/" ++ name) = [outer, name] := by
  rw [slashParts_cons houter, slashParts_of_isPart hname]

theorem shortForm_of_length {parts : List String} (hparts : slashParts spelling = parts)
    (hlen : parts.length ≤ 2) : Site.shortForm spelling = spelling := by
  unfold Site.shortForm
  split
  · next heq =>
    rw [← hparts, heq] at hlen
    simp at hlen
  · rfl

/-- A name without a package is no well-known type. -/
theorem ofRosName?_of_isIdentifier (h : IsIdentifier name.toList) :
    WellKnown.ofRosName? name = none := by
  rw [WellKnown.ofRosName?, List.find?_eq_none]
  intro w _
  have hslash : '/' ∈ w.rosName.toList := by cases w <;> decide
  have hne : w.rosName ≠ name := fun heq => slash_not_mem_of_isIdentifier h (heq ▸ hslash)
  simp [hne]

/-- The ROS name of a well-known type has a package and a name. -/
theorem exists_rosName (w : WellKnown) :
    ∃ outer name : String, w.rosName = outer ++ "/" ++ name ∧ IsIdentifier outer.toList ∧
      Scalar.ofRosKeyword? outer = none ∧ IsIdentifier name.toList := by
  refine ⟨(slashParts w.rosName).headD "", (slashParts w.rosName).getLastD "", ?_⟩
  cases w <;> decide +kernel

theorem baseSpelling_own (hname : IsIdentifier name.toList)
    (hkeyword : Scalar.ofRosKeyword? name = none) :
    BaseSpelling name.toList (.named name) none := by
  have hk : ∀ s : Scalar, s.rosKeyword? ≠ some (String.ofList name.toList) := by
    rw [String.ofList_toList]
    exact ofRosKeyword?_eq_none_iff.1 hkeyword
  have := BaseSpelling.named hname hk (show ([] : List (List Char)).length ≤ 2 by simp) (by simp)
  rwa [List.flatMap_nil, List.append_nil, String.ofList_toList] at this

theorem baseSpelling_qualified {outer : String} (houter : IsIdentifier outer.toList)
    (hkeyword : Scalar.ofRosKeyword? outer = none) (hname : IsIdentifier name.toList) :
    BaseSpelling (outer ++ "/" ++ name).toList (.named (outer ++ "/" ++ name)) none := by
  have hk : ∀ s : Scalar, s.rosKeyword? ≠ some (String.ofList outer.toList) := by
    rw [String.ofList_toList]
    exact ofRosKeyword?_eq_none_iff.1 hkeyword
  have hwords : ∀ word ∈ [name.toList], IsIdentifier word := by simpa using hname
  have htext : outer.toList ++ [name.toList].flatMap ('/' :: ·) = (outer ++ "/" ++ name).toList := by
    simp
  have := BaseSpelling.named houter hk (show [name.toList].length ≤ 2 by simp) hwords
  rwa [htext, String.ofList_toList] at this

theorem nameText_own (package : List String) (name : String) :
    nameText package ⟨package, [name]⟩ = name := by
  rw [nameText, if_pos (.inr rfl)]
  rfl

theorem nameText_other {outer : String} (hne : [outer] ≠ package) :
    nameText package ⟨[outer], [name]⟩ = outer ++ "/" ++ name := by
  rw [nameText, if_neg (by simp [hne])]
  rfl

/-- What the spelling of a type is read as. -/
def spelledAs (package : List String) : TypeRef → BaseType
  | .scalar s => .scalar s
  | .wellKnown w => .named w.rosName
  | .message name => .named (nameText package name)
  | .enum name => .named (nameText package name)
  | .named spelling => .named spelling

/-- A type with a spelling is spelled as in the grammar. -/
theorem Spellable.baseSpelling (h : Spellable package type) :
    BaseSpelling (typeText package type).toList (spelledAs package type) none := by
  cases h with
  | @scalar s hs => exact .scalar (by simpa [typeText] using hs)
  | @wellKnown w hw =>
    obtain ⟨outer, name, hrosName, houter, hkeyword, hname⟩ := exists_rosName w
    rw [spelledAs, typeText, hrosName]
    exact baseSpelling_qualified houter hkeyword hname
  | own hname hkeyword =>
    rw [spelledAs, typeText, nameText_own]
    exact baseSpelling_own hname hkeyword
  | other houter hkeyword hname hw hne =>
    rw [spelledAs, typeText, nameText_other hne]
    exact baseSpelling_qualified houter hkeyword hname

theorem Spellable.spelledBase_eq (h : Spellable package type) :
    spelledBase (typeText package type) = spelledAs package type := by
  have := eq_spelledBase h.baseSpelling
  rwa [String.ofList_toList, eq_comm] at this

/-! ## References of ROS files -/

theorem resolveLocal_eq_ok (h : t.Lists names) (hplain : TypeName.IsPlain ⟨package, [name]⟩)
    (hpackage : site.enclosing.package = package)
    (hresolve : site.resolveLocal t spelling name = .ok type) :
    type = .message ⟨package, [name]⟩ ∨
      name = "Header" ∧ type = .message ⟨["std_msgs"], ["Header"]⟩ := by
  rcases resolveLocal_eq_ok_iff.1 hresolve with ⟨symbol, hnamed, rfl⟩ | ⟨-, hheader, htype⟩
  · rw [hpackage] at hnamed
    exact .inl (h.typeRef_of_named hplain hnamed)
  · exact .inr ⟨hheader, htype⟩

theorem resolveQualified_eq_ok {outer : String} (h : t.Lists names)
    (hplain : TypeName.IsPlain ⟨[outer], [name]⟩)
    (hresolve : site.resolveQualified t spelling outer name = .ok type) :
    type = .message ⟨[outer], [name]⟩ := by
  rcases resolveQualified_eq_ok_iff.1 hresolve with ⟨symbol, hnamed, rfl⟩ | ⟨-, -, -, htype⟩
  · exact h.typeRef_of_named hplain hnamed
  · exact htype

theorem isPlain_own (hpackage : package.length ≤ 1) (hsegments : ∀ s ∈ package, IsSegment s)
    (hname : IsIdentifier name.toList) : TypeName.IsPlain ⟨package, [name]⟩ where
  package := hpackage
  path := rfl
  segments s hs := by
    rcases List.mem_append.1 hs with hs | hs
    · exact hsegments s hs
    · obtain rfl := List.mem_singleton.1 hs
      exact isSegment_of_isIdentifier hname

theorem isPlain_other {outer : String} (houter : IsIdentifier outer.toList)
    (hname : IsIdentifier name.toList) : TypeName.IsPlain ⟨[outer], [name]⟩ :=
  isPlain_own (by simp) (by simpa using isSegment_of_isIdentifier houter) hname

/-- The names that a batch declares can be spelled without a package. -/
def Spelled (names : List TypeName) : Prop :=
  ∀ package name, TypeName.mk package [name] ∈ names → Scalar.ofRosKeyword? name = none

theorem spellable_qualified {outer : String} (hspelled : Spelled names)
    (houter : IsIdentifier outer.toList) (hkeyword : Scalar.ofRosKeyword? outer = none)
    (hname : IsIdentifier name.toList) (hw : WellKnown.ofRosName? (outer ++ "/" ++ name) = none)
    (hmem : TypeName.mk [outer] [name] ∈ names) :
    Spellable package (.message ⟨[outer], [name]⟩) := by
  by_cases heq : [outer] = package
  · rw [heq] at hmem ⊢
    exact .own hname (hspelled _ _ hmem)
  · exact .other houter hkeyword hname hw heq

/-- A reference of a file is to a well-known type, to a message of the file's own package, or to one of a
package that it names. -/
theorem resolveRos_cases {text : List Char} (hspelling : BaseSpelling text (.named spelling) none)
    (h : site.resolveRos t spelling = .ok type) :
    (∃ w, type = .wellKnown w) ∨
      (IsIdentifier spelling.toList ∧ site.resolveLocal t spelling spelling = .ok type) ∨
      ∃ outer name, IsIdentifier outer.toList ∧ IsIdentifier name.toList ∧
        site.resolveQualified t spelling outer name = .ok type := by
  generalize hbase : BaseType.named spelling = base at hspelling
  cases hspelling with
  | scalar => cases hbase
  | @named first more hf hk hl hm =>
    obtain rfl : spelling = _ := BaseType.named.inj hbase
    have hwords := slashParts_words hf hm
    have hparts : ∀ part ∈ (first :: more).map String.ofList, IsIdentifier part.toList := by
      simpa using ⟨hf, hm⟩
    unfold Site.resolveRos at h
    split at h
    · next w _ => exact .inl ⟨w, (Except.ok.inj h).symm⟩
    · split at h
      · next heq =>
        rw [hwords, List.map_cons, List.cons.injEq, List.map_eq_nil_iff] at heq
        obtain ⟨rfl, rfl⟩ := heq
        rw [List.flatMap_nil, List.append_nil] at h ⊢
        exact .inr (.inl ⟨hparts _ (by simp), h⟩)
      · next heq =>
        rw [heq] at hwords
        exact .inr (.inr ⟨_, _, hparts _ (by simp [← hwords]), hparts _ (by simp [← hwords]), h⟩)
      · next heq =>
        rw [heq] at hwords
        exact .inr (.inr ⟨_, _, hparts _ (by simp [← hwords]), hparts _ (by simp [← hwords]), h⟩)
      · cases h

/-- What a reference of a file means has a spelling in that file, if the batch declares it. -/
theorem spellable_of_resolveRos {text : List Char} (h : t.Lists names) (hspelled : Spelled names)
    (hsite : site.enclosing.package = package) (hpackage : package.length ≤ 1)
    (hsegments : ∀ s ∈ package, IsSegment s) (hspelling : BaseSpelling text (.named spelling) none)
    (hresolve : site.resolveRos t spelling = .ok type)
    (hdeclared : ∀ n, type = .message n → n ∈ names) : Spellable package type := by
  generalize hbase : BaseType.named spelling = base at hspelling
  generalize hbound : none = bound at hspelling
  cases hspelling with
  | scalar => cases hbase
  | bounded => cases hbase
  | @named first more hf hk hl hm =>
    obtain rfl : spelling = _ := BaseType.named.inj hbase
    have hfirst : IsIdentifier (String.ofList first).toList := by simpa using hf
    have hfirstKeyword := ofRosKeyword?_eq_none_iff.2 hk
    have hparts := slashParts_words hf hm
    unfold Site.resolveRos at hresolve
    split at hresolve
    · next w hw =>
      obtain rfl := Except.ok.inj hresolve
      have hfound := List.find?_some hw
      exact .wellKnown (by simpa using (of_decide_eq_true hfound).1)
    · next hnone =>
      rcases more with _ | ⟨word, _ | ⟨last, _ | ⟨_, _⟩⟩⟩
      · simp only [hparts, List.map_cons, List.map_nil] at hresolve
        have hplain := isPlain_own hpackage hsegments hfirst
        rcases resolveLocal_eq_ok h hplain hsite hresolve with rfl | ⟨-, rfl⟩
        · exact .own hfirst hfirstKeyword
        · exact spellable_qualified hspelled (by decide) (by decide) (by decide) (by decide)
            (hdeclared _ rfl)
      · have hword : IsIdentifier (String.ofList word).toList := by simpa using hm
        have hspelling : String.ofList (first ++ [word].flatMap ('/' :: ·)) =
            String.ofList first ++ "/" ++ String.ofList word := String.toList_injective (by simp)
        rw [shortForm_of_length hparts (by simp), hspelling] at hnone
        simp only [hparts, List.map_cons, List.map_nil] at hresolve
        obtain rfl := resolveQualified_eq_ok h (isPlain_other hfirst hword) hresolve
        exact spellable_qualified hspelled hfirst hfirstKeyword hword hnone (hdeclared _ rfl)
      · have hlast : IsIdentifier (String.ofList last).toList := by simpa using hm last (by simp)
        simp only [List.map_cons, List.map_nil] at hparts
        simp only [Site.shortForm, hparts] at hnone
        simp only [hparts] at hresolve
        by_cases hmsg : String.ofList word = "msg"
        · simp only [hmsg] at hnone hresolve
          obtain rfl := resolveQualified_eq_ok h (isPlain_other hfirst hlast) hresolve
          exact spellable_qualified hspelled hfirst hfirstKeyword hlast hnone (hdeclared _ rfl)
        · split at hresolve
          · next heq => simp at heq
          · next heq => simp at heq
          · next heq => simp_all
          · cases hresolve
      · simp at hl

theorem ofRosName?_rosName {w : WellKnown} (hw : w ≠ .bytesValue) :
    WellKnown.ofRosName? w.rosName = some w := by
  cases w <;> first | rfl | exact absurd rfl hw

theorem slashParts_rosName_length (w : WellKnown) : (slashParts w.rosName).length ≤ 2 := by
  cases w <;> decide

theorem resolveRos_of_isIdentifier (hname : IsIdentifier name.toList) :
    site.resolveRos t name = site.resolveLocal t name name := by
  have hparts := slashParts_of_isIdentifier hname
  rw [Site.resolveRos, shortForm_of_length hparts (by simp), ofRosName?_of_isIdentifier hname]
  simp only [hparts]

theorem resolveRos_qualified {outer : String} (houter : IsPart outer) (hname : IsPart name)
    (hw : WellKnown.ofRosName? (outer ++ "/" ++ name) = none) :
    site.resolveRos t (outer ++ "/" ++ name) =
      site.resolveQualified t (outer ++ "/" ++ name) outer name := by
  have hparts := slashParts_qualified houter hname
  rw [Site.resolveRos, shortForm_of_length hparts (by simp), hw]
  simp only [hparts]

/-- A spelling means the type that it is the spelling of, if the type is declared once. -/
theorem resolveRos_typeText (h : t.Lists names) (htype : Spellable package type)
    (hsite : site.enclosing.package = package) (hscalar : ∀ s, type ≠ .scalar s)
    (honce : ∀ n, type = .message n → names.count n = 1) :
    site.resolveRos t (typeText package type) = .ok type := by
  cases htype with
  | scalar => exact absurd rfl (hscalar _)
  | @wellKnown w hw =>
    rw [Site.resolveRos, typeText, shortForm_of_length rfl (slashParts_rosName_length w), ofRosName?_rosName hw]
  | @own name hname hkeyword =>
    have hplain := h.plain _ (List.count_pos_iff.1 (by rw [honce _ rfl]; decide))
    obtain ⟨symbol, hnamed⟩ := (h.exists_named_iff hplain).2 (honce _ rfl)
    rw [typeText, nameText_own, resolveRos_of_isIdentifier hname]
    exact resolveLocal_eq_ok_iff.2 (.inl ⟨symbol, hsite ▸ hnamed, h.typeRef_of_named hplain hnamed⟩)
  | @other outer name houter hkeyword hname hw hne =>
    have hplain := h.plain _ (List.count_pos_iff.1 (by rw [honce _ rfl]; decide))
    obtain ⟨symbol, hnamed⟩ := (h.exists_named_iff hplain).2 (honce _ rfl)
    rw [typeText, nameText_other hne,
      resolveRos_qualified (isPart_of_isIdentifier houter) (isPart_of_isIdentifier hname) hw,
      resolveQualified_once hnamed, h.typeRef_of_named hplain hnamed]

/-- A field whose type is spelled is resolved to that type. -/
theorem resolve_spelled {f : Field} {file : String} {enclosing : TypeName} (h : t.Lists names)
    (htype : Spellable package type) (hf : f.type = (spelledBase (typeText package type)).typeRef)
    (hpackage : enclosing.package = package)
    (honce : ∀ n, type = .message n → names.count n = 1) :
    f.resolve t .ros file enclosing = .ok { f with type := type } := by
  rw [htype.spelledBase_eq] at hf
  have hnamed : (∀ s, type ≠ .scalar s) → f.type = .named (typeText package type) →
      f.resolve t .ros file enclosing = .ok { f with type := type } := by
    intro hscalar hf
    simp only [Field.resolve, hf, Site.resolve]
    rw [resolveRos_typeText h htype hpackage hscalar honce]
    rfl
  cases type with
  | scalar s =>
    have hscalar : f.type = .scalar s := hf
    simp only [Field.resolve, hscalar]
    rw [← hscalar]
    rfl
  | named spelling => cases htype
  | message name => exact hnamed (by simp) hf
  | enum name => cases htype
  | wellKnown w => exact hnamed (by simp) hf

/-! ## References of proto3 files -/

theorem resolveProto_wellKnown (t : SymbolTable) (site : Site) (w : WellKnown) :
    site.resolveProto t ("." ++ w.protoName) = .ok (.wellKnown w) := by
  have hfound : WellKnown.ofProtoName? ("." ++ w.protoName) = some w := by cases w <;> decide
  simp only [Site.resolveProto, hfound]

/-- An absolute name means the message of that name, if it is declared once, and nothing otherwise. -/
theorem resolveProto_absolute_iff (h : t.Lists names) (hn : n.IsPlain) :
    site.resolveProto t ("." ++ n.qualified) = .ok type ↔
      names.count n = 1 ∧ type = .message n := by
  have hany : n.qualified ≠ "google.protobuf.Any" := by
    intro heq
    have hcount := hn.count_dot
    rw [heq] at hcount
    exact absurd hcount (by decide)
  have habsolute : isAbsolute ("." ++ n.qualified) = true := by simp [isAbsolute]
  have hcandidates : site.candidates ("." ++ n.qualified) = [n.qualified] := by
    rw [Site.candidates, if_pos habsolute, withoutDots_absolute hn]
  have hgoogle : isGoogleName n.qualified = false := not_isGoogleName hn.count_dot
  simp only [Site.resolveProto, ofProtoName?_absolute hn.count_dot, withoutDots_absolute hn,
    if_neg hany, hgoogle, hcandidates, lookupFirst_singleton]
  rw [← h.exists_named_iff hn]
  rcases lookup_cases t n.qualified site.file with
    ⟨hnamed, hlookup⟩ | ⟨symbol, hnamed, hlookup⟩ | ⟨hmany, hlookup⟩
  · simp [hnamed, hlookup]
  · simp [hnamed, hlookup, h.typeRef_of_named hn hnamed, eq_comm]
  · simp only [hlookup]
    refine iff_of_false (by simp) ?_
    rintro ⟨⟨symbol, hnamed⟩, -⟩
    simp [hnamed] at hmany

/-! ## Types that come back -/

/-- The type that comes back for a type: proto3 lacks some scalars. -/
def TypeRef.returned : TypeRef → TypeRef
  | .scalar s => .scalar s.toProto.toRos
  | type => type

theorem toProto_toProto (s : Scalar) : s.toProto.toProto = s.toProto := by cases s <;> rfl

theorem Spellable.returned (h : Spellable package type) : Spellable package type.returned := by
  cases h with
  | @scalar s hs => exact .scalar (by cases s <;> rfl)
  | wellKnown hw => exact .wellKnown hw
  | own hname hkeyword => exact .own hname hkeyword
  | other houter hkeyword hname hw hne => exact .other houter hkeyword hname hw hne

theorem returned_eq_message_iff : type.returned = .message n ↔ type = .message n := by
  cases type <;> simp [TypeRef.returned]

variable {f g : Field} {file : String} {enclosing : TypeName}

/-- A field of a decoded file is resolved if the message that it refers to is declared once. -/
theorem resolve_normalForm_iff (h : t.Lists names) (htype : Spellable package type)
    (hdeclared : ∀ n, type = .message n → n ∈ names) (hf : f.type = type.toProto.normalForm) :
    f.resolve t .proto3 file enclosing = .ok g ↔
      (∀ n, type = .message n → names.count n = 1) ∧ g = { f with type := type.toProto } := by
  have hmessage : ∀ n, type = .message n →
      (f.resolve t .proto3 file enclosing = .ok g ↔
        (∀ n, type = .message n → names.count n = 1) ∧ g = { f with type := type.toProto }) := by
    intro n hn
    subst hn
    rw [resolve_named_eq_ok_iff hf]
    simp only [Site.resolve, resolveProto_absolute_iff h (h.plain n (hdeclared n rfl)), and_assoc,
      exists_and_left, exists_eq_left, TypeRef.message.injEq, forall_eq']
    rfl
  cases htype with
  | @scalar s hs =>
    have hscalar : f.type = .scalar s.toProto := by rw [hf, ← toProto_toProto s]; rfl
    have hself : ({ f with type := TypeRef.toProto (.scalar s) } : Field) = f := by
      rw [TypeRef.toProto, ← hscalar]
    simp only [Field.resolve, hscalar, hself]
    simp [pure, Except.pure, eq_comm]
  | @wellKnown w hw =>
    rw [resolve_named_eq_ok_iff hf]
    simp only [Site.resolve, resolveProto_wellKnown, Except.ok.injEq, exists_eq_left', TypeRef.toProto]
    simp
  | own => exact hmessage _ rfl
  | other => exact hmessage _ rfl

/-- A type that a reference of a ROS file can mean. -/
inductive TypeRef.IsRos : TypeRef → Prop where
  | scalar {k : Scalar} (hk : k.rosKeyword?.isSome) : IsRos (.scalar k)
  | wellKnown {w : WellKnown} (hw : w ≠ .bytesValue) : IsRos (.wellKnown w)
  | message {n : TypeName} (hn : n.flat = n) : IsRos (.message n)

theorem Spellable.isRos (h : Spellable package type) : type.IsRos := by
  cases h with
  | scalar hs => exact .scalar (by rw [hs]; rfl)
  | wellKnown hw => exact .wellKnown hw
  | own => exact .message rfl
  | other => exact .message rfl

theorem TypeRef.IsRos.isResolved_toProto (h : type.IsRos) : type.toProto.isResolved = true := by
  cases h <;> rfl

/-- A type of a ROS file comes back from proto3 without a further loss. -/
theorem rosType_toProto {message : String} (repr : EnumRepr) (h : t.Outermost) (htype : type.IsRos)
    (hf : f.type = type.toProto) :
    f.rosType t repr file message = .ok { type := type.returned } := by
  cases htype with
  | @scalar k hk =>
    have hkeeps : k.toProto.keepsRos = true := by cases k <;> first | rfl | cases hk
    simp only [Field.rosType, hf, TypeRef.toProto, hkeeps, if_true, TypeRef.returned]
  | wellKnown hw => simp only [Field.rosType, hf, TypeRef.toProto, if_neg hw, TypeRef.returned]
  | message hn =>
    simp only [Field.rosType, hf, TypeRef.toProto, collisionError?, h.collisions_eq_none hn,
      Option.map_none, hn, TypeRef.returned]

end SchemaBridge
