import Mathlib.Data.List.Induction
import Mathlib.Data.List.TakeWhile
import SchemaBridge.Proofs.RosAcceptance
import SchemaBridge.Proofs.Resolution

/-!
# What proto3 references mean

`Site.ProtoMeans` tells what a reference of a proto3 file means among the files of a batch, or why it
means nothing, without a table and without a search:

* a well-known type means itself, and any other name of `google.protobuf` is not supported;
* a name with a dot in front means the type that the files declare under exactly that name;
* any other name means the type that they declare in the innermost enclosing scope that has the name
  (`Innermost`), whatever is declared further out.

A name that is declared once means its definition, and a name that is declared more than once is
ambiguous (`Site.Answers`). Resolving a reference gives just what it means (`resolveProto_eq_iff`), and
resolving a file gives what all of its references mean, or the error of the first one that means nothing
(`Schema.protoMeans_resolve`), at every depth of nesting.
-/

namespace SchemaBridge

/-! ## Declared names -/

/-- The types that the files declare under a qualified name, in the order of the files. -/
def declaredAs (files : List Schema) (qualified : String) : List Symbol :=
  files.flatMap fun s => s.symbols.filter (·.name.qualified = qualified)

/-- The name of a type in a scope. -/
def inScope (scope : List String) (name : String) : String := ".".intercalate (scope ++ [name])

/-- The innermost of the scopes around a reference, given by their segments, that declares the name:
the longest prefix of the segments in which the files declare it. -/
structure Innermost (files : List Schema) (segments : List String) (name : String)
    (scope : List String) : Prop where
  encloses : scope <+: segments
  declares : declaredAs files (inScope scope name) ≠ []
  longest : ∀ scope', scope' <+: segments → declaredAs files (inScope scope' name) ≠ [] →
    scope'.length ≤ scope.length

/-! ## Spellings -/

/-- A spelling is that of a well-known type, with or without a dot in front. -/
def WellKnown.SpelledBy (w : WellKnown) (spelling : String) : Prop :=
  spelling = w.protoName ∨ spelling = "." ++ w.protoName

/-- A spelling consists of some dots and a name that does not begin with one. -/
structure Spells (dots : Nat) (name spelling : String) : Prop where
  toList : spelling.toList = List.replicate dots '.' ++ name.toList
  head : name.toList.head? ≠ some '.'

/-- A name, without dots in front, is one of `google.protobuf`. -/
def InGoogle (name : String) : Prop := "google.protobuf.".toList <+: name.toList

/-! ## Meanings -/

/-- What a name means that is declared by the given types and looked up under a qualified name. -/
inductive Site.Answers (site : Site) (name qualified : String) :
    List Symbol → Except ConversionError TypeRef → Prop
  | missing : Answers site name qualified []
      (.error (.unresolved name site.file site.enclosing.dottedPath site.field))
  | message {symbol : Symbol} (hkind : symbol.kind = .message) :
      Answers site name qualified [symbol] (.ok (.message symbol.name))
  | enum {symbol : Symbol} {e : EnumDef} (hkind : symbol.kind = .enum e) :
      Answers site name qualified [symbol] (.ok (.enum symbol.name))
  | ambiguous {symbols : List Symbol} (hmany : 2 ≤ symbols.length) :
      Answers site name qualified symbols
        (.error (.ambiguous qualified site.file (symbols.map (·.file))))

/-- What a reference of a proto3 file means among some files. -/
inductive Site.ProtoMeans (files : List Schema) (site : Site) :
    String → Except ConversionError TypeRef → Prop
  | wellKnown {w : WellKnown} {spelling : String} (h : w.SpelledBy spelling) :
      ProtoMeans files site spelling (.ok (.wellKnown w))
  | unsupported {dots : Nat} {name spelling : String} (hspells : Spells dots name spelling)
      (hgoogle : InGoogle name)
      (hother : ∀ w : WellKnown, ¬ w.SpelledBy spelling) :
      ProtoMeans files site spelling
        (.error (.unsupported (if name = "google.protobuf.Any" then .any else .wellKnown name) site.file
          (.field site.enclosing.dottedPath site.field)))
  | absolute {dots : Nat} {name spelling : String} {result : Except ConversionError TypeRef}
      (hspells : Spells (dots + 1) name spelling)
      (hgoogle : ¬ InGoogle name)
      (hanswers : site.Answers name name (declaredAs files name) result) :
      ProtoMeans files site spelling result
  | relative {name : String} {scope : List String} {result : Except ConversionError TypeRef}
      (hspells : Spells 0 name name) (hgoogle : ¬ InGoogle name)
      (hscope : Innermost files (site.enclosing.package ++ site.enclosing.path) name scope)
      (hanswers : site.Answers name (inScope scope name) (declaredAs files (inScope scope name))
        result) :
      ProtoMeans files site name result
  | undeclared {name : String} (hspells : Spells 0 name name)
      (hgoogle : ¬ InGoogle name)
      (hnone : ∀ scope, scope <+: site.enclosing.package ++ site.enclosing.path →
        declaredAs files (inScope scope name) = []) :
      ProtoMeans files site name
        (.error (.unresolved name site.file site.enclosing.dottedPath site.field))

/-- What becomes of a field of the message `n` when its reference is replaced by what it means. -/
inductive Field.ProtoMeans (files : List Schema) (file : String) (n : TypeName) (f : Field) :
    Except ConversionError Field → Prop
  | kept (h : f.type.isResolved = true) : ProtoMeans files file n f (.ok f)
  | meant {spelling : String} {type : TypeRef} (h : f.type = .named spelling)
      (hmeans : Site.ProtoMeans files ⟨file, n, f.name⟩ spelling (.ok type)) :
      ProtoMeans files file n f (.ok { f with type := type })
  | failed {spelling : String} {e : ConversionError} (h : f.type = .named spelling)
      (hmeans : Site.ProtoMeans files ⟨file, n, f.name⟩ spelling (.error e)) :
      ProtoMeans files file n f (.error e)

/-- What becomes of a proto3 file: all its fields have the types that they mean, in the messages in which
they stand; or the first field that means nothing gives the error. -/
inductive Schema.ProtoMeans (files : List Schema) (s : Schema) : Except ConversionError Schema → Prop
  | ok {r : Schema}
      (h : List.Forall₂ (fun p q => q.1 = p.1 ∧
        List.Forall₂ (fun f g => f.ProtoMeans files s.name p.1 (.ok g)) p.2.fields q.2.fields)
        s.flatten r.flatten) :
      ProtoMeans files s (.ok r)
  | error {e : ConversionError} {before after : List (TypeName × Field)} {n : TypeName} {f : Field}
      (hfields : s.placedFields = before ++ (n, f) :: after)
      (hbefore : ∀ p ∈ before, ∃ g, p.2.ProtoMeans files s.name p.1 (.ok g))
      (h : f.ProtoMeans files s.name n (.error e)) :
      ProtoMeans files s (.error e)

/-! ## Spellings and names -/

variable {files : List Schema} {site : Site} {dots : Nat} {name spelling qualified file : String}
  {segments scope : List String} {result : Except ConversionError TypeRef} {w : WellKnown}
  {t : SymbolTable}

theorem Spells.withoutDots_eq (h : Spells dots name spelling) : withoutDots spelling = name := by
  rw [withoutDots, h.toList, List.dropWhile_append_of_pos (by simp)]
  exact withoutDots_eq_self h.head

theorem Spells.isAbsolute_eq (h : Spells dots name spelling) : isAbsolute spelling = decide (0 < dots) := by
  rw [isAbsolute, h.toList]
  cases dots with
  | zero => simpa using h.head
  | succ dots => simp [List.replicate_succ]

theorem Spells.eq_of_zero (h : Spells 0 name spelling) : spelling = name :=
  String.toList_injective (by simpa using h.toList)

/-- Every spelling consists of some dots and a name. -/
theorem exists_spells (spelling : String) : ∃ dots name, Spells dots name spelling := by
  refine ⟨(spelling.toList.takeWhile (· = '.')).length, withoutDots spelling, ?_, ?_⟩
  · have hdots : spelling.toList.takeWhile (· = '.') =
        List.replicate (spelling.toList.takeWhile (· = '.')).length '.' :=
      List.eq_replicate_of_mem fun c hc => by simpa using List.mem_takeWhile_imp hc
    rw [← hdots, withoutDots, String.toList_ofList, List.takeWhile_append_dropWhile]
  · rw [withoutDots, String.toList_ofList]
    intro hhead
    have hnot := List.head?_dropWhile_not (· = '.') spelling.toList
    rw [hhead] at hnot
    simp at hnot

theorem ofProtoName?_eq_some_iff : WellKnown.ofProtoName? spelling = some w ↔ w.SpelledBy spelling := by
  constructor
  · intro h
    have hfound := List.find?_some h
    exact (of_decide_eq_true hfound).imp Eq.symm Eq.symm
  · rintro (rfl | rfl)
    · cases w <;> decide
    · cases w <;> decide

theorem ofProtoName?_eq_none_iff :
    WellKnown.ofProtoName? spelling = none ↔ ∀ w : WellKnown, ¬ w.SpelledBy spelling := by
  simp only [Option.eq_none_iff_forall_ne_some, ne_eq, ofProtoName?_eq_some_iff]

theorem isGoogleName_iff : isGoogleName name = true ↔ InGoogle name :=
  List.isPrefixOf_iff_prefix

theorem WellKnown.SpelledBy.spells (h : w.SpelledBy spelling) :
    ∃ dots, Spells dots w.protoName spelling := by
  have hhead : w.protoName.toList.head? ≠ some '.' := by cases w <;> decide
  rcases h with rfl | rfl
  · exact ⟨0, by simp, hhead⟩
  · exact ⟨1, by simp, hhead⟩

/-- A spelling of a well-known type names something of `google.protobuf`. -/
theorem Spells.isGoogleName (h : Spells dots name spelling) (hw : w.SpelledBy spelling) :
    isGoogleName name = true := by
  obtain ⟨dots', hspells⟩ := hw.spells
  rw [← h.withoutDots_eq, hspells.withoutDots_eq]
  cases w <;> decide

theorem ne_any_of_not_google (h : ¬ InGoogle name) :
    name ≠ "google.protobuf.Any" := by
  rintro rfl
  exact h (isGoogleName_iff.1 (by decide))

theorem Spells.not_spelledBy (h : Spells dots name spelling)
    (hgoogle : ¬ InGoogle name) (w : WellKnown) :
    ¬ w.SpelledBy spelling :=
  fun hw => hgoogle (isGoogleName_iff.1 (h.isGoogleName hw))

theorem named_ofFiles : (SymbolTable.ofFiles files).named qualified = declaredAs files qualified := by
  rw [SymbolTable.ofFiles_eq, SymbolTable.named, declaredAs, List.filter_flatMap]

/-! ## Scopes -/

theorem relativeCandidates_nil : relativeCandidates [] name = [inScope [] name] := rfl

/-- A name is looked up in the innermost scope before it is in the outer ones. -/
theorem relativeCandidates_snoc {inner : String} :
    relativeCandidates (segments ++ [inner]) name =
      inScope (segments ++ [inner]) name :: relativeCandidates segments name := by
  have houter : ∀ i ∈ (List.range (segments.length + 1)).reverse,
      ".".intercalate ((segments ++ [inner]).take i ++ [name]) =
        ".".intercalate (segments.take i ++ [name]) := by
    intro i hi
    have hle : i ≤ segments.length := by simpa [Nat.lt_succ_iff] using hi
    rw [List.take_append_of_le_length hle]
  rw [relativeCandidates, List.length_append, List.length_singleton, List.range_succ, List.reverse_append,
    List.reverse_singleton, List.singleton_append, List.map_cons, List.map_congr_left houter,
    List.take_of_length_le (by simp)]
  rfl

theorem Innermost.unique {scope' : List String} (h : Innermost files segments name scope)
    (h' : Innermost files segments name scope') : scope = scope' := by
  have hlength : scope.length = scope'.length :=
    Nat.le_antisymm (h'.longest _ h.encloses h.declares) (h.longest _ h'.encloses h'.declares)
  exact (List.prefix_of_prefix_length_le h.encloses h'.encloses (Nat.le_of_eq hlength)).eq_of_length hlength

/-- A relative name is looked up in the innermost scope that declares it, if there is one. -/
theorem lookupFirst_relativeCandidates (files : List Schema) (segments : List String)
    (name file : String) :
    (∃ scope, Innermost files segments name scope ∧
        (SymbolTable.ofFiles files).lookupFirst file (relativeCandidates segments name) =
          (SymbolTable.ofFiles files).lookup (inScope scope name) file) ∨
      (∀ scope, scope <+: segments → declaredAs files (inScope scope name) = []) ∧
        (SymbolTable.ofFiles files).lookupFirst file (relativeCandidates segments name) = .ok none := by
  induction segments using List.reverseRecOn with
  | nil =>
    rw [relativeCandidates_nil, lookupFirst_singleton]
    by_cases hnone : declaredAs files (inScope [] name) = []
    · refine .inr ⟨fun scope hscope => ?_, lookup_eq_none_iff_named.2 (named_ofFiles.trans hnone)⟩
      rwa [List.prefix_nil.1 hscope]
    · refine .inl ⟨[], ⟨List.nil_prefix, hnone, fun scope hscope _ => ?_⟩, rfl⟩
      rw [List.prefix_nil.1 hscope]
  | append_singleton segments inner ih =>
    rw [relativeCandidates_snoc]
    by_cases hnone : declaredAs files (inScope (segments ++ [inner]) name) = []
    · -- the innermost scope does not declare the name, and so the outer ones decide
      rw [lookupFirst_cons_of_eq_nil (named_ofFiles.trans hnone)]
      rcases ih with ⟨scope, hscope, hlookup⟩ | ⟨hnowhere, hlookup⟩
      · refine .inl ⟨scope, ⟨?_, hscope.declares, fun scope' hscope' hdeclares => ?_⟩, hlookup⟩
        · exact hscope.encloses.trans (List.prefix_append ..)
        · rcases List.prefix_concat_iff.1 hscope' with rfl | houter
          · exact absurd hnone hdeclares
          · exact hscope.longest _ houter hdeclares
      · refine .inr ⟨fun scope hscope => ?_, hlookup⟩
        rcases List.prefix_concat_iff.1 hscope with rfl | houter
        · exact hnone
        · exact hnowhere _ houter
    · rw [lookupFirst_cons_of_ne_nil (named_ofFiles ▸ hnone)]
      exact .inl ⟨_, ⟨List.prefix_refl _, hnone, fun _ hscope _ => hscope.length_le⟩, rfl⟩

/-! ## Answers -/

theorem Site.Answers.unique {symbols : List Symbol} {result' : Except ConversionError TypeRef}
    (h : site.Answers name qualified symbols result) (h' : site.Answers name qualified symbols result') :
    result = result' := by
  cases h with
  | missing =>
    cases h' with
    | missing => rfl
    | ambiguous hmany => simp at hmany
  | message hkind =>
    cases h' with
    | message => rfl
    | enum hkind' => cases hkind.symm.trans hkind'
    | ambiguous hmany => simp at hmany
  | enum hkind =>
    cases h' with
    | message hkind' => cases hkind.symm.trans hkind'
    | enum => rfl
    | ambiguous hmany => simp at hmany
  | ambiguous hmany =>
    cases h' with
    | missing => simp at hmany
    | message => simp at hmany
    | enum => simp at hmany
    | ambiguous => rfl

theorem answers_typeRef (site : Site) (name qualified : String) (symbol : Symbol) :
    site.Answers name qualified [symbol] (.ok symbol.typeRef) := by
  cases hkind : symbol.kind with
  | message =>
    rw [Symbol.typeRef, hkind]
    exact .message hkind
  | enum e =>
    rw [Symbol.typeRef, hkind]
    exact .enum hkind

/-- A reference that is looked up under one name means what the files declare under that name. -/
theorem answers_resolveProto (h : Spells dots name spelling)
    (hgoogle : ¬ InGoogle name)
    (hfirst : (SymbolTable.ofFiles files).lookupFirst site.file (site.candidates spelling) =
      (SymbolTable.ofFiles files).lookup qualified site.file) :
    site.Answers name qualified (declaredAs files qualified)
      (site.resolveProto (.ofFiles files) spelling) := by
  have hnone := ofProtoName?_eq_none_iff.2 (h.not_spelledBy hgoogle)
  have hany := ne_any_of_not_google hgoogle
  have hother : ¬ isGoogleName name = true := fun hname => hgoogle (isGoogleName_iff.1 hname)
  simp only [Site.resolveProto, hnone, h.withoutDots_eq, if_neg hany, if_neg hother, hfirst]
  rw [← named_ofFiles]
  rcases lookup_cases (.ofFiles files) qualified site.file with
    ⟨hnamed, hlookup⟩ | ⟨symbol, hnamed, hlookup⟩ | ⟨hmany, hlookup⟩
  · simp only [hnamed, hlookup, Site.unresolved, h.withoutDots_eq]
    exact .missing
  · simp only [hnamed, hlookup]
    exact answers_typeRef ..
  · simp only [hlookup]
    exact .ambiguous hmany

/-! ## References -/

theorem resolveProto_unsupported (t : SymbolTable) (h : Spells dots name spelling)
    (hgoogle : InGoogle name)
    (hother : ∀ w : WellKnown, ¬ w.SpelledBy spelling) :
    site.resolveProto t spelling =
      .error (.unsupported (if name = "google.protobuf.Any" then .any else .wellKnown name) site.file
        (.field site.enclosing.dottedPath site.field)) := by
  simp only [Site.resolveProto, ofProtoName?_eq_none_iff.2 hother, h.withoutDots_eq,
    if_pos (isGoogleName_iff.2 hgoogle), Site.unsupported]
  split <;> rfl

/-- A reference that no enclosing scope declares means nothing. -/
theorem resolveProto_undeclared (h : Spells dots name spelling)
    (hgoogle : ¬ InGoogle name)
    (hfirst : t.lookupFirst site.file (site.candidates spelling) = .ok none) :
    site.resolveProto t spelling =
      .error (.unresolved name site.file site.enclosing.dottedPath site.field) := by
  have hnone := ofProtoName?_eq_none_iff.2 (h.not_spelledBy hgoogle)
  have hany := ne_any_of_not_google hgoogle
  have hother : ¬ isGoogleName name = true := fun hname => hgoogle (isGoogleName_iff.1 hname)
  simp only [Site.resolveProto, hnone, h.withoutDots_eq, if_neg hany, if_neg hother, hfirst,
    Site.unresolved]

theorem Spells.candidates_absolute (h : Spells (dots + 1) name spelling) :
    site.candidates spelling = [name] := by
  rw [Site.candidates, h.isAbsolute_eq, h.withoutDots_eq, if_pos (by simp)]

theorem Spells.candidates_relative (h : Spells 0 name name) :
    site.candidates name =
      relativeCandidates (site.enclosing.package ++ site.enclosing.path) name := by
  rw [Site.candidates, h.isAbsolute_eq, if_neg (by simp)]

/-- Resolving a reference gives what it means. -/
theorem protoMeans_resolveProto (files : List Schema) (site : Site) (spelling : String) :
    site.ProtoMeans files spelling (site.resolveProto (.ofFiles files) spelling) := by
  obtain ⟨dots, name, hspells⟩ := exists_spells spelling
  by_cases hknown : ∃ w : WellKnown, w.SpelledBy spelling
  · obtain ⟨w, hw⟩ := hknown
    rw [Site.resolveProto, ofProtoName?_eq_some_iff.2 hw]
    exact .wellKnown hw
  by_cases hgoogle : InGoogle name
  · have hother := not_exists.1 hknown
    rw [resolveProto_unsupported _ hspells hgoogle hother]
    exact .unsupported hspells hgoogle hother
  cases dots with
  | succ dots =>
    refine .absolute hspells hgoogle (answers_resolveProto hspells hgoogle ?_)
    rw [hspells.candidates_absolute, lookupFirst_singleton]
  | zero =>
    obtain rfl := hspells.eq_of_zero
    rcases lookupFirst_relativeCandidates files (site.enclosing.package ++ site.enclosing.path)
      spelling site.file with ⟨scope, hscope, hfirst⟩ | ⟨hnone, hfirst⟩
    · rw [← hspells.candidates_relative] at hfirst
      exact .relative hspells hgoogle hscope (answers_resolveProto hspells hgoogle hfirst)
    · rw [← hspells.candidates_relative] at hfirst
      rw [resolveProto_undeclared hspells hgoogle hfirst]
      exact .undeclared hspells hgoogle hnone

/-- What a reference means is what resolving it gives. -/
theorem resolveProto_of_protoMeans (h : site.ProtoMeans files spelling result) :
    site.resolveProto (.ofFiles files) spelling = result := by
  cases h with
  | wellKnown hw => rw [Site.resolveProto, ofProtoName?_eq_some_iff.2 hw]
  | unsupported hspells hgoogle hother => exact resolveProto_unsupported _ hspells hgoogle hother
  | absolute hspells hgoogle hanswers =>
    refine (answers_resolveProto hspells hgoogle ?_).unique hanswers
    rw [hspells.candidates_absolute, lookupFirst_singleton]
  | relative hspells hgoogle hscope hanswers =>
    refine (answers_resolveProto hspells hgoogle ?_).unique hanswers
    rw [hspells.candidates_relative]
    rcases lookupFirst_relativeCandidates files (site.enclosing.package ++ site.enclosing.path)
      spelling site.file with ⟨scope', hscope', hfirst⟩ | ⟨hnone, -⟩
    · rw [hscope.unique hscope', hfirst]
    · exact absurd (hnone _ hscope.encloses) hscope.declares
  | undeclared hspells hgoogle hnone =>
    refine resolveProto_undeclared hspells hgoogle ?_
    rw [hspells.candidates_relative]
    rcases lookupFirst_relativeCandidates files (site.enclosing.package ++ site.enclosing.path)
      spelling site.file with ⟨scope, hscope, -⟩ | ⟨-, hfirst⟩
    · exact absurd (hnone _ hscope.encloses) hscope.declares
    · exact hfirst

theorem resolveProto_eq_iff :
    site.resolveProto (.ofFiles files) spelling = result ↔ site.ProtoMeans files spelling result := by
  refine ⟨fun h => h ▸ protoMeans_resolveProto files site spelling, resolveProto_of_protoMeans⟩

/-! ## Fields and files -/

variable {f : Field} {s r : Schema} {n : TypeName}

theorem Field.protoMeans_resolve (files : List Schema) (file : String) (n : TypeName) (f : Field) :
    f.ProtoMeans files file n (f.resolve (.ofFiles files) .proto3 file n) := by
  by_cases hresolved : f.type.isResolved = true
  · rw [Field.resolve_eq_self hresolved]
    exact .kept hresolved
  · obtain ⟨spelling, hspelling⟩ : ∃ spelling, f.type = .named spelling := by
      cases htype : f.type with
      | named spelling => exact ⟨spelling, rfl⟩
      | _ => simp [htype, TypeRef.isResolved] at hresolved
    have hmeans := protoMeans_resolveProto files ⟨file, n, f.name⟩ spelling
    simp only [Field.resolve, hspelling, Site.resolve]
    cases hresult : Site.resolveProto (.ofFiles files) ⟨file, n, f.name⟩ spelling with
    | error e => exact .failed hspelling (hresult ▸ hmeans)
    | ok type => exact .meant hspelling (hresult ▸ hmeans)

/-- Resolving a proto3 file gives what its references mean. -/
theorem Schema.protoMeans_resolve (hs : s.dialect = .proto3) :
    s.ProtoMeans files (s.resolve (.ofFiles files)) := by
  have hmeans : ∀ {p : TypeName × Field} {result : Except ConversionError Field},
      p.2.resolve (.ofFiles files) s.dialect s.name p.1 = result →
        p.2.ProtoMeans files s.name p.1 result := by
    rintro p _ rfl
    rw [hs]
    exact p.2.protoMeans_resolve files s.name p.1
  cases hr : s.resolve (.ofFiles files) with
  | ok r =>
    refine .ok ((Schema.flatten_resolve hr).imp fun p q hpq => ⟨hpq.1, ?_⟩)
    exact hpq.2.fields.imp fun f g hfg => hmeans (p := (p.1, f)) hfg
  | error e =>
    obtain ⟨before, p, after, hfields, hbefore, hp⟩ := Schema.firstError_of_resolve hr
    exact .error hfields (fun p hp => (hbefore p hp).imp fun _ => hmeans) (hmeans hp)

/-- What the references of proto3 files mean is what resolving gives: for each reference at each place,
and for a whole file. -/
theorem protoReferences_meant (files : List Schema) :
    (∀ (site : Site) (spelling : String) (result : Except ConversionError TypeRef),
      site.resolve (.ofFiles files) .proto3 spelling = result ↔
        site.ProtoMeans files spelling result) ∧
      ∀ s : Schema, s.dialect = .proto3 → s.ProtoMeans files (s.resolve (.ofFiles files)) :=
  ⟨fun _ _ _ => resolveProto_eq_iff, fun _ => Schema.protoMeans_resolve⟩

/-- A wheel is that of the message that refers to it, and no other one if there are two of them. -/
theorem protoReferences_meant_robotFiles :
    ((wheeledFile "Cart").dialect = .proto3 ∧
        (wheeledFile "Cart").ProtoMeans robotFiles ((wheeledFile "Cart").resolve (.ofFiles robotFiles))) ∧
      Site.ProtoMeans robotFiles ⟨"Cart.proto", ⟨["robot"], ["Cart"]⟩, "front"⟩ "Wheel"
        (.ok (.message ⟨["robot"], ["Cart", "Wheel"]⟩)) ∧
      Site.ProtoMeans (wheeledFile "Cart" :: robotFiles)
        ⟨"Cart.proto", ⟨["robot"], ["Cart"]⟩, "front"⟩ "Wheel"
        (.error (.ambiguous "robot.Cart.Wheel" "Cart.proto" ["Cart.proto", "Cart.proto"])) :=
  ⟨⟨rfl, (protoReferences_meant robotFiles).2 _ rfl⟩,
    ((protoReferences_meant robotFiles).1 _ _ _).1 (by decide +kernel),
    ((protoReferences_meant (wheeledFile "Cart" :: robotFiles)).1 _ _ _).1 (by decide +kernel)⟩

end SchemaBridge
