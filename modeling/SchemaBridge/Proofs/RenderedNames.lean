import SchemaBridge.Proofs.BatchNames

/-!
# The names in generated files are looked up

A generated file spells a message of its own package by its name alone and any other message by its
package too. Neither spelling is absolute, and so it is looked up in every scope around the reference,
from the inside out. It means the message again if one file declares it and no scope before that of the
message has a message of the same spelling; it means nothing if no scope has (`FoundAgain`). What can
stand in the way is a matter of packages (`Obstacle`): with a given package of no more than one segment
nothing can, nor can a message of a directory without dots, unless the directory is named as the
message that refers to it.
-/

namespace SchemaBridge

open ProtoText

/-! ## Relative names -/

variable {t : SymbolTable} {site : Site} {n k : TypeName} {name within : String}
  {scope own : List String} {symbol : Symbol}

theorem mem_relativeCandidates {candidate : String} :
    candidate ∈ relativeCandidates scope name ↔
      ∃ i ≤ scope.length, ".".intercalate (scope.take i ++ [name]) = candidate := by
  simp [relativeCandidates]

/-- A plain name is looked up in every scope around the reference. -/
theorem candidates_relative (hn : n.IsPlain) :
    site.candidates n.qualified =
      relativeCandidates (site.enclosing.package ++ site.enclosing.path) n.qualified := by
  obtain ⟨c, cs, hcs, hc⟩ := hn.exists_cons
  rw [Site.candidates, if_neg (by simp [isAbsolute, hcs, hc])]

theorem withoutDots_relative (hn : n.IsPlain) : withoutDots n.qualified = n.qualified := by
  obtain ⟨c, cs, hcs, hc⟩ := hn.exists_cons
  exact withoutDots_eq_self (by simpa [hcs] using hc)

theorem ne_any (hn : n.IsPlain) : n.qualified ≠ "google.protobuf.Any" := by
  intro heq
  have hcount := hn.count_dot
  rw [heq] at hcount
  exact absurd hcount (by decide)

/-- A plain name means the first type that it is a name of. -/
theorem resolveProto_relative_eq_ok (hn : n.IsPlain)
    (h : t.lookupFirst site.file (site.candidates n.qualified) = .ok (some symbol)) :
    site.resolveProto t n.qualified = .ok symbol.typeRef := by
  simp only [Site.resolveProto, ofProtoName?_relative hn.count_dot, withoutDots_relative hn,
    if_neg (ne_any hn), not_isGoogleName hn.count_dot, h]
  rfl

theorem resolveProto_relative_eq_error (hn : n.IsPlain)
    (h : t.lookupFirst site.file (site.candidates n.qualified) = .ok none) :
    site.resolveProto t n.qualified = .error (site.unresolved n.qualified) := by
  simp only [Site.resolveProto, ofProtoName?_relative hn.count_dot, withoutDots_relative hn,
    if_neg (ne_any hn), not_isGoogleName hn.count_dot, h]
  rfl

/-! ## Names as they are spelled -/

/-- A type that is spelled as a name, and not as the keyword of a scalar. -/
def TypeRef.isReference : TypeRef → Bool
  | .scalar _ => false
  | _ => true

/-- The part of a name that is spelled in a file of package `own`. -/
def TypeName.relativeTo (own : List String) (n : TypeName) : TypeName :=
  ⟨if n.package = own then [] else n.package, n.path⟩

theorem nameText_eq_qualified : nameText own n = (n.relativeTo own).qualified := by
  unfold nameText TypeName.relativeTo
  split <;> rfl

namespace Batch

variable {given : Option String}

theorem Referred.isPlain (h : Referred t own n) : (n.relativeTo own).IsPlain := by
  have hname : ∀ segment ∈ n.path, IsSegment segment := by
    rw [h.path]
    simpa using h.name
  unfold TypeName.relativeTo
  split
  · exact ⟨Nat.zero_le 1, by rw [h.path]; rfl, by simpa using hname⟩
  · next hother =>
    obtain ⟨outer, houter, hpackage⟩ := h.package.resolve_left hother
    refine ⟨by simp [hpackage], by rw [h.path]; rfl, ?_⟩
    simpa [hpackage, or_imp, forall_and] using ⟨houter, hname⟩

/-- The names under which a message is looked up from the message `within` of package `own`. -/
theorem mem_candidates_iff {candidate : String} (h : Referred t own n) :
    candidate ∈ relativeCandidates (own ++ [within]) (nameText own n) ↔
      ∃ i ≤ own.length + 1,
        ".".intercalate ((own ++ [within]).take i ++ (n.relativeTo own).package ++ [n.name]) =
          candidate := by
  have hpath : (n.relativeTo own).path = [n.name] := h.path
  have hsegments : ∀ scope : List String,
      ".".intercalate (scope ++ [".".intercalate ((n.relativeTo own).package ++ [n.name])]) =
        ".".intercalate (scope ++ (n.relativeTo own).package ++ [n.name]) := by
    intro scope
    rw [intercalate_append_intercalate (by simp), List.append_assoc]
  rw [mem_relativeCandidates, nameText_eq_qualified, TypeName.qualified, hpath, List.length_append,
    List.length_singleton]
  simp only [hsegments]

/-- A message is looked up under its own name, among others. -/
theorem qualified_mem_candidates (h : Referred t own n) :
    n.qualified ∈ relativeCandidates (own ++ [within]) (nameText own n) := by
  rw [mem_candidates_iff h]
  by_cases hown : n.package = own
  · refine ⟨own.length, Nat.le_succ _, ?_⟩
    simp [TypeName.relativeTo, TypeName.qualified, hown, h.path]
  · refine ⟨0, Nat.zero_le _, ?_⟩
    simp [TypeName.relativeTo, TypeName.qualified, hown, h.path]

/-! ## What stands in the way -/

/-- A message other than `n` that a reference to `n` may find, from the message `within` of package
`own`. It has the name of `n`, and a package
* that is given for the batch and ends as that of `n`,
* that is a directory with a dot in its name, or
* that is a directory named as the message `within`, if neither that message nor `n` has a package. -/
inductive Obstacle (given : Option String) (own : List String) (within : String) (n : TypeName) :
    TypeName → Prop where
  | given {text outer : String} (hgiven : given = some text) (hlength : 2 ≤ (givenPackage text).length)
      (hlast : (givenPackage text).getLast? = some outer) (hn : n.package = [outer]) :
      Obstacle given own within n ⟨givenPackage text, n.path⟩
  | dotted {directory : String} (hgiven : given = none) (hdot : '.' ∈ directory.toList) :
      Obstacle given own within n ⟨[directory], n.path⟩
  | within (hgiven : given = none) (hown : own = []) (hn : n.package = []) :
      Obstacle given own within n ⟨[within], n.path⟩

theorem eq_of_package_eq (hpath : k.path = n.path) (hpackage : k.package = n.package) : k = n := by
  cases k
  cases n
  exact congrArg₂ TypeName.mk hpackage hpath

/-- The segments that are spelled in front of the name of a message of another package. -/
theorem Referred.exists_outer (h : Referred t own n) (hother : n.package ≠ own) :
    ∃ outer, IsSegment outer ∧ n.package = [outer] ∧ (n.relativeTo own).package = [outer] := by
  obtain ⟨outer, houter, hpackage⟩ := h.package.resolve_left hother
  exact ⟨outer, houter, hpackage, by rw [TypeName.relativeTo, if_neg hother, hpackage]⟩

theorem package_relativeTo_own (hown : n.package = own) : (n.relativeTo own).package = [] :=
  if_pos hown

variable {i : Nat}

/-- In a given package, a scope ends as the package of another message, or it is that of the message. -/
theorem obstacle_of_given {text : String} (hk : k.package = givenPackage text)
    (hown : own = givenPackage text) (hn : Referred t own n) (hpath : k.path = n.path) (hne : k ≠ n)
    (hscope : k.package = (own ++ [within]).take i ++ (n.relativeTo own).package) :
    Obstacle (some text) own within n k := by
  have hother : n.package ≠ own := fun hsame =>
    hne (eq_of_package_eq hpath (hk.trans (hown.symm.trans hsame.symm)))
  obtain ⟨outer, -, hpackage, hrelative⟩ := hn.exists_outer hother
  rw [hrelative, hk] at hscope
  have hlength : 2 ≤ (givenPackage text).length := by
    by_contra hshort
    rw [hscope, List.length_append, List.length_singleton] at hshort
    have hempty : (own ++ [within]).take i = [] := List.length_eq_zero_iff.1 (by omega)
    rw [hempty, List.nil_append, ← hown] at hscope
    exact hother (hpackage.trans hscope.symm)
  have hlast : (givenPackage text).getLast? = some outer := by rw [hscope, List.getLast?_concat]
  exact eq_of_package_eq (n := ⟨givenPackage text, n.path⟩) hpath hk ▸
    .given rfl hlength hlast hpackage

/-- In directories, a scope is the message that refers, or none at all. -/
theorem obstacle_of_directory (hk : k.package.length ≤ 1) (hown : own.length ≤ 1)
    (hn : Referred t own n) (hpath : k.path = n.path) (hne : k ≠ n)
    (hscope : k.package = (own ++ [within]).take i ++ (n.relativeTo own).package) :
    Obstacle none own within n k ∨ n.package = own ∧ k = ⟨[], n.path⟩ := by
  by_cases hsame : n.package = own
  · rw [package_relativeTo_own hsame, List.append_nil] at hscope
    match hdirectory : k.package, hk with
    | [], _ => exact .inr ⟨hsame, eq_of_package_eq hpath hdirectory⟩
    | [directory], _ =>
      left
      match own, hown with
      | [], _ =>
        have hwithin : [directory] = [within] := by
          rw [← hdirectory, hscope]
          cases i with
          | zero => simp [hdirectory] at hscope
          | succ i => simp
        exact eq_of_package_eq (n := ⟨[within], n.path⟩) hpath (hdirectory.trans hwithin) ▸
          .within rfl rfl hsame
      | [outer], _ =>
        refine absurd (eq_of_package_eq hpath ?_) hne
        rw [hsame, hdirectory]
        rw [hdirectory] at hscope
        cases i with
        | zero => simp at hscope
        | succ i => simpa using (List.cons.inj hscope).1
  · obtain ⟨outer, -, hpackage, hrelative⟩ := hn.exists_outer hsame
    rw [hrelative] at hscope
    refine absurd (eq_of_package_eq hpath ?_) hne
    rw [hscope, List.length_append, List.length_singleton] at hk
    rw [hscope, hpackage, List.length_eq_zero_iff.1 (by omega : ((own ++ [within]).take i).length = 0)]
    rfl

/-- A name of no more than one segment is that of other segments, or it has a dot. -/
theorem eq_or_dotted {package segments : List String} (h : package.length ≤ 1)
    (hnil : package = [] ↔ segments = [])
    (heq : ".".intercalate package = ".".intercalate segments) :
    package = segments ∨ ∃ directory, package = [directory] ∧ '.' ∈ directory.toList := by
  match package, segments, h with
  | [], segments, _ => exact .inl (hnil.1 rfl).symm
  | [directory], [], _ => exact absurd (hnil.2 rfl) (by simp)
  | [directory], [segment], _ => exact .inl (by simpa using heq)
  | [directory], a :: b :: more, _ =>
    refine .inr ⟨directory, rfl, ?_⟩
    rw [String.intercalate_singleton] at heq
    exact heq ▸ dot_mem_intercalate (by simp)

/-- Whatever else a reference may find stands in the way, but for a message without a directory. -/
theorem obstacle_of_candidate (hk : Declarable given k) (hown : IsPackage given own)
    (hwithin : IsSegment within) (hn : Referred t own n) (hne : k ≠ n)
    (hmem : k.qualified ∈ relativeCandidates (own ++ [within]) (nameText own n)) :
    Obstacle given own within n k ∨ given = none ∧ n.package = own ∧ k = ⟨[], n.path⟩ := by
  obtain ⟨i, -, heq⟩ := (mem_candidates_iff hn).1 hmem
  obtain ⟨hpath, hnil, hpackage⟩ := (hk.qualified_eq_iff hn.name.2).1 heq.symm
  rw [← hn.path] at hpath
  cases given with
  | some text =>
    -- the segments of a given package have no dots, and so the candidate tells them all
    have hk' : k.package = givenPackage text := hk.package
    have hown' : own = givenPackage text := hown
    have hdots : ∀ segment ∈ (own ++ [within]).take i ++ (n.relativeTo own).package,
        '.' ∉ segment.toList := by
      intro segment hsegment
      rcases List.mem_append.1 hsegment with hsegment | hsegment
      · rcases List.mem_append.1 (List.take_subset _ _ hsegment) with hsegment | hsegment
        · exact dot_not_mem_givenPackage (hown' ▸ hsegment)
        · exact List.mem_singleton.1 hsegment ▸ hwithin.2
      · exact (hn.isPlain.segments _ (List.mem_append_left _ hsegment)).2
    have hdots' : ∀ segment ∈ k.package, '.' ∉ segment.toList := fun segment hsegment =>
      dot_not_mem_givenPackage (hk' ▸ hsegment)
    have hscope : k.package = (own ++ [within]).take i ++ (n.relativeTo own).package := by
      by_cases hempty : k.package = []
      · rw [hempty, hnil.1 hempty]
      · exact (intercalate_inj (c := '.') rfl hdots' hdots hempty (hnil.not.1 hempty)).1 hpackage
    exact .inl (obstacle_of_given hk' hown' hn hpath hne hscope)
  | none =>
    -- a directory with dots in its name looks like several segments
    rcases eq_or_dotted hk.package hnil hpackage with hscope | ⟨directory, hdirectory, hdot⟩
    · exact (obstacle_of_directory hk.package hown hn hpath hne hscope).imp id fun h => ⟨rfl, h⟩
    · exact .inl (eq_of_package_eq (n := ⟨[directory], n.path⟩) hpath hdirectory ▸ .dotted rfl hdot)

/-- A message without a directory is looked up last. -/
theorem not_mem_takeWhile (hn : Referred t own n) (hk : k.package = []) (hpath : k.path = n.path)
    (hown : n.package = own) (hlength : own.length ≤ 1) :
    k.qualified ∉
      (relativeCandidates (own ++ [within]) (nameText own n)).takeWhile (· ≠ n.qualified) := by
  have hk' : k.qualified = n.name := by simp [TypeName.qualified, hk, hpath, hn.path]
  have htext : nameText own n = n.name := by
    rw [nameText, if_pos hown, TypeName.dottedPath, hn.path, String.intercalate_singleton]
  rw [hk', htext]
  intro hmem
  cases own with
  | nil =>
    have hsame : n.qualified = n.name := by simp [TypeName.qualified, hown, hn.path]
    simpa [hsame] using List.mem_takeWhile_imp hmem
  | cons outer rest =>
    obtain rfl : rest = [] := by simpa using hlength
    have hcandidates : relativeCandidates ([outer] ++ [within]) n.name =
        [".".intercalate ([outer, within] ++ [n.name]), n.qualified, n.name] := by
      rw [TypeName.qualified, hown, hn.path]
      simp [relativeCandidates, List.range_succ]
    rw [hcandidates] at hmem
    have hfirst : n.name = ".".intercalate ([outer, within] ++ [n.name]) := by
      rw [List.takeWhile_cons] at hmem
      split at hmem
      · simpa using hmem
      · cases hmem
    -- the only candidate in front of the name of the message has dots
    exact ne_intercalate_snoc (by simp) hn.name.2 hfirst

/-! ## Mapped files -/

variable {sources : List Source} {files : List Schema} {c s : Schema} {m : Message} {f : Field}

theorem exists_source_of_mem_mappedFiles (hc : c ∈ mappedFiles files) :
    ∃ s ∈ files, ∃ mapped, s.toProto (.ofFiles files) = .ok mapped ∧ mapped.schema = c := by
  obtain ⟨s, hs, hsome⟩ := List.mem_filterMap.1 hc
  obtain ⟨mapped, hmapped, hschema⟩ := Option.map_eq_some_iff.1 hsome
  exact ⟨s, hs, mapped, toOption_eq_some_iff.1 hmapped, hschema⟩

/-- A file is mapped to a file of the same message. -/
theorem single_toProto {mapped : Conversion} (h : s.Single m) (hmapped : s.toProto t = .ok mapped) :
    (∃ m', mapped.schema.Single m') ∧ mapped.schema.messageNames = s.messageNames := by
  obtain ⟨fields, -, hschema⟩ := h.exists_of_toProto hmapped
  rw [hschema, h.messageNames_eq]
  exact ⟨⟨_, rfl, h.enums, rfl, h.inner⟩, rfl⟩

theorem single_of_mem_mappedFiles (hc : c ∈ mappedFiles (schemas given sources)) :
    ∃ m, c.Single m := by
  obtain ⟨s, hs, mapped, hmapped, rfl⟩ := exists_source_of_mem_mappedFiles hc
  obtain ⟨m, hm⟩ := single_of_mem_schemas hs
  exact (single_toProto hm hmapped).1

/-- The messages of the mapped files are among those of the files, in their order. -/
theorem sublist_mappedFiles (hsingle : ∀ s ∈ files, ∃ m, s.Single m) :
    (declaredMessages (mappedFiles files)).Sublist (declaredMessages files) := by
  unfold mappedFiles
  generalize SymbolTable.ofFiles files = t
  induction files with
  | nil => exact .slnil
  | cons s files ih =>
    obtain ⟨⟨m, hm⟩, hfiles⟩ := List.forall_mem_cons.1 hsingle
    cases hmapped : s.toProto t with
    | error e =>
      rw [List.filterMap_cons_none (by rw [hmapped]; rfl)]
      exact (ih hfiles).trans (List.sublist_append_right ..)
    | ok mapped =>
      rw [List.filterMap_cons_some (by rw [hmapped]; rfl), declaredMessages, List.flatMap_cons,
        (single_toProto hm hmapped).2]
      exact (List.Sublist.refl _).append (ih hfiles)

/-- A message is declared by no more mapped files than the table of the sources has types of its name. -/
theorem count_mappedFiles_le (n : TypeName) :
    (declaredMessages (mappedFiles (schemas given sources))).count n ≤
      ((SymbolTable.ofFiles (schemas given sources)).named n.qualified).length := by
  have hsources : ∀ s ∈ schemas given sources, ∃ m, s.Single m := fun s hs => single_of_mem_schemas hs
  refine ((sublist_mappedFiles hsources).count_le n).trans ?_
  rw [declaredMessages, ← names_ofFiles hsources, List.count, List.countP_map, SymbolTable.named,
    ← List.countP_eq_length_filter]
  refine List.countP_mono_left fun symbol _ hsame => ?_
  have hsame : symbol.name = n := by simpa using hsame
  simp [hsame]

/-- What the fields of a mapped file refer to. -/
theorem referred_of_mem_mappedFiles (hc : c ∈ mappedFiles (schemas given sources)) :
    ∃ m, c.messages = [m] ∧ IsPackage given c.package ∧ IsSegment m.name ∧
      ∀ f ∈ m.fields, ∀ n, f.type = .message n →
        Referred (.ofFiles (schemas given sources)) c.package n := by
  obtain ⟨s, hs, mapped, hmapped, rfl⟩ := exists_source_of_mem_mappedFiles hc
  obtain ⟨source, -, hschema⟩ := exists_schema_of_mem_schemas hs
  obtain ⟨s₀, m, hm, rfl⟩ := exists_parsed_source hschema
  have hdeclared : ∀ symbol ∈ (SymbolTable.ofFiles (schemas given sources)).symbols,
      Declarable given symbol.name := fun symbol hsymbol => declarable_of_mem_symbols hsymbol
  generalize (given.map givenPackage).getD s₀.package = P at hs hschema hmapped
  have hsingle : Schema.Single { s₀ with package := P } m :=
    ⟨hm.single.messages, hm.single.enums, hm.single.nested, hm.single.inner⟩
  have hname := declarable_of_schema hschema hsingle
  obtain ⟨fields, hfields, hwritten⟩ := hsingle.exists_of_toProto hmapped
  rw [hm.dialect] at hfields
  refine ⟨Message.toProto { m with fields := fields }, by rw [hwritten], ?_, hname.name, ?_⟩
  · rw [hwritten]
    exact hname.package
  · intro f hf n hn
    have htypes := types_toProto { m with fields := fields }
    obtain ⟨g, hg, htype⟩ := List.mem_map.1 (htypes ▸ List.mem_map_of_mem hf)
    obtain ⟨f₀, hf₀, hresolve⟩ := exists_of_mem_left (mapM_eq_ok_iff.1 hfields).flip g hg
    rw [hn, toProto_eq_message_iff] at htype
    rw [hwritten]
    exact referred_of_resolve hdeclared hm hf₀ hname.package hresolve htype

/-! ## Looking up what is written -/

/-- Where a field of an outermost message refers to its type. -/
def siteOf (c : Schema) (m : Message) (f : Field) : Site :=
  ⟨c.name, (TypeName.root c.package).child m.name, f.name⟩

/-- The names under which the type of a field is looked up, as it is written. -/
def candidatesOf (c : Schema) (m : Message) (f : Field) : List String :=
  (siteOf c m f).candidates (typeText c.package f.type)

/-- The type that a field has by what is written, if `files` are all files. -/
def lookedUp (files : List Schema) (c : Schema) (m : Message) (f : Field) :
    Except ConversionError TypeRef :=
  (siteOf c m f).resolveProto (.ofFiles files) (typeText c.package f.type)

/-- What the type of a field is looked up as among the files of a batch.
* A well-known type is found again.
* A message is found again if one file declares it, unless another message is found before it.
* A message that no file declares is missing, unless another message is found in its place.
* Only the standard header can be declared more than once.
* A message that is looked up before the one meant is an obstacle, and any other one that is looked up in
  its place lies in no package, while the one meant lies in that of the file. -/
structure FoundAgain (given : Option String) (files : List Schema) (c : Schema) (m : Message)
    (f : Field) : Prop where
  wellKnown {w : WellKnown} (h : f.type = .wellKnown w) : lookedUp files c m f = .ok (.wellKnown w)
  declared {n : TypeName} (h : f.type = .message n) (hone : (declaredMessages files).count n = 1)
    (hfirst : ∀ k ∈ declaredMessages files,
      k.qualified ∉ (candidatesOf c m f).takeWhile (· ≠ n.qualified)) :
    lookedUp files c m f = .ok (.message n)
  undeclared {n : TypeName} (h : f.type = .message n) (hnone : n ∉ declaredMessages files)
    (hfree : ∀ k ∈ declaredMessages files, k.qualified ∉ candidatesOf c m f) :
    lookedUp files c m f = .error ((siteOf c m f).unresolved (typeText c.package f.type))
  once {n : TypeName} (h : f.type = .message n) (hheader : n ≠ ⟨["std_msgs"], ["Header"]⟩) :
    (declaredMessages files).count n ≤ 1
  obstacle {n k : TypeName} (h : f.type = .message n) (hk : k ∈ declaredMessages files)
    (hbefore : k.qualified ∈ (candidatesOf c m f).takeWhile (· ≠ n.qualified)) :
    Obstacle given c.package m.name n k
  other {n k : TypeName} (h : f.type = .message n) (hk : k ∈ declaredMessages files) (hne : k ≠ n)
    (hmem : k.qualified ∈ candidatesOf c m f) :
    Obstacle given c.package m.name n k ∨
      given = none ∧ n.package = c.package ∧ k = ⟨[], n.path⟩

theorem candidatesOf_eq (hf : f.type = .message n) :
    candidatesOf c m f = (siteOf c m f).candidates (n.relativeTo c.package).qualified := by
  rw [candidatesOf, hf, typeText, nameText_eq_qualified]

theorem candidatesOf_message (hf : f.type = .message n) (hn : Referred t c.package n) :
    candidatesOf c m f = relativeCandidates (c.package ++ [m.name]) (nameText c.package n) := by
  rw [candidatesOf_eq hf, candidates_relative hn.isPlain, nameText_eq_qualified]
  rfl

theorem lookedUp_wellKnown {w : WellKnown} (hf : f.type = .wellKnown w) :
    lookedUp files c m f = .ok (.wellKnown w) := by
  have hfound : WellKnown.ofProtoName? w.protoName = some w := by cases w <;> decide
  simp only [lookedUp, hf, typeText, Site.resolveProto, hfound]

theorem lookedUp_message (hf : f.type = .message n) (hn : Referred t c.package n)
    (hnamed : (SymbolTable.ofFiles files).named n.qualified = [symbol])
    (hsymbol : symbol.typeRef = .message n)
    (hbefore : ∀ x ∈ (candidatesOf c m f).takeWhile (· ≠ n.qualified),
      (SymbolTable.ofFiles files).named x = []) :
    lookedUp files c m f = .ok (.message n) := by
  have hmem : n.qualified ∈ candidatesOf c m f := by
    rw [candidatesOf_message hf hn]
    exact qualified_mem_candidates hn
  rw [candidatesOf_eq hf] at hmem hbefore
  rw [lookedUp, hf, typeText, nameText_eq_qualified,
    resolveProto_relative_eq_ok hn.isPlain (lookupFirst_eq_some hmem hbefore hnamed), hsymbol]

theorem lookedUp_missing (hf : f.type = .message n) (hn : Referred t c.package n)
    (hfree : ∀ x ∈ candidatesOf c m f, (SymbolTable.ofFiles files).named x = []) :
    lookedUp files c m f = .error ((siteOf c m f).unresolved (typeText c.package f.type)) := by
  rw [candidatesOf_eq hf] at hfree
  rw [lookedUp, hf, typeText, nameText_eq_qualified,
    resolveProto_relative_eq_error hn.isPlain (lookupFirst_eq_none hfree)]

/-- A table has no type of a name that no message has. -/
theorem named_eq_nil {names : List TypeName} {candidate : String}
    (hnames : t.symbols.map (·.name) = names) (h : ∀ k ∈ names, k.qualified ≠ candidate) :
    t.named candidate = [] := by
  rw [SymbolTable.named, List.filter_eq_nil_iff]
  intro symbol hsymbol
  simpa using h symbol.name (hnames ▸ List.mem_map_of_mem hsymbol)

/-- A table has one type of the name of a message that is declared once. -/
theorem exists_named_of_count {names : List TypeName} (hnames : t.symbols.map (·.name) = names)
    (hinj : ∀ k ∈ names, k.qualified = n.qualified → k = n) (hone : names.count n = 1) :
    ∃ symbol ∈ t.symbols, t.named n.qualified = [symbol] ∧ symbol.name = n := by
  have hfilter : t.named n.qualified = t.symbols.filter (·.name = n) := by
    refine List.filter_congr fun symbol hsymbol => ?_
    have hname := hinj symbol.name (hnames ▸ List.mem_map_of_mem hsymbol)
    rw [decide_eq_decide]
    exact ⟨hname, fun heq => heq ▸ rfl⟩
  have hlength : (t.named n.qualified).length = 1 := by
    rw [hfilter, length_filter_name, hnames, hone]
  obtain ⟨symbol, hsymbol⟩ := List.length_eq_one_iff.1 hlength
  have hmem : symbol ∈ t.symbols.filter (·.name = n) := by
    rw [← hfilter, hsymbol]
    exact List.mem_singleton_self symbol
  obtain ⟨hmem, hname⟩ := List.mem_filter.1 hmem
  exact ⟨symbol, hmem, hsymbol, by simpa using hname⟩

/-- The types of the fields of a mapped file are looked up as what they mean. -/
theorem foundAgain_of_mem_mappedFiles (hc : c ∈ mappedFiles (schemas given sources)) :
    ∀ m ∈ c.messages, ∀ f ∈ m.fields,
      FoundAgain given (mappedFiles (schemas given sources)) c m f := by
  obtain ⟨m, hmessages, hpackage, hname, hreferred⟩ := referred_of_mem_mappedFiles hc
  rw [hmessages]
  simp only [List.mem_singleton, forall_eq]
  intro f hf
  have hdeclarable : ∀ k ∈ declaredMessages (mappedFiles (schemas given sources)),
      Declarable given k := fun k hk =>
    declarable_of_mem ((sublist_mappedFiles fun s hs => single_of_mem_schemas hs).subset hk)
  have hmapped : ∀ c ∈ mappedFiles (schemas given sources), ∃ m, c.Single m := fun c hc =>
    single_of_mem_mappedFiles hc
  have hnames := names_ofFiles hmapped
  have hkinds := outermost_ofFiles hmapped
  have hfree : ∀ {names : List String}, (∀ k ∈ declaredMessages (mappedFiles (schemas given sources)),
      k.qualified ∉ names) → ∀ x ∈ names,
        (SymbolTable.ofFiles (mappedFiles (schemas given sources))).named x = [] :=
    fun h x hx => named_eq_nil hnames fun k hk hqualified => h k hk (hqualified ▸ hx)
  refine ⟨lookedUp_wellKnown, ?declared, ?undeclared, ?once, ?obstacle, ?other⟩
  case declared =>
    intro n hn hone hfirst
    have hmem : n ∈ declaredMessages (mappedFiles (schemas given sources)) :=
      List.count_pos_iff.1 (by omega)
    have hinj : ∀ k ∈ declaredMessages (mappedFiles (schemas given sources)),
        k.qualified = n.qualified → k = n := fun k hk =>
      ((hdeclarable k hk).qualified_inj (hdeclarable n hmem)).1
    obtain ⟨symbol, hsymbol, hnamed, hname⟩ := exists_named_of_count hnames hinj hone
    have htype : symbol.typeRef = .message n := by rw [Symbol.typeRef, (hkinds symbol hsymbol).1, hname]
    exact lookedUp_message hn (hreferred f hf n hn) hnamed htype (hfree hfirst)
  case undeclared =>
    intro n hn _ hnone
    exact lookedUp_missing hn (hreferred f hf n hn) (hfree hnone)
  case once =>
    intro n hn hheader
    exact (count_mappedFiles_le n).trans ((hreferred f hf n hn).once.resolve_left hheader)
  case obstacle =>
    intro n k hn hk hbefore
    have href := hreferred f hf n hn
    have hne : k ≠ n := by
      rintro rfl
      simpa using List.mem_takeWhile_imp hbefore
    rw [candidatesOf_message hn href] at hbefore
    have hmem := List.takeWhile_subset _ hbefore
    rcases obstacle_of_candidate (hdeclarable k hk) hpackage hname href hne hmem with
      hobstacle | ⟨rfl, hown, rfl⟩
    · exact hobstacle
    · exact absurd hbefore (not_mem_takeWhile href rfl rfl hown hpackage)
  case other =>
    intro n k hn hk hne hmem
    have href := hreferred f hf n hn
    rw [candidatesOf_message hn href] at hmem
    exact obstacle_of_candidate (hdeclarable k hk) hpackage hname href hne hmem

/-! ## The lines of fields -/

/-- The text has a line of its own for the field, in which its type is spelled so. -/
def SpelledIn (text : String) (f : Field) (spelling : String) : Prop :=
  ∃ (number : Nat) (before after : List String),
    text = Text.unlines (before ++
      indent (labelText f ++ spelling ++ " " ++ f.name ++ " = " ++ toString number ++ ";") :: after)

/-- The line of a field of an outermost message spells its type as it is looked up. -/
theorem spelledIn_render (hm : m ∈ c.messages) {f : Field} (hf : f ∈ m.fields) :
    SpelledIn (render c) f (typeText c.package f.type) := by
  obtain ⟨i, hi, rfl⟩ := List.getElem_of_mem hf
  have hfield : fieldLines c.package i m.fields[i] ∈ m.fields.mapIdx (fieldLines c.package) :=
    List.mem_mapIdx.2 ⟨i, hi, rfl⟩
  have hfile : ∀ line ∈ fieldLines c.package i m.fields[i], indent line ∈ fileLines c := by
    intro line hline
    have hlines : indent line ∈ messageLines c.package m := by
      obtain ⟨name, fields, nested, enums, constants, comments⟩ := m
      rw [messageLines]
      refine List.mem_append_left _ (List.mem_append_right _ (List.mem_map_of_mem ?_))
      refine List.mem_append_left _ (List.mem_append_left _ ?_)
      exact List.mem_flatten.2 ⟨_, hfield, hline⟩
    refine List.mem_append_left _ (List.mem_append_right _ ?_)
    exact List.mem_flatMap.2 ⟨m, hm, List.mem_cons_of_mem _ hlines⟩
  obtain ⟨before, after, hlines⟩ := List.append_of_mem
    (hfile _ (List.mem_append_right _ (List.mem_singleton_self _)))
  exact ⟨_, before, after, congrArg Text.unlines hlines⟩

/-- The type of every field of an output is spelled in a line of the output's text, and what is spelled
is looked up, by the rules for references of proto3 files, as the type that the field was mapped to. -/
theorem outputs_foundAgain (sources : List Source) (package : Option String) :
    ∀ o ∈ outputs (convert sources package), ∃ c ∈ mappedFiles (schemas package sources),
      o.path = c.name ∧ o.text = render c ∧ ∀ m ∈ c.messages, ∀ f ∈ m.fields,
        SpelledIn o.text f (typeText c.package f.type) ∧
          FoundAgain package (mappedFiles (schemas package sources)) c m f := by
  intro o ho
  rw [outputs_convert] at ho
  obtain ⟨s, hs, ho⟩ := List.mem_filterMap.1 ho
  obtain ⟨mapped, hmapped, ho⟩ := bind_eq_ok_iff.1 (toOption_eq_some_iff.1 ho)
  obtain rfl := Except.ok.inj ho
  have hc : mapped.schema ∈ mappedFiles (schemas package sources) :=
    List.mem_filterMap.2 ⟨s, hs, by rw [hmapped]; rfl⟩
  exact ⟨mapped.schema, hc, rfl, rfl, fun m hm f hf =>
    ⟨spelledIn_render hm hf, foundAgain_of_mem_mappedFiles hc m hm f hf⟩⟩

/-! ### A route -/

/-- The generated file of a route. -/
theorem mappedFiles_routeSources : ∀ c ∈ mappedFiles (schemas none routeSources),
    c.name = "nav/route.proto" → c.package = ["nav"] ∧
      c.messages.map (fun m => (m.name, m.fields.map (·.type))) =
        [("Route", [.message ⟨["nav"], ["Route"]⟩, .message ⟨["geo"], ["Pose"]⟩,
          .message ⟨["nav_core"], ["Goal"]⟩, .wellKnown .timestamp])] := by
  decide +kernel

/-- Its fields are looked up as two messages, one of them the route itself, as one that no file of the
batch declares, and as a well-known type. -/
theorem outputs_foundAgain_routeSources :
    ∃ c ∈ mappedFiles (schemas none routeSources), c.name = "nav/route.proto" ∧
      ∀ m ∈ c.messages,
        (m.fields.map fun f =>
          (lookedUp (mappedFiles (schemas none routeSources)) c m f).toOption) =
          [some (.message ⟨["nav"], ["Route"]⟩), some (.message ⟨["geo"], ["Pose"]⟩), none,
           some (.wellKnown .timestamp)] := by
  have hdeclared : declaredMessages (mappedFiles (schemas none routeSources)) =
      [⟨["geo"], ["Point"]⟩, ⟨["geo"], ["Pose"]⟩, ⟨["nav"], ["Route"]⟩] := by decide +kernel
  obtain ⟨o, ho, hpath⟩ : ∃ o ∈ outputs (convert routeSources none), o.path = "nav/route.proto" := by
    decide +kernel
  obtain ⟨c, hc, hname, -, hfound⟩ := outputs_foundAgain routeSources none o ho
  obtain ⟨hpackage, hmessages⟩ := mappedFiles_routeSources c hc (hname ▸ hpath)
  refine ⟨c, hc, hname ▸ hpath, fun m hm => ?_⟩
  have hshape := List.mem_map_of_mem (f := fun m : Message => (m.name, m.fields.map (·.type))) hm
  rw [hmessages, List.mem_singleton, Prod.mk.injEq] at hshape
  obtain ⟨hm', htypes⟩ := hshape
  have hcandidates : ∀ f : Field, candidatesOf c m f =
      (Site.mk "" ⟨["nav"], ["Route"]⟩ "").candidates (typeText ["nav"] f.type) := by
    intro f
    rw [candidatesOf, siteOf, hpackage, hm']
    rfl
  have hfields : ∀ f ∈ m.fields, (lookedUp (mappedFiles (schemas none routeSources)) c m f).toOption =
      if f.type = .message ⟨["nav_core"], ["Goal"]⟩ then none else some f.type := by
    intro f hf
    obtain ⟨-, hfound⟩ := hfound m hm f hf
    have htype := List.mem_map_of_mem (f := Field.type) hf
    rw [htypes] at htype
    simp only [List.mem_cons, List.not_mem_nil, or_false] at htype
    rcases htype with htype | htype | htype | htype
    · rw [hfound.declared htype (by rw [hdeclared]; decide)
        (by rw [hdeclared, hcandidates, htype]; decide +kernel), htype]
      rfl
    · rw [hfound.declared htype (by rw [hdeclared]; decide)
        (by rw [hdeclared, hcandidates, htype]; decide +kernel), htype]
      rfl
    · rw [hfound.undeclared htype (by rw [hdeclared]; decide)
        (by rw [hdeclared, hcandidates, htype]; decide +kernel), htype]
      rfl
    · rw [hfound.wellKnown htype, htype]
      rfl
  rw [List.map_congr_left hfields]
  have hmap := congrArg (List.map fun type : TypeRef =>
    if type = .message ⟨["nav_core"], ["Goal"]⟩ then none else some type) htypes
  rw [List.map_map] at hmap
  exact hmap

/-! ### Names that are not found again -/

/-- What a reference is looked up as if names are never mistaken and never missing: as a message of
those that a batch declares, or as a well-known type. -/
def expected (names : List TypeName) : TypeRef → Option TypeRef
  | .message n => if n ∈ names then some (.message n) else none
  | type => some type

/-- Every reference of a converted file is looked up as what it means to the batch. -/
def LookedUpExactly (sources : List Source) (given : Option String) : Prop :=
  ∀ c ∈ mappedFiles (schemas given sources), ∀ m ∈ c.messages, ∀ f ∈ m.fields,
    f.type.isReference = true →
      (lookedUp (mappedFiles (schemas given sources)) c m f).toOption =
        expected (declaredMessages (schemas given sources)) f.type

instance (sources : List Source) (given : Option String) :
    Decidable (LookedUpExactly sources given) :=
  inferInstanceAs (Decidable (∀ c ∈ mappedFiles (schemas given sources), ∀ m ∈ c.messages,
    ∀ f ∈ m.fields, f.type.isReference = true →
      (lookedUp (mappedFiles (schemas given sources)) c m f).toOption =
        expected (declaredMessages (schemas given sources)) f.type))

/-- A probe that refers to a needle, whose own file refers to a message that is missing. -/
def probeSources : List Source :=
  [{ path := "lab/Probe.msg", text := "Needle needle\n" },
   { path := "lab/Needle.msg", text := "Tip tip\n" }]

/-- A camera that refers to an image of another package than its own. -/
def cameraSources : List Source :=
  [{ path := "Camera.msg", text := "sensor/Image image\n" },
   { path := "Image.msg", text := "uint8[] data\n" }]

/-- The file of the needle is not generated, two files declare the standard header, and the image of
the package `sensor` is looked up as that of the package `acme.sensor`. -/
theorem not_lookedUpExactly :
    ¬LookedUpExactly probeSources none ∧
      ¬LookedUpExactly (headerSources ["one/std_msgs/Header.msg", "two/std_msgs/Header.msg"]) none ∧
      ¬LookedUpExactly cameraSources (some "acme.sensor") := by
  refine ⟨?_, ?_, ?_⟩ <;> decide +kernel

end Batch

end SchemaBridge
