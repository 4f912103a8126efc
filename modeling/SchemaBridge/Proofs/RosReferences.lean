import SchemaBridge.Proofs.BatchNames
import SchemaBridge.Proofs.TableAnswers

/-!
# What ROS references mean

A reference of a `.msg` file names a message (`Batch.Names`): one of the file's own package, or one of
the package that is spelled. What it means depends on how many files of the batch declare that message
and on the packages of the batch (`Batch.Outcome`): a message that one file declares is meant, one that
several files declare is ambiguous, and one that no file declares is trusted to exist only if no file has
its package. So a mistyped name never passes for a message of another package (`Batch.FailsClosed`,
`rosReferences_closed`).

`msg` between package and name changes nothing but the spelling in an error (`longForm_sameKind`).
-/

namespace SchemaBridge

open RosText

/-! ## Spellings -/

/-- A reference spells a well-known type: by its ROS name, or with `msg` between package and name. -/
def WellKnown.RosSpelledBy (w : WellKnown) (spelling : String) : Prop :=
  ∃ package name, IsPart package ∧ IsPart name ∧ w.rosName = package ++ "/" ++ name ∧
    (spelling = package ++ "/" ++ name ∨ spelling = package ++ "/msg/" ++ name)

variable {t : SymbolTable} {site : Site} {package name spelling : String} {w : WellKnown}

theorem slashParts_long (hpackage : IsPart package) (hname : IsPart name) :
    slashParts (package ++ "/msg/" ++ name) = [package, "msg", name] := by
  have hmsg : IsPart "msg" := ⟨by decide, by decide⟩
  have hspelling : package ++ "/msg/" ++ name = package ++ "/" ++ ("msg" ++ "/" ++ name) :=
    String.toList_injective (by simp)
  rw [hspelling, slashParts_cons hpackage, slashParts_cons hmsg, slashParts_of_isPart hname]

theorem shortForm_short (hpackage : IsPart package) (hname : IsPart name) :
    Site.shortForm (package ++ "/" ++ name) = package ++ "/" ++ name :=
  shortForm_of_length (slashParts_qualified hpackage hname) (by simp)

theorem shortForm_long (hpackage : IsPart package) (hname : IsPart name) :
    Site.shortForm (package ++ "/msg/" ++ name) = package ++ "/" ++ name := by
  simp only [Site.shortForm, slashParts_long hpackage hname]

theorem WellKnown.RosSpelledBy.shortForm_eq (h : w.RosSpelledBy spelling) :
    Site.shortForm spelling = w.rosName := by
  obtain ⟨package, name, hpackage, hname, hw, rfl | rfl⟩ := h
  · rw [shortForm_short hpackage hname, hw]
  · rw [shortForm_long hpackage hname, hw]

/-- A spelling of a well-known type means that type, whatever is declared. -/
theorem resolveRos_wellKnown (t : SymbolTable) (site : Site) (hw : w ≠ .bytesValue)
    (h : w.RosSpelledBy spelling) : site.resolveRos t spelling = .ok (.wellKnown w) := by
  rw [Site.resolveRos, h.shortForm_eq, ofRosName?_rosName hw]

theorem ofRosName?_eq_none (hpackage : IsPart package) (hname : IsPart name)
    (hspelled : spelling = package ++ "/" ++ name ∨ spelling = package ++ "/msg/" ++ name)
    (h : ∀ w : WellKnown, ¬ w.RosSpelledBy spelling) :
    WellKnown.ofRosName? (package ++ "/" ++ name) = none := by
  rw [WellKnown.ofRosName?, List.find?_eq_none]
  intro w _ hfound
  exact h w ⟨package, name, hpackage, hname, (of_decide_eq_true hfound).2, hspelled⟩

theorem resolveRos_long (hpackage : IsPart package) (hname : IsPart name)
    (hw : WellKnown.ofRosName? (package ++ "/" ++ name) = none) :
    site.resolveRos t (package ++ "/msg/" ++ name) =
      site.resolveQualified t (package ++ "/msg/" ++ name) package name := by
  rw [Site.resolveRos, shortForm_long hpackage hname, hw]
  simp only [slashParts_long hpackage hname]

/-! ## The long form -/

/-- Two errors say the same of one place, but for how the reference is spelled there. -/
inductive ConversionError.SameKind : ConversionError → ConversionError → Prop
  | unresolved {name name' file message field : String} :
      SameKind (.unresolved name file message field) (.unresolved name' file message field)
  | ambiguous {name file : String} {candidates : List String} :
      SameKind (.ambiguous name file candidates) (.ambiguous name file candidates)

theorem resolveQualified_sameKind (t : SymbolTable) (site : Site)
    (spelling spelling' package name : String) :
    ResultRel ConversionError.SameKind Eq (site.resolveQualified t spelling package name)
      (site.resolveQualified t spelling' package name) := by
  unfold Site.resolveQualified
  rcases lookup_cases t (TypeName.mk [package] [name]).qualified site.file with
    ⟨-, hlookup⟩ | ⟨symbol, -, hlookup⟩ | ⟨-, hlookup⟩
  · simp only [hlookup]
    split
    · exact .error .unresolved
    · exact .ok rfl
  · simp only [hlookup]
    exact .ok rfl
  · simp only [hlookup]
    exact .error .ambiguous

/-- `msg` between package and name changes nothing but the spelling in an error. -/
theorem longForm_sameKind (t : SymbolTable) (site : Site) (hpackage : IsPart package)
    (hname : IsPart name) :
    ResultRel ConversionError.SameKind Eq (site.resolveRos t (package ++ "/msg/" ++ name))
      (site.resolveRos t (package ++ "/" ++ name)) := by
  cases hw : WellKnown.ofRosName? (package ++ "/" ++ name) with
  | some w =>
    rw [Site.resolveRos, Site.resolveRos, shortForm_long hpackage hname,
      shortForm_short hpackage hname, hw]
    exact .ok rfl
  | none =>
    rw [resolveRos_long hpackage hname hw, resolveRos_qualified hpackage hname hw]
    exact resolveQualified_sameKind ..

namespace Batch

/-! ## What references name -/

/-- A reference of a file of package `own` names a message: by its name alone if it is one of that
package, or by its package and its name. -/
inductive Names (own : List String) : String → TypeName → Prop
  | bare {name : String} (hname : IsIdentifier name.toList) : Names own name ⟨own, [name]⟩
  | short {package name : String} (hpackage : IsIdentifier package.toList)
      (hname : IsIdentifier name.toList) :
      Names own (package ++ "/" ++ name) ⟨[package], [name]⟩
  | long {package name : String} (hpackage : IsIdentifier package.toList)
      (hname : IsIdentifier name.toList) :
      Names own (package ++ "/msg/" ++ name) ⟨[package], [name]⟩

/-- The files that declare a message, in their order. -/
def declarers (files : List Schema) (n : TypeName) : List String :=
  (files.filter fun s => n ∈ s.messageNames).map (·.name)

/-- What a reference at a place means that names the message `n`. -/
inductive Outcome (files : List Schema) (site : Site) (spelling : String) (n : TypeName) :
    Except ConversionError TypeRef → Prop
  | once (hone : (declaredMessages files).count n = 1) :
      Outcome files site spelling n (.ok (.message n))
  | ambiguous (hmany : 2 ≤ (declaredMessages files).count n) :
      Outcome files site spelling n
        (.error (.ambiguous n.qualified site.file (declarers files n)))
  | missing (hnone : n ∉ declaredMessages files) (hpackage : ∃ s ∈ files, s.package = n.package) :
      Outcome files site spelling n (.error (site.unresolved spelling))
  | trusted (hnone : n ∉ declaredMessages files) (hforeign : ∀ s ∈ files, s.package ≠ n.package) :
      Outcome files site spelling n (.ok (.message n))

variable {given : Option String} {sources : List Source} {files : List Schema} {s : Schema}
  {n : TypeName} {own : List String}

/-- In a table of a batch, only the message that a reference names has its qualified name. -/
theorem Names.named_eq (h : Names s.package spelling n) (hs : s ∈ schemas given sources) :
    (SymbolTable.ofFiles (schemas given sources)).named n.qualified =
      (SymbolTable.ofFiles (schemas given sources)).symbols.filter (·.name = n) := by
  refine List.filter_congr fun symbol hsymbol => ?_
  have hsymbol := declarable_of_mem_symbols hsymbol
  rw [decide_eq_decide]
  cases h with
  | bare hname =>
    exact hsymbol.qualified_inj ⟨isPackage_of_mem_schemas hs, rfl, isSegment_of_isIdentifier hname⟩
  | short hpackage hname =>
    exact hsymbol.qualified_outer_iff (isSegment_of_isIdentifier hpackage).2
      (isSegment_of_isIdentifier hname).2
  | long hpackage hname =>
    exact hsymbol.qualified_outer_iff (isSegment_of_isIdentifier hpackage).2
      (isSegment_of_isIdentifier hname).2

/-- The symbols of a message come from the files that declare it. -/
theorem files_filter_name (hsingle : ∀ s ∈ files, ∃ m, s.Single m) (n : TypeName) :
    ((SymbolTable.ofFiles files).symbols.filter (·.name = n)).map (·.file) = declarers files n := by
  rw [SymbolTable.ofFiles_eq, declarers]
  induction files with
  | nil => rfl
  | cons s files ih =>
    obtain ⟨⟨m, hm⟩, hfiles⟩ := List.forall_mem_cons.1 hsingle
    rw [List.flatMap_cons, List.filter_append, List.map_append, ih hfiles, hm.symbols_eq]
    by_cases hn : n = ⟨s.package, [m.name]⟩
    · rw [List.filter_cons_of_pos (by simp [hn]),
        List.filter_cons_of_pos (by simp [hm.messageNames_eq, hn])]
      rfl
    · rw [List.filter_cons_of_neg (by simp [Ne.symm hn]),
        List.filter_cons_of_neg (by simp [hm.messageNames_eq, hn])]
      rfl

/-- The table has as many symbols of what a reference names as files declare it. -/
theorem Names.named_cases (h : Names s.package spelling n) (hs : s ∈ schemas given sources) :
    (n ∉ declaredMessages (schemas given sources) ∧
        (SymbolTable.ofFiles (schemas given sources)).named n.qualified = []) ∨
      ((declaredMessages (schemas given sources)).count n = 1 ∧ ∃ symbol,
        (SymbolTable.ofFiles (schemas given sources)).named n.qualified = [symbol] ∧
          symbol.typeRef = .message n) ∨
        2 ≤ (declaredMessages (schemas given sources)).count n ∧
          2 ≤ ((SymbolTable.ofFiles (schemas given sources)).named n.qualified).length ∧
            ((SymbolTable.ofFiles (schemas given sources)).named n.qualified).map (·.file) =
              declarers (schemas given sources) n := by
  have hsingle : ∀ s ∈ schemas given sources, ∃ m, s.Single m := fun s hs => single_of_mem_schemas hs
  have hlength := length_filter_name (.ofFiles (schemas given sources)) n
  rw [← h.named_eq hs, names_ofFiles hsingle] at hlength
  rcases SchemaBridge.lookup_cases (.ofFiles (schemas given sources)) n.qualified s.name with
    ⟨hnamed, -⟩ | ⟨symbol, hnamed, -⟩ | ⟨hmany, -⟩
  · rw [hnamed] at hlength
    exact .inl ⟨List.count_eq_zero.1 hlength.symm, hnamed⟩
  · rw [hnamed] at hlength
    refine .inr (.inl ⟨hlength.symm, symbol, hnamed, ?_⟩)
    have hmem := hnamed ▸ List.mem_singleton_self symbol
    rw [h.named_eq hs] at hmem
    obtain ⟨hsymbol, hname⟩ := List.mem_filter.1 hmem
    rw [Symbol.typeRef, (outermost_ofFiles hsingle symbol hsymbol).1, of_decide_eq_true hname]
  · refine .inr (.inr ⟨hlength ▸ hmany, hmany, ?_⟩)
    rw [h.named_eq hs, files_filter_name hsingle]

/-! ## What references mean -/

theorem outcome_resolveQualified (h : Names s.package spelling ⟨[package], [name]⟩)
    (hs : s ∈ schemas given sources) (hsite : site.enclosing.package = s.package) :
    Outcome (schemas given sources) site spelling ⟨[package], [name]⟩
      (site.resolveQualified (.ofFiles (schemas given sources)) spelling package name) := by
  rcases h.named_cases hs with ⟨hnone, hnamed⟩ | ⟨hone, symbol, hnamed, hsymbol⟩ |
    ⟨hmany, hlength, hfiles⟩
  · by_cases hpackage : ∃ s' ∈ schemas given sources, s'.package = [package]
    · rw [resolveQualified_missing hnamed (.inr ?_)]
      · exact .missing hnone hpackage
      · obtain ⟨s', hs', hpackage⟩ := hpackage
        exact hpackage ▸ hasPackage_of_mem_schemas hs'
    · have hforeign : ∀ s' ∈ schemas given sources, s'.package ≠ [package] := fun s' hs' hsame =>
        hpackage ⟨s', hs', hsame⟩
      rw [resolveQualified_trusted hnamed (hsite ▸ hforeign s hs)]
      · exact .trusted hnone hforeign
      · rw [SymbolTable.ofFiles_eq, SymbolTable.hasPackage, ← Bool.not_eq_true, List.contains_iff_mem]
        simpa using hforeign
  · rw [resolveQualified_once hnamed, hsymbol]
    exact .once hone
  · rw [resolveQualified_ambiguous hlength, hfiles]
    exact .ambiguous hmany

theorem outcome_resolveLocal (h : Names s.package spelling ⟨s.package, [name]⟩)
    (hs : s ∈ schemas given sources) (hsite : site.enclosing.package = s.package)
    (hheader : name ≠ "Header") :
    Outcome (schemas given sources) site spelling ⟨s.package, [name]⟩
      (site.resolveLocal (.ofFiles (schemas given sources)) spelling name) := by
  unfold Site.resolveLocal
  rw [hsite]
  rcases h.named_cases hs with ⟨hnone, hnamed⟩ | ⟨hone, symbol, hnamed, hsymbol⟩ |
    ⟨hmany, hlength, hfiles⟩
  · simp only [lookup_eq_none_iff_named.2 hnamed, if_neg hheader]
    exact .missing hnone ⟨s, hs, rfl⟩
  · simp only [SymbolTable.lookup_eq_some_iff_named.2 hnamed, hsymbol]
    exact .once hone
  · simp only [lookup_eq_ambiguous hlength, hfiles]
    exact .ambiguous hmany

/-- What a reference means that names a message. -/
theorem Names.outcome (h : Names s.package spelling n) (hs : s ∈ schemas given sources)
    (hsite : site.enclosing.package = s.package) (hheader : spelling ≠ "Header")
    (hother : ∀ w : WellKnown, ¬ w.RosSpelledBy spelling) :
    Outcome (schemas given sources) site spelling n
      (site.resolveRos (.ofFiles (schemas given sources)) spelling) := by
  cases h with
  | bare hname =>
    rw [resolveRos_of_isIdentifier hname]
    exact outcome_resolveLocal (.bare hname) hs hsite hheader
  | short hpackage hname =>
    have hpackage' := isPart_of_isIdentifier hpackage
    have hname' := isPart_of_isIdentifier hname
    rw [resolveRos_qualified hpackage' hname' (ofRosName?_eq_none hpackage' hname' (.inl rfl) hother)]
    exact outcome_resolveQualified (.short hpackage hname) hs hsite
  | long hpackage hname =>
    have hpackage' := isPart_of_isIdentifier hpackage
    have hname' := isPart_of_isIdentifier hname
    rw [resolveRos_long hpackage' hname' (ofRosName?_eq_none hpackage' hname' (.inr rfl) hother)]
    exact outcome_resolveQualified (.long hpackage hname) hs hsite

/-- Three parts mean nothing if the one in the middle is not `msg`. -/
theorem resolveRos_three {first middle last : String} (t : SymbolTable) (site : Site)
    (hparts : slashParts spelling = [first, middle, last]) (hmiddle : middle ≠ "msg") :
    site.resolveRos t spelling = .error (site.unresolved spelling) := by
  have hshort : Site.shortForm spelling = spelling := by
    unfold Site.shortForm
    split
    · next heq => simp_all
    · rfl
  have hnone : WellKnown.ofRosName? spelling = none := by
    rw [WellKnown.ofRosName?, List.find?_eq_none]
    intro w _ hfound
    obtain rfl := (of_decide_eq_true hfound).2
    have hlength := slashParts_rosName_length w
    rw [hparts] at hlength
    simp at hlength
  rw [Site.resolveRos, hshort, hnone]
  simp only [hparts]
  split
  · next heq => cases heq
  · next heq => cases heq
  · next heq =>
    cases heq
    exact absurd rfl hmiddle
  · rfl

/-- A reference as the grammar has it names a message, or it means nothing. -/
theorem names_or_unresolved {text : List Char} (h : BaseSpelling text (.named spelling) none)
    (own : List String) (t : SymbolTable) (site : Site) :
    (∃ n, Names own spelling n) ∨ site.resolveRos t spelling = .error (site.unresolved spelling) := by
  generalize hbase : BaseType.named spelling = base at h
  cases h with
  | scalar => cases hbase
  | @named first more hf _ hl hm =>
    obtain rfl : spelling = _ := BaseType.named.inj hbase
    have hfirst : IsIdentifier (String.ofList first).toList := by simpa using hf
    rcases more with _ | ⟨word, _ | ⟨last, _ | ⟨_, _⟩⟩⟩
    · rw [List.flatMap_nil, List.append_nil]
      exact .inl ⟨_, .bare hfirst⟩
    · have hword : IsIdentifier (String.ofList word).toList := by simpa using hm
      have hspelling : String.ofList (first ++ [word].flatMap ('/' :: ·)) =
          String.ofList first ++ "/" ++ String.ofList word := String.toList_injective (by simp)
      rw [hspelling]
      exact .inl ⟨_, .short hfirst hword⟩
    · have hlast : IsIdentifier (String.ofList last).toList := by simpa using hm last (by simp)
      by_cases hmsg : String.ofList word = "msg"
      · obtain rfl : word = ['m', 's', 'g'] := by simpa using congrArg String.toList hmsg
        have hspelling : String.ofList (first ++ [['m', 's', 'g'], last].flatMap ('/' :: ·)) =
            String.ofList first ++ "/msg/" ++ String.ofList last := String.toList_injective (by simp)
        rw [hspelling]
        exact .inl ⟨_, .long hfirst hlast⟩
      · exact .inr (resolveRos_three t site (slashParts_words hf hm) hmsg)
    · simp at hl

/-! ## Failing closed -/

/-- A reference of the file `s` that becomes `result` is neither mistaken nor let through.
* If it means anything, it means a message that one file of the batch declares, or one that no file
  declares, of a package that is spelled, that is not the file's own and that no file of the batch has.
* A message of a package of the batch that no file declares is missing.
* A message that more than one file declares is ambiguous.
* A reference that names no message means nothing. -/
structure FailsClosed (files : List Schema) (s : Schema) (message field spelling : String)
    (result : Except ConversionError TypeRef) : Prop where
  resolved : ∀ type, result = .ok type → ∃ n, type = .message n ∧
    ((declaredMessages files).count n = 1 ∨
      n ∉ declaredMessages files ∧ ∃ package name, n = ⟨[package], [name]⟩ ∧
        (spelling = package ++ "/" ++ name ∨ spelling = package ++ "/msg/" ++ name) ∧
          s.package ≠ [package] ∧ ∀ s' ∈ files, s'.package ≠ [package])
  unresolved : ∀ n, Names s.package spelling n → n ∉ declaredMessages files →
    (n.package = s.package ∨ ∃ s' ∈ files, s'.package = n.package) →
      result = .error (.unresolved spelling s.name message field)
  ambiguous : ∀ n, Names s.package spelling n → 2 ≤ (declaredMessages files).count n →
    result = .error (.ambiguous n.qualified s.name (declarers files n))
  nameless : (∀ n, ¬ Names s.package spelling n) →
    result = .error (.unresolved spelling s.name message field)

theorem head?_of_baseSpelling {text : List Char} (h : BaseSpelling text (.named spelling) none) :
    spelling.toList.head? ≠ some '.' := by
  generalize hbase : BaseType.named spelling = base at h
  cases h with
  | scalar => cases hbase
  | @named first more hf _ _ _ =>
    obtain rfl : spelling = _ := BaseType.named.inj hbase
    obtain ⟨c, cs, rfl⟩ := List.exists_cons_of_ne_nil hf.ne_nil
    intro hhead
    obtain rfl : c = '.' := by simpa using hhead
    exact absurd (hf.forall '.' (List.mem_cons_self ..)) (by decide)

/-- Names that mean a foreign message spell its package. -/
theorem Names.of_foreign (h : Names s.package spelling n) (hs : s ∈ files)
    (hforeign : ∀ s' ∈ files, s'.package ≠ n.package) :
    ∃ package name, n = ⟨[package], [name]⟩ ∧
      (spelling = package ++ "/" ++ name ∨ spelling = package ++ "/msg/" ++ name) := by
  cases h with
  | bare => exact absurd rfl (hforeign s hs)
  | short => exact ⟨_, _, rfl, .inl rfl⟩
  | long => exact ⟨_, _, rfl, .inr rfl⟩

theorem failsClosed_resolveRos {text : List Char} (hs : s ∈ schemas given sources)
    (message field : String) (hspelling : BaseSpelling text (.named spelling) none)
    (hheader : spelling ≠ "Header") (hother : ∀ w : WellKnown, ¬ w.RosSpelledBy spelling) :
    FailsClosed (schemas given sources) s message field spelling
      (Site.resolveRos (.ofFiles (schemas given sources)) ⟨s.name, ⟨s.package, [message]⟩, field⟩
        spelling) := by
  generalize hsite : Site.mk s.name ⟨s.package, [message]⟩ field = site
  have hunresolved : site.unresolved spelling = .unresolved spelling s.name message field := by
    rw [Site.unresolved, withoutDots_eq_self (head?_of_baseSpelling hspelling), ← hsite]
    simp [TypeName.dottedPath]
  have houtcome : ∀ n, Names s.package spelling n → Outcome (schemas given sources) site spelling n
      (site.resolveRos (.ofFiles (schemas given sources)) spelling) := fun n hn =>
    hn.outcome hs (by rw [← hsite]) hheader hother
  have hnames := names_or_unresolved hspelling s.package (.ofFiles (schemas given sources)) site
  generalize site.resolveRos (.ofFiles (schemas given sources)) spelling = result at houtcome hnames
  refine ⟨?resolved, ?unresolved, ?ambiguous, ?nameless⟩
  case resolved =>
    rintro type rfl
    rcases hnames with ⟨n, hn⟩ | hnothing
    · have hcase := houtcome n hn
      cases hcase with
      | once hone => exact ⟨n, rfl, .inl hone⟩
      | trusted hnone hforeign =>
        obtain ⟨package, name, rfl, hspelled⟩ := hn.of_foreign hs hforeign
        exact ⟨_, rfl, .inr ⟨hnone, package, name, rfl, hspelled, hforeign s hs, hforeign⟩⟩
    · cases hnothing
  case unresolved =>
    intro n hn hnone hknown
    have hpackage : ∃ s' ∈ schemas given sources, s'.package = n.package :=
      hknown.elim (fun hown => ⟨s, hs, hown.symm⟩) id
    have hcase := houtcome n hn
    cases hcase with
    | once hone => exact absurd (List.count_pos_iff.1 (by omega)) hnone
    | ambiguous hmany => exact absurd (List.count_pos_iff.1 (by omega)) hnone
    | missing => rw [hunresolved]
    | trusted _ hforeign =>
      obtain ⟨s', hs', hsame⟩ := hpackage
      exact absurd hsame (hforeign s' hs')
  case ambiguous =>
    intro n hn hmany
    have hmem : n ∈ declaredMessages (schemas given sources) := List.count_pos_iff.1 (by omega)
    have hcase := houtcome n hn
    cases hcase with
    | once hone => omega
    | ambiguous => rw [← hsite]
    | missing hnone => exact absurd hmem hnone
    | trusted hnone => exact absurd hmem hnone
  case nameless =>
    intro hnot
    rw [hnames.resolve_left (not_exists.2 hnot), hunresolved]

/-- References of a batch fail closed, wherever they stand; a spelling of a well-known type always means
that type, and `msg` between package and name makes no difference. -/
theorem rosReferences_closed :
    (∀ (given : Option String) (sources : List Source), ∀ s ∈ schemas given sources,
      ∀ (message field : String) (text : List Char) (spelling : String),
        BaseSpelling text (.named spelling) none → spelling ≠ "Header" →
          (∀ w : WellKnown, ¬ w.RosSpelledBy spelling) →
            FailsClosed (schemas given sources) s message field spelling
              (Site.resolve (.ofFiles (schemas given sources))
                ⟨s.name, ⟨s.package, [message]⟩, field⟩ .ros spelling)) ∧
      ∀ (t : SymbolTable) (site : Site),
        (∀ (w : WellKnown) (spelling : String), w ≠ .bytesValue → w.RosSpelledBy spelling →
          site.resolve t .ros spelling = .ok (.wellKnown w)) ∧
        ∀ package name : String, IsPart package → IsPart name →
          ResultRel ConversionError.SameKind Eq (site.resolve t .ros (package ++ "/msg/" ++ name))
            (site.resolve t .ros (package ++ "/" ++ name)) :=
  ⟨fun _ _ _ hs message field _ _ hspelling hheader hother =>
      failsClosed_resolveRos hs message field hspelling hheader hother,
    fun t site => ⟨fun _ _ hw h => resolveRos_wellKnown t site hw h,
      fun _ _ hpackage hname => longForm_sameKind t site hpackage hname⟩⟩

/-- In the batch of a route, a mistyped message of a package of the batch is missing, and well-known types
and long forms mean what they should. -/
theorem rosReferences_closed_routeSources :
    (∃ s ∈ schemas none routeSources, s.package = ["geo"] ∧
      Site.resolve (.ofFiles (schemas none routeSources)) ⟨s.name, ⟨s.package, ["Pose"]⟩, "position"⟩
        .ros ("geo" ++ "/" ++ "Pint") = .error (.unresolved "geo/Pint" s.name "Pose" "position")) ∧
      Site.resolve (.ofFiles (schemas none routeSources)) default .ros "std_msgs/msg/String" =
        .ok (.wellKnown .stringValue) ∧
      ResultRel ConversionError.SameKind Eq
        (Site.resolve (.ofFiles (schemas none routeSources)) default .ros ("geo" ++ "/msg/" ++ "Pint"))
        (Site.resolve (.ofFiles (schemas none routeSources)) default .ros ("geo" ++ "/" ++ "Pint")) := by
  obtain ⟨hbatch, htables⟩ := rosReferences_closed
  obtain ⟨hknown, hlong⟩ := htables (.ofFiles (schemas none routeSources)) default
  have hgeo : IsPart "geo" := ⟨by decide, by decide⟩
  have hpint : IsPart "Pint" := ⟨by decide, by decide⟩
  refine ⟨?_, hknown .stringValue _ (by decide) ?_, hlong "geo" "Pint" hgeo hpint⟩
  · obtain ⟨s, hs, hpackage⟩ : ∃ s ∈ schemas none routeSources, s.package = ["geo"] := by
      decide +kernel
    have hother : ∀ w : WellKnown, ¬ w.RosSpelledBy ("geo" ++ "/" ++ "Pint") := by
      intro w h
      have hname := h.shortForm_eq
      rw [shortForm_short hgeo hpint] at hname
      cases w <;> exact absurd hname (by decide)
    have hclosed := hbatch none routeSources s hs "Pose" "position" _ _
      (baseSpelling_qualified (by decide) (by decide) (by decide)) (by decide) hother
    refine ⟨s, hs, hpackage, hclosed.unresolved ⟨["geo"], ["Pint"]⟩ (.short (by decide) (by decide)) ?_
      (.inl hpackage.symm)⟩
    decide +kernel
  · exact ⟨"std_msgs", "String", ⟨by decide, by decide⟩, ⟨by decide, by decide⟩, by decide,
      .inr (by decide)⟩

end Batch

/-! ## The standard header -/

variable {symbol : Symbol}

/-- What becomes of references to a header in a file whose package declares none. The bare name always
means the standard header. By package and name, that header is looked up: it is the only type of its
name, or of a package that neither the file has nor the table; else the two references differ. -/
structure HeaderRule (t : SymbolTable) (site : Site) : Prop where
  bare : site.resolve t .ros "Header" = .ok (.message headerName)
  once : ∀ symbol, t.named headerName.qualified = [symbol] →
    site.resolve t .ros "std_msgs/Header" = .ok symbol.typeRef
  foreign : t.named headerName.qualified = [] → site.enclosing.package ≠ headerName.package →
    t.hasPackage headerName.package = false →
      site.resolve t .ros "std_msgs/Header" = .ok (.message headerName)
  missing : t.named headerName.qualified = [] →
    (site.enclosing.package = headerName.package ∨ t.hasPackage headerName.package = true) →
      site.resolve t .ros "std_msgs/Header" = .error (site.unresolved "std_msgs/Header")
  ambiguous : 2 ≤ (t.named headerName.qualified).length →
    site.resolve t .ros "std_msgs/Header" =
      .error (.ambiguous headerName.qualified site.file ((t.named headerName.qualified).map (·.file)))
  same_iff : ResultRel ConversionError.SameKind Eq (site.resolve t .ros "Header")
      (site.resolve t .ros "std_msgs/Header") ↔
    (∃ symbol, t.named headerName.qualified = [symbol] ∧ symbol.typeRef = .message headerName) ∨
      t.named headerName.qualified = [] ∧ site.enclosing.package ≠ headerName.package ∧
        t.hasPackage headerName.package = false

theorem resolveRos_header
    (hown : t.named (TypeName.mk site.enclosing.package ["Header"]).qualified = []) :
    site.resolveRos t "Header" = .ok (.message headerName) := by
  rw [resolveRos_of_isIdentifier (by decide)]
  simp only [Site.resolveLocal, lookup_eq_none_iff_named.2 hown]
  rfl

theorem resolveRos_stdHeader : site.resolveRos t "std_msgs/Header" =
    site.resolveQualified t "std_msgs/Header" "std_msgs" "Header" := by
  have hpackage : IsPart "std_msgs" := ⟨by decide, by decide⟩
  have hname : IsPart "Header" := ⟨by decide, by decide⟩
  exact resolveRos_qualified hpackage hname (by decide)

/-- The bare name of the header stands for its full one if that means the standard header, and in no
other case. -/
theorem header_alias (t : SymbolTable) (site : Site)
    (hown : t.named (TypeName.mk site.enclosing.package ["Header"]).qualified = []) :
    HeaderRule t site := by
  have hbare : site.resolve t .ros "Header" = .ok (.message headerName) := resolveRos_header hown
  have hstd : site.resolve t .ros "std_msgs/Header" =
      site.resolveQualified t "std_msgs/Header" "std_msgs" "Header" := resolveRos_stdHeader
  refine ⟨hbare, ?once, ?foreign, ?missing, ?ambiguous, ?same_iff⟩
  case once => exact fun symbol hnamed => hstd.trans (resolveQualified_once hnamed)
  case foreign => exact fun hnamed hother hforeign => hstd.trans (resolveQualified_trusted hnamed hother hforeign)
  case missing => exact fun hnamed hknown => hstd.trans (resolveQualified_missing hnamed hknown)
  case ambiguous => exact fun hmany => hstd.trans (resolveQualified_ambiguous hmany)
  case same_iff =>
    rw [hbare, hstd]
    constructor
    · intro hsame
      have hother : site.resolveQualified t "std_msgs/Header" "std_msgs" "Header" =
          .ok (.message headerName) := by
        generalize site.resolveQualified t "std_msgs/Header" "std_msgs" "Header" = result at hsame
        cases hsame with
        | ok htype => rw [htype]
      rcases lookup_cases t headerName.qualified site.file with
        ⟨hnamed, -⟩ | ⟨symbol, hnamed, -⟩ | ⟨hmany, -⟩
      · by_cases hknown : site.enclosing.package = headerName.package ∨
          t.hasPackage headerName.package = true
        · cases hother.symm.trans (resolveQualified_missing hnamed hknown)
        · rw [not_or, Bool.not_eq_true] at hknown
          exact .inr ⟨hnamed, hknown⟩
      · have htype := hother.symm.trans (resolveQualified_once hnamed)
        exact .inl ⟨symbol, hnamed, (Except.ok.inj htype).symm⟩
      · cases hother.symm.trans (resolveQualified_ambiguous hmany)
    · rintro (⟨symbol, hnamed, htype⟩ | ⟨hnamed, hother, hforeign⟩)
      · rw [resolveQualified_once hnamed, htype]
        exact .ok rfl
      · rw [resolveQualified_trusted hnamed hother hforeign]
        exact .ok rfl

/-- A header that two files declare is ambiguous by its full name and not by its bare one. -/
theorem header_alias_headerFiles :
    let t := SymbolTable.ofFiles (headerFiles ["one/std_msgs/Header.msg", "two/std_msgs/Header.msg"])
    let site : Site := ⟨"a/Stamped.msg", ⟨["a"], ["Stamped"]⟩, "header"⟩
    t.named (TypeName.mk site.enclosing.package ["Header"]).qualified = [] ∧ HeaderRule t site ∧
      site.resolve t .ros "std_msgs/Header" = .error (.ambiguous "std_msgs.Header" "a/Stamped.msg"
        ["one/std_msgs/Header.msg", "two/std_msgs/Header.msg"]) := by
  intro t site
  have hown : t.named (TypeName.mk site.enclosing.package ["Header"]).qualified = [] := by
    decide +kernel
  have hrule : HeaderRule t site := header_alias t site hown
  exact ⟨hown, hrule, hrule.ambiguous (by decide +kernel)⟩

end SchemaBridge
