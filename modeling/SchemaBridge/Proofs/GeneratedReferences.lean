import SchemaBridge.Proofs.GeneratedText

/-!
# What the references of generated text mean

A reference of a generated text is looked up in the package of the directory that the text lies in. In a
table of plain names it finds its message exactly if the message comes back (`TypeName.ComesBack`,
`resolve_reread_message_iff`), and it finds its well-known type in any case, but for that of bytes, which
is written as that of strings (`resolve_reread_wellKnown`).
-/

namespace SchemaBridge

open RosText

variable {g : Field} {t : SymbolTable} {names : List TypeName} {site : Site} {n : TypeName}
  {enclosing : TypeName} {name spelling file : String} {package : List String}

/-! ## References in a table of plain names -/

theorem resolveLocal_eq_message_iff (h : t.Lists names)
    (hplain : TypeName.IsPlain ⟨site.enclosing.package, [name]⟩) :
    site.resolveLocal t spelling name = .ok (.message n) ↔
      n = ⟨site.enclosing.package, [name]⟩ ∧ names.count n = 1 ∨
        n = ⟨["std_msgs"], ["Header"]⟩ ∧ name = "Header" ∧
          names.count ⟨site.enclosing.package, [name]⟩ = 0 := by
  rw [resolveLocal_eq_ok_iff, h.named_eq_nil_iff hplain]
  constructor
  · rintro (⟨symbol, hnamed, htype⟩ | ⟨hnone, hheader, htype⟩)
    · rw [h.typeRef_of_named hplain hnamed] at htype
      obtain rfl := TypeRef.message.inj htype
      exact .inl ⟨rfl, (h.exists_named_iff hplain).1 ⟨symbol, hnamed⟩⟩
    · exact .inr ⟨TypeRef.message.inj htype, hheader, hnone⟩
  · rintro (⟨rfl, hone⟩ | ⟨rfl, hheader, hnone⟩)
    · obtain ⟨symbol, hnamed⟩ := (h.exists_named_iff hplain).2 hone
      exact .inl ⟨symbol, hnamed, h.typeRef_of_named hplain hnamed⟩
    · exact .inr ⟨hnone, hheader, rfl⟩

theorem resolveQualified_eq_message_iff {outer : String} (h : t.Lists names)
    (hplain : TypeName.IsPlain ⟨[outer], [name]⟩) :
    site.resolveQualified t spelling outer name = .ok (.message n) ↔
      n = ⟨[outer], [name]⟩ ∧ (names.count n = 1 ∨
        names.count n = 0 ∧ [outer] ≠ site.enclosing.package ∧ t.hasPackage [outer] = false) := by
  rw [resolveQualified_eq_ok_iff, h.named_eq_nil_iff hplain]
  constructor
  · rintro (⟨symbol, hnamed, htype⟩ | ⟨hnone, hother, hforeign, htype⟩)
    · rw [h.typeRef_of_named hplain hnamed] at htype
      obtain rfl := TypeRef.message.inj htype
      exact ⟨rfl, .inl ((h.exists_named_iff hplain).1 ⟨symbol, hnamed⟩)⟩
    · obtain rfl := TypeRef.message.inj htype
      exact ⟨rfl, .inr ⟨hnone, hother.symm, hforeign⟩⟩
  · rintro ⟨rfl, hone | ⟨hnone, hother, hforeign⟩⟩
    · obtain ⟨symbol, hnamed⟩ := (h.exists_named_iff hplain).2 hone
      exact .inl ⟨symbol, hnamed, h.typeRef_of_named hplain hnamed⟩
    · exact .inr ⟨hnone, hother.symm, hforeign, rfl⟩

/-- A reference of a ROS file means no message of a package of more than one segment. -/
theorem length_package_of_resolveRos (h : t.Lists names)
    (hresolve : site.resolveRos t spelling = .ok (.message n)) : n.package.length ≤ 1 := by
  have hqualified : ∀ {outer name : String},
      site.resolveQualified t spelling outer name = .ok (.message n) → n.package.length ≤ 1 := by
    intro outer name hfound
    rcases resolveQualified_eq_ok_iff.1 hfound with ⟨symbol, hnamed, htype⟩ | ⟨-, -, -, htype⟩
    · exact (h.isPlain_of_named hnamed htype).package
    · obtain rfl := TypeRef.message.inj htype
      exact Nat.le_refl 1
  unfold Site.resolveRos at hresolve
  split at hresolve
  · cases hresolve
  · split at hresolve
    · next name hparts =>
      rcases resolveLocal_eq_ok_iff.1 hresolve with ⟨symbol, hnamed, htype⟩ | ⟨-, -, htype⟩
      · exact (h.isPlain_of_named hnamed htype).package
      · obtain rfl := TypeRef.message.inj htype
        exact Nat.le_refl 1
    · exact hqualified hresolve
    · exact hqualified hresolve
    · cases hresolve

/-! ## References of generated text -/

/-- The message `n` comes back from a reference in a text of package `package`, if the texts that are
parsed again have the names `names`. A bare name is no scalar and is looked up in the package that the
text is read in, which has to be that of the message; one text has the name, or it is that of the
standard header. A name with a package is that of no well-known type; one text has the name, or none has
the package. -/
inductive TypeName.ComesBack (names : List TypeName) (package : List String) (n : TypeName) : Prop where
  | bare (hbare : n.package = [] ∨ n.package = package)
      (hkeyword : Scalar.ofRosKeyword? n.name = none) (hpackage : packageOf package = n.package)
      (hlisted : names.count n = 1 ∨ n = ⟨["std_msgs"], ["Header"]⟩ ∧ names.count n = 0)
  | qualified {outer : String} (houter : n.package = [outer]) (hother : n.package ≠ package)
      (hw : WellKnown.ofRosName? (outer ++ "/" ++ n.name) = none)
      (hlisted : names.count n = 1 ∨ names.count n = 0 ∧ n.package ≠ packageOf package ∧
        ∀ k ∈ names, k.package ≠ n.package)

section

variable (ht : t.Lists names) (hn : n.OfIdentifiers) (hflat : n.flat = n)
  (hg : g.type = (spelledBase (typeText package (.message n))).typeRef)
  (hsite : enclosing.package = packageOf package)
include ht hn hflat hg hsite

/-- A reference without a package. -/
theorem resolve_bare_iff (hpackage : ∀ segment ∈ package, IsIdentifier segment.toList)
    (hbare : n.package = [] ∨ n.package = package) :
    g.resolve t .ros file enclosing = .ok { g with type := .message n } ↔
      Scalar.ofRosKeyword? n.name = none ∧ packageOf package = n.package ∧
        (names.count n = 1 ∨ n = ⟨["std_msgs"], ["Header"]⟩ ∧ names.count n = 0) := by
  have htext : typeText package (.message n) = n.name := if_pos hbare
  rw [htext] at hg
  cases hkeyword : Scalar.ofRosKeyword? n.name with
  | some k =>
    have hscalar : g.type = .scalar k := by
      rw [hg]
      simp [spelledBase, hkeyword, BaseType.typeRef]
    rw [Field.resolve_eq_self (by rw [hscalar]; rfl)]
    refine iff_of_false (fun heq => ?_) (by simp)
    have htype := congrArg Field.type (Except.ok.inj heq)
    rw [hscalar] at htype
    cases htype
  | none =>
    have hnamed : g.type = .named n.name := by
      rw [hg]
      simp [spelledBase, hkeyword, BaseType.typeRef]
    have hsegments : ∀ segment ∈ packageOf package, IsSegment segment := fun segment hsegment =>
      isSegment_of_isIdentifier (hpackage segment (packageOf_subset _ hsegment))
    have hplain : TypeName.IsPlain ⟨packageOf package, [n.name]⟩ :=
      isPlain_own (packageOf_length _) hsegments hn.isIdentifier_name
    rw [← hsite] at hplain
    rw [resolve_named_type_iff hnamed, Site.resolve, resolveRos_of_isIdentifier hn.isIdentifier_name,
      resolveLocal_eq_message_iff ht hplain]
    simp only [hsite, true_and]
    constructor
    · rintro (⟨hname, hone⟩ | ⟨hheader, -, hzero⟩)
      · exact ⟨(congrArg TypeName.package hname).symm, .inl hone⟩
      · have hpackage : packageOf package = n.package := by
          rcases hbare with hempty | hown
          · rw [hheader] at hempty
            cases hempty
          · rw [← hown, hheader]
            rfl
        rw [hpackage] at hzero
        exact ⟨hpackage, .inr ⟨hheader, hflat ▸ hzero⟩⟩
    · rintro ⟨hpackage, hlisted⟩
      have hname : TypeName.mk (packageOf package) [n.name] = n := by
        rw [hpackage]
        exact hflat
      rw [hname]
      rcases hlisted with hone | ⟨hheader, hzero⟩
      · exact .inl ⟨rfl, hone⟩
      · exact .inr ⟨hheader, by rw [hheader]; rfl, hzero⟩

/-- A reference with a package of one segment. -/
theorem resolve_outer_iff {outer : String} (houter : n.package = [outer]) (hother : n.package ≠ package)
    (hkeyword : Scalar.ofRosKeyword? outer = none) :
    g.resolve t .ros file enclosing = .ok { g with type := .message n } ↔
      WellKnown.ofRosName? (outer ++ "/" ++ n.name) = none ∧ (names.count n = 1 ∨
        names.count n = 0 ∧ [outer] ≠ packageOf package ∧ t.hasPackage [outer] = false) := by
  have hword : IsIdentifier outer.toList :=
    hn.segments outer (List.mem_append_left _ (by simp [houter]))
  have hname : n = ⟨[outer], [n.name]⟩ := by
    rw [← houter]
    exact hflat.symm
  have htext : typeText package (.message n) = outer ++ "/" ++ n.name := by
    rw [houter] at hother
    rw [hname]
    exact nameText_other hother
  have hpart := isPart_of_isIdentifier hword
  have hname' := isPart_of_isIdentifier hn.isIdentifier_name
  have hbase := eq_spelledBase (baseSpelling_qualified hword hkeyword hn.isIdentifier_name)
  rw [String.ofList_toList] at hbase
  rw [htext, ← hbase] at hg
  rw [resolve_named_type_iff hg, Site.resolve]
  cases hw : WellKnown.ofRosName? (outer ++ "/" ++ n.name) with
  | some w =>
    have hshort := shortForm_of_length (slashParts_qualified hpart hname') (by simp)
    simp [Site.resolveRos, hshort, hw]
  | none =>
    rw [resolveRos_qualified hpart hname' hw,
      resolveQualified_eq_message_iff ht (isPlain_other hword hn.isIdentifier_name)]
    simp only [hsite, true_and, and_iff_right hname]

omit hsite in
/-- A reference with a package of two segments is not to the message. -/
theorem resolve_long_ne {outer inner : String} (houter : n.package = [outer, inner])
    (hother : n.package ≠ package) (hkeyword : Scalar.ofRosKeyword? outer = none) :
    g.resolve t .ros file enclosing ≠ .ok { g with type := .message n } := by
  have hsegments : ∀ word ∈ n.package ++ [n.name], IsIdentifier word.toList := by
    rw [← hflat] at hn
    exact hn.segments
  have htext : typeText package (.message n) = "/".intercalate (n.package ++ [n.name]) :=
    nameText_eq_intercalate (by simp [houter]) hother
  rw [houter] at hsegments htext
  obtain ⟨hword, hmore⟩ := List.forall_mem_cons.1 hsegments
  have hbase := eq_spelledBase (baseSpelling_words hword hkeyword (by simp) hmore)
  rw [String.ofList_toList] at hbase
  rw [htext] at hg
  have hnamed : g.type = .named ("/".intercalate ([outer, inner] ++ [n.name])) := by
    rw [hg]
    exact congrArg BaseType.typeRef hbase.symm
  intro hresolve
  rw [resolve_named_type_iff hnamed, Site.resolve] at hresolve
  have hlength := length_package_of_resolveRos ht hresolve
  simp [houter] at hlength

/-- A reference of a generated text finds its message exactly if the message comes back. -/
theorem resolve_reread_message_iff
    (hknown : ∀ package, t.hasPackage package = true ↔ ∃ k ∈ names, k.package = package)
    (hpackage : ∀ segment ∈ package, IsIdentifier segment.toList) (hspelled : n.Spelled package) :
    g.resolve t .ros file enclosing = .ok { g with type := .message n } ↔
      n.ComesBack names package := by
  have hforeign : ∀ outer, t.hasPackage [outer] = false ↔ ∀ k ∈ names, k.package ≠ [outer] := by
    intro outer
    rw [← Bool.not_eq_true, hknown]
    simp
  by_cases hbare : n.package = [] ∨ n.package = package
  · rw [resolve_bare_iff ht hn hflat hg hsite hpackage hbare]
    constructor
    · rintro ⟨hkeyword, hback, hlisted⟩
      exact .bare hbare hkeyword hback hlisted
    · rintro (⟨-, hkeyword, hback, hlisted⟩ | ⟨houter, hother, -, -⟩)
      · exact ⟨hkeyword, hback, hlisted⟩
      · rcases hbare with hempty | hown
        · simp [hempty] at houter
        · exact absurd hown hother
  · obtain ⟨hempty, hother⟩ := not_or.1 hbare
    obtain ⟨hlength, hkeyword⟩ := (hspelled.resolve_left hempty).resolve_left hother
    match houter : n.package with
    | [] => exact absurd houter hempty
    | [outer] =>
      rw [houter, List.headD_cons] at hkeyword
      rw [resolve_outer_iff ht hn hflat hg hsite houter hother hkeyword, hforeign, ← houter]
      constructor
      · rintro ⟨hw, hlisted⟩
        exact .qualified houter hother hw hlisted
      · rintro (⟨hbare', -, -, -⟩ | ⟨houter', -, hw, hlisted⟩)
        · exact absurd hbare' hbare
        · obtain rfl : outer = _ := List.singleton_inj.1 (houter.symm.trans houter')
          exact ⟨hw, hlisted⟩
    | [outer, inner] =>
      rw [houter, List.headD_cons] at hkeyword
      refine iff_of_false (resolve_long_ne ht hn hflat hg houter hother hkeyword) ?_
      rintro (⟨hbare', -, -, -⟩ | ⟨houter', -, -, -⟩)
      · exact hbare hbare'
      · simp [houter] at houter'
    | _ :: _ :: _ :: _ =>
      simp [houter] at hlength

end

/-- The well-known type that the ROS name of a well-known type means: that of bytes is the one of
strings. -/
def WellKnown.comingBack : WellKnown → WellKnown
  | .bytesValue => .stringValue
  | w => w

/-- A reference of a generated text to a well-known type finds it. -/
theorem resolve_reread_wellKnown (ht : t.Lists names) {w : WellKnown}
    (hg : g.type = (spelledBase (typeText package (.wellKnown w))).typeRef) :
    g.resolve t .ros file enclosing = .ok { g with type := .wellKnown w.comingBack } := by
  have hne : w.comingBack ≠ .bytesValue := by cases w <;> decide
  have htext : typeText package (.wellKnown w) =
      typeText enclosing.package (.wellKnown w.comingBack) := by
    cases w <;> rfl
  rw [htext] at hg
  exact resolve_spelled ht (.wellKnown hne) hg rfl (by simp)

end SchemaBridge
