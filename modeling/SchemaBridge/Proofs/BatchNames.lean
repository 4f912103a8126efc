import SchemaBridge.Proofs.ImportClosure

/-!
# Names in a batch of sources

All files of a batch lie in the package that is given for them, or each of them lies in a directory or
in none. The name of a directory may have dots, and so dots alone do not tell the segments of a
qualified name. They do tell the message from its package (`intercalate_snoc_inj`), which is enough to
tell the messages of a batch (`Declarable.qualified_inj`).

A reference of a source means a message of the source's own package, or of a package that is one word
(`referred_of_resolve`).
-/

namespace SchemaBridge

/-! ## The last segment of a dotted name -/

theorem append_dot_inj {a a' b b' : List Char} (hb : '.' ∉ b) (hb' : '.' ∉ b') :
    a ++ '.' :: b = a' ++ '.' :: b' ↔ a = a' ∧ b = b' := by
  constructor
  · intro heq
    rcases List.append_eq_append_iff.1 heq with ⟨c, ha, hcons⟩ | ⟨c, ha, hcons⟩
    · cases c with
      | nil => exact ⟨by simpa using ha.symm, by simpa using hcons⟩
      | cons d c => exact absurd (by simp [(List.cons.inj hcons).2]) hb
    · cases c with
      | nil => exact ⟨by simpa using ha, by simpa using hcons.symm⟩
      | cons d c => exact absurd (by simp [(List.cons.inj hcons).2]) hb'
  · rintro ⟨rfl, rfl⟩
    rfl

variable {l l' : List String} {x x' : String}

theorem intercalate_snoc (hl : l ≠ []) (x : String) :
    (".".intercalate (l ++ [x])).toList = (".".intercalate l).toList ++ '.' :: x.toList := by
  rw [String.intercalate_append_of_ne_nil hl (by simp), String.intercalate_singleton]
  simp

theorem ne_intercalate_snoc (hl : l ≠ []) (hx' : '.' ∉ x'.toList) : x' ≠ ".".intercalate (l ++ [x]) := by
  rintro rfl
  exact hx' (by simp [intercalate_snoc hl])

/-- A last segment without dots can be told from what is in front of it. -/
theorem intercalate_snoc_inj (hx : '.' ∉ x.toList) (hx' : '.' ∉ x'.toList) :
    ".".intercalate (l ++ [x]) = ".".intercalate (l' ++ [x']) ↔
      x = x' ∧ (l = [] ↔ l' = []) ∧ ".".intercalate l = ".".intercalate l' := by
  by_cases hl : l = [] <;> by_cases hl' : l' = []
  · simp [hl, hl']
  · simp [hl, hl', ne_intercalate_snoc hl' hx]
  · simp [hl, hl', (ne_intercalate_snoc hl hx').symm]
  · rw [← String.toList_inj, intercalate_snoc hl, intercalate_snoc hl', append_dot_inj hx hx',
      String.toList_inj, String.toList_inj]
    simp [hl, hl', and_comm]

/-- A dotted name in front of which segments are put. -/
theorem intercalate_append_intercalate (hl' : l' ≠ []) :
    ".".intercalate (l ++ [".".intercalate l']) = ".".intercalate (l ++ l') := by
  by_cases hl : l = []
  · simp [hl]
  · rw [String.intercalate_append_of_ne_nil hl (by simp), String.intercalate_singleton,
      String.intercalate_append_of_ne_nil hl hl']

theorem dot_mem_intercalate (h : 2 ≤ l.length) : '.' ∈ (".".intercalate l).toList := by
  match l with
  | a :: b :: more => simp [String.intercalate_cons_cons]

namespace Batch

open RosText

/-! ## Packages -/

/-- A package that a file of a batch may have: the given one, if there is one, and no more than a
directory otherwise. -/
def IsPackage (given : Option String) (package : List String) : Prop :=
  match given with
  | some text => package = givenPackage text
  | none => package.length ≤ 1

variable {given : Option String} {package package' : List String} {outer text : String}

theorem dot_not_mem_givenPackage (h : x ∈ givenPackage text) : '.' ∉ x.toList := by
  intro hdot
  simpa using (of_mem_piecesBetween h).2 '.' hdot

/-- Packages of one batch can be told by their dotted names. -/
theorem IsPackage.eq_of_intercalate_eq (h : IsPackage given package) (h' : IsPackage given package')
    (hnil : package = [] ↔ package' = [])
    (heq : ".".intercalate package = ".".intercalate package') : package = package' := by
  cases given with
  | some text => exact h.trans h'.symm
  | none =>
    match package, package', h, h' with
    | [], [], _, _ => rfl
    | [], _ :: _, _, _ => simp at hnil
    | _ :: _, [], _, _ => simp at hnil
    | [p], [p'], _, _ => simpa using heq

theorem IsPackage.eq_singleton (h : IsPackage given package) (hne : package ≠ [])
    (houter : '.' ∉ outer.toList) (heq : ".".intercalate package = outer) : package = [outer] := by
  cases given with
  | some text =>
    have hdots : ∀ segment ∈ package, '.' ∉ segment.toList := fun segment hsegment =>
      dot_not_mem_givenPackage (h ▸ hsegment)
    have hsame : ".".intercalate package = ".".intercalate [outer] := by
      rw [heq, String.intercalate_singleton]
    exact (intercalate_inj (c := '.') rfl hdots (by simpa using houter) hne (by simp)).1 hsame
  | none =>
    match package, h with
    | [], _ => exact absurd rfl hne
    | [p], _ => simpa using heq

/-! ## Messages -/

/-- The full name of a message that a file of a batch may declare. -/
structure Declarable (given : Option String) (n : TypeName) : Prop where
  package : IsPackage given n.package
  path : n.path = [n.name]
  name : IsSegment n.name

variable {sources : List Source} {n k : TypeName} {s : Schema} {m : Message}

theorem declarable_of_schema {source : Source} (h : source.schema given = .ok s) (hm : s.Single m) :
    Declarable given ⟨s.package, [m.name]⟩ := by
  obtain ⟨s₀, m₀, hparsed, rfl⟩ := exists_parsed_source h
  obtain rfl : m₀ = m := by simpa [hparsed.single.messages] using hm.messages
  refine ⟨?_, rfl, isSegment_of_isIdentifier (isIdentifier_of_isMessageName hparsed.name)⟩
  cases given with
  | some text => rfl
  | none => exact hparsed.length

theorem exists_schema_of_mem_schemas (hs : s ∈ schemas given sources) :
    ∃ source ∈ sources, source.schema given = .ok s := by
  obtain ⟨source, hsource, hschema⟩ := List.mem_filterMap.1 hs
  exact ⟨source, hsource, toOption_eq_some_iff.1 hschema⟩

theorem single_of_mem_schemas (hs : s ∈ schemas given sources) : ∃ m, s.Single m :=
  (readable_of_mem_schemas hs).imp fun _ hm => hm.single

theorem declarable_of_mem (h : n ∈ declaredMessages (schemas given sources)) : Declarable given n := by
  obtain ⟨s, hs, hn⟩ := List.mem_flatMap.1 h
  obtain ⟨source, -, hschema⟩ := exists_schema_of_mem_schemas hs
  obtain ⟨m, hm⟩ := exists_readable hschema
  rw [hm.single.messageNames_eq, List.mem_singleton] at hn
  exact hn ▸ declarable_of_schema hschema hm.single

/-- The dotted name of a message of a batch tells the message and the dotted name of the package. -/
theorem Declarable.qualified_eq_iff (h : Declarable given k) (hx : '.' ∉ x.toList) :
    k.qualified = ".".intercalate (l ++ [x]) ↔
      k.path = [x] ∧ (k.package = [] ↔ l = []) ∧ ".".intercalate k.package = ".".intercalate l := by
  rw [TypeName.qualified, h.path, intercalate_snoc_inj h.name.2 hx, List.singleton_inj]

/-- Messages of one batch can be told by their qualified names. -/
theorem Declarable.qualified_inj (h : Declarable given n) (h' : Declarable given k) :
    n.qualified = k.qualified ↔ n = k := by
  refine ⟨fun heq => ?_, fun heq => heq ▸ rfl⟩
  rw [show k.qualified = ".".intercalate (k.package ++ [k.name]) by rw [TypeName.qualified, h'.path],
    h.qualified_eq_iff h'.name.2] at heq
  obtain ⟨hpath, hnil, hpackage⟩ := heq
  have hpackages := h.package.eq_of_intercalate_eq h'.package hnil hpackage
  cases n
  cases k
  exact congrArg₂ TypeName.mk hpackages (hpath.trans h'.path.symm)

/-- A package of one segment and a message can be told by their dotted name. -/
theorem Declarable.qualified_outer_iff (h : Declarable given k) (houter : '.' ∉ outer.toList)
    (hx : '.' ∉ x.toList) :
    k.qualified = (TypeName.mk [outer] [x]).qualified ↔ k = ⟨[outer], [x]⟩ := by
  refine ⟨fun heq => ?_, fun heq => heq ▸ rfl⟩
  obtain ⟨hpath, hnil, hpackage⟩ := (h.qualified_eq_iff (l := [outer]) hx).1 heq
  have hpackage := h.package.eq_singleton (by simp [hnil]) houter (by simpa using hpackage)
  rw [← hpackage, ← hpath]

theorem isPackage_of_mem_schemas (hs : s ∈ schemas given sources) : IsPackage given s.package := by
  obtain ⟨source, -, hschema⟩ := exists_schema_of_mem_schemas hs
  obtain ⟨m, hm⟩ := exists_readable hschema
  exact (declarable_of_schema hschema hm.single).package

/-- The table of a batch holds the messages that its files declare. -/
theorem declarable_of_mem_symbols {symbol : Symbol}
    (h : symbol ∈ (SymbolTable.ofFiles (schemas given sources)).symbols) :
    Declarable given symbol.name := by
  have hmem : symbol.name ∈ declaredMessages (schemas given sources) := by
    rw [declaredMessages, ← names_ofFiles fun s hs => single_of_mem_schemas hs]
    exact List.mem_map_of_mem h
  exact declarable_of_mem hmem

/-! ## References of sources -/

variable {t : SymbolTable} {site : Site} {spelling name file : String} {type : TypeRef}
  {own : List String} {f g : Field}

/-- A message that a reference of a file of package `own` means: it lies in that package, or in one
that is one word, and the table holds it once at most, unless it is the standard header. -/
structure Referred (t : SymbolTable) (own : List String) (n : TypeName) : Prop where
  path : n.path = [n.name]
  name : IsSegment n.name
  package : n.package = own ∨ ∃ outer, IsSegment outer ∧ n.package = [outer]
  once : n = ⟨["std_msgs"], ["Header"]⟩ ∨ (t.named n.qualified).length ≤ 1

theorem referred_own {name : String} (hname : IsSegment name)
    (honce : (t.named (TypeName.mk own [name]).qualified).length ≤ 1) :
    Referred t own ⟨own, [name]⟩ :=
  ⟨rfl, hname, .inl rfl, .inr honce⟩

theorem referred_other {outer name : String} (houter : IsSegment outer) (hname : IsSegment name)
    (honce : (t.named (TypeName.mk [outer] [name]).qualified).length ≤ 1) :
    Referred t own ⟨[outer], [name]⟩ :=
  ⟨rfl, hname, .inr ⟨outer, houter, rfl⟩, .inr honce⟩

theorem referred_of_named {qualified : String} {symbol : Symbol} (h : t.named qualified = [symbol])
    (htype : symbol.typeRef = .message n) :
    symbol ∈ t.symbols ∧ symbol.name = n ∧ n.qualified = qualified ∧
      (t.named n.qualified).length ≤ 1 := by
  obtain ⟨hsymbol, hqualified⟩ := SymbolTable.mem_named.1 (h ▸ List.mem_singleton_self symbol)
  obtain rfl := Symbol.name_of_typeRef htype
  exact ⟨hsymbol, rfl, hqualified, by rw [hqualified, h]; exact Nat.le_refl 1⟩

theorem referred_of_resolveLocal (ht : ∀ symbol ∈ t.symbols, Declarable given symbol.name)
    (hown : IsPackage given site.enclosing.package) (hname : IsIdentifier name.toList)
    (h : site.resolveLocal t spelling name = .ok (.message n)) :
    Referred t site.enclosing.package n := by
  have hsegment := isSegment_of_isIdentifier hname
  rcases resolveLocal_eq_ok_iff.1 h with ⟨symbol, hnamed, htype⟩ | ⟨-, -, htype⟩
  · obtain ⟨hsymbol, rfl, hqualified, honce⟩ := referred_of_named hnamed htype
    have hmeant : Declarable given ⟨site.enclosing.package, [name]⟩ := ⟨hown, rfl, hsegment⟩
    rw [(ht symbol hsymbol).qualified_inj hmeant] at hqualified
    rw [hqualified] at honce ⊢
    exact referred_own hsegment honce
  · obtain rfl := TypeRef.message.inj htype
    exact ⟨rfl, ⟨by decide, by decide⟩, .inr ⟨"std_msgs", ⟨by decide, by decide⟩, rfl⟩, .inl rfl⟩

theorem referred_of_resolveQualified (ht : ∀ symbol ∈ t.symbols, Declarable given symbol.name)
    (houter : IsIdentifier outer.toList) (hname : IsIdentifier name.toList)
    (h : site.resolveQualified t spelling outer name = .ok (.message n)) : Referred t own n := by
  have hsegment := isSegment_of_isIdentifier hname
  have houter' := isSegment_of_isIdentifier houter
  rcases resolveQualified_eq_ok_iff.1 h with ⟨symbol, hnamed, htype⟩ | ⟨hnone, -, -, htype⟩
  · obtain ⟨hsymbol, rfl, hqualified, honce⟩ := referred_of_named hnamed htype
    rw [(ht symbol hsymbol).qualified_outer_iff houter'.2 hsegment.2] at hqualified
    rw [hqualified] at honce ⊢
    exact referred_other houter' hsegment honce
  · obtain rfl := TypeRef.message.inj htype
    refine referred_other houter' hsegment ?_
    rw [hnone]
    exact Nat.zero_le 1

/-- What a field of a source refers to. -/
theorem referred_of_resolve (ht : ∀ symbol ∈ t.symbols, Declarable given symbol.name)
    (hm : Parsed s m) (hf : f ∈ m.fields) (hown : IsPackage given own)
    (h : f.resolve t .ros file ⟨own, [m.name]⟩ = .ok g) (hg : g.type = .message n) :
    Referred t own n := by
  obtain ⟨-, chars, base, hbase, htype⟩ := hm.fields f hf
  cases base with
  | scalar k =>
    rw [Field.resolve_eq_self (by rw [htype]; rfl)] at h
    obtain rfl := Except.ok.inj h
    rw [htype] at hg
    cases hg
  | named spelling =>
    obtain ⟨type, hresolve, rfl⟩ := (resolve_named_eq_ok_iff htype).1 h
    obtain rfl : type = .message n := hg
    rcases resolveRos_cases hbase hresolve with ⟨w, hw⟩ | ⟨hname, hlocal⟩ |
      ⟨outer, name, houter, hname, hqualified⟩
    · cases hw
    · exact referred_of_resolveLocal ht hown hname hlocal
    · exact referred_of_resolveQualified ht houter hname hqualified

end Batch

end SchemaBridge
