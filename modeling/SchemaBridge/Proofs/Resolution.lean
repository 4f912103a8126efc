import SchemaBridge.Proofs.FlatNames
import SchemaBridge.Proofs.PartByPart
import SchemaBridge.Resolve

/-!
# Resolved files

Resolving a file changes the types of fields and nothing else: the messages of the resolved file are,
in the same order and under the same full names, those of the file with their fields resolved
(`Schema.flatten_resolve`). If a file cannot be resolved, the error is that of the first field that
cannot (`Schema.firstError_of_resolve`). A file without spelled references is resolved already
(`Schema.resolve_eq_self`).

A reference of a proto3 file means a well-known type or the only type that the table holds under a
qualified name (`resolveProto_meant`). So does one of a ROS file, unless no type has that name and it is
the standard header (`resolveLocal_eq_ok_iff`) or of a package that is not known
(`resolveQualified_eq_ok_iff`).
-/

namespace SchemaBridge

variable {t : SymbolTable} {dialect : Dialect} {file : String} {s r : Schema} {f g : Field}
  {enclosing : TypeName} {site : Site} {spelling : String} {type : TypeRef}

/-! ## Fields -/

/-- Resolving a field changes its type only. -/
theorem exists_type_of_resolve (h : f.resolve t dialect file enclosing = .ok g) :
    ∃ type, g = { f with type := type } := by
  unfold Field.resolve at h
  split at h
  · next spelling hspelling =>
    obtain ⟨type, -, htype⟩ := bind_eq_ok_iff.1 h
    exact ⟨type, (Except.ok.inj htype).symm⟩
  · exact ⟨f.type, (Except.ok.inj h).symm⟩

/-- Resolved fields have the names that they had. -/
theorem names_resolved {fields resolved : List Field}
    (h : fields.mapM (Field.resolve t dialect file enclosing) = .ok resolved) :
    resolved.map (·.name) = fields.map (·.name) := by
  refine map_eq_of_forall₂ ((mapM_eq_ok_iff.1 h).imp fun f g hfg => ?_)
  obtain ⟨type, rfl⟩ := exists_type_of_resolve hfg
  rfl

theorem Field.resolve_eq_self (h : f.type.isResolved = true) :
    f.resolve t dialect file enclosing = .ok f := by
  unfold Field.resolve
  split
  · next spelling hspelling => simp [hspelling, TypeRef.isResolved] at h
  · rfl

/-- A field whose reference is spelled is resolved as the reference is. -/
theorem resolve_named_eq_ok_iff (hf : f.type = .named spelling) :
    f.resolve t dialect file enclosing = .ok g ↔
      ∃ type, Site.resolve t ⟨file, enclosing, f.name⟩ dialect spelling = .ok type ∧
        g = { f with type := type } := by
  simp only [Field.resolve, hf]
  cases Site.resolve t ⟨file, enclosing, f.name⟩ dialect spelling with
  | error e => simp [bind, Except.bind]
  | ok type => simp [bind, Except.bind, pure, Except.pure, eq_comm]

theorem resolve_named_type_iff (hf : f.type = .named spelling) :
    f.resolve t dialect file enclosing = .ok { f with type := type } ↔
      Site.resolve t ⟨file, enclosing, f.name⟩ dialect spelling = .ok type := by
  rw [resolve_named_eq_ok_iff hf]
  constructor
  · rintro ⟨type', hresolve, heq⟩
    obtain rfl : type = type' := congrArg Field.type heq
    exact hresolve
  · exact fun hresolve => ⟨type, hresolve, rfl⟩

/-! ## Messages -/

/-- The message `r` is the message `m` of the full name `n` with its fields resolved; of the types
nested in it only the enums are compared. -/
structure Message.ResolvesTo (t : SymbolTable) (dialect : Dialect) (file : String) (n : TypeName)
    (m r : Message) : Prop where
  name : r.name = m.name
  fields : List.Forall₂ (fun f g => f.resolve t dialect file n = .ok g) m.fields r.fields
  enums : r.enums = m.enums
  constants : r.constants = m.constants
  comments : r.comments = m.comments

mutual

/-- A resolved message and those nested in it, each beside the message that it comes from. -/
theorem flatten_resolve : ∀ (m : Message) (scope : TypeName) {r : Message},
    m.resolve t dialect file scope = .ok r →
      List.Forall₂ (fun p q => q.1 = p.1 ∧ p.2.ResolvesTo t dialect file p.1 q.2) (m.flatten scope)
        (r.flatten scope)
  | ⟨name, fields, nested, enums, constants, comments⟩, scope, r, h => by
    rw [Message.resolve] at h
    obtain ⟨fields', hfields, h⟩ := bind_eq_ok_iff.1 h
    obtain ⟨nested', hnested, h⟩ := bind_eq_ok_iff.1 h
    obtain rfl := Except.ok.inj h
    rw [Message.flatten, Message.flatten]
    exact .cons ⟨rfl, rfl, mapM_eq_ok_iff.1 hfields, rfl, rfl, rfl⟩
      (flattenAll_resolveAll nested (scope.child name) hnested)

theorem flattenAll_resolveAll : ∀ (ms : List Message) (scope : TypeName) {rs : List Message},
    Message.resolveAll t dialect file scope ms = .ok rs →
      List.Forall₂ (fun p q => q.1 = p.1 ∧ p.2.ResolvesTo t dialect file p.1 q.2)
        (Message.flattenAll scope ms) (Message.flattenAll scope rs)
  | [], scope, rs, h => by
    obtain rfl := Except.ok.inj h
    exact .nil
  | m :: ms, scope, rs, h => by
    rw [Message.resolveAll] at h
    obtain ⟨m', hm, h⟩ := bind_eq_ok_iff.1 h
    obtain ⟨ms', hms, h⟩ := bind_eq_ok_iff.1 h
    obtain rfl := Except.ok.inj h
    rw [Message.flattenAll, Message.flattenAll]
    exact List.rel_append (flatten_resolve m scope hm) (flattenAll_resolveAll ms scope hms)

end

mutual

theorem Message.resolve_eq_self : ∀ (m : Message) (scope : TypeName),
    (∀ p ∈ m.flatten scope, ∀ f ∈ p.2.fields, f.type.isResolved = true) →
      m.resolve t dialect file scope = .ok m
  | ⟨name, fields, nested, enums, constants, comments⟩, scope, h => by
    rw [Message.flatten] at h
    obtain ⟨hfields, hnested⟩ := List.forall_mem_cons.1 h
    have hsame : fields.mapM (Field.resolve t dialect file (scope.child name)) = .ok fields :=
      mapM_eq_ok_iff.2 (List.forall₂_same.2 fun f hf => Field.resolve_eq_self (hfields f hf))
    rw [Message.resolve, hsame]
    simp only [bind, Except.bind, Message.resolveAll_eq_self nested (scope.child name) hnested]
    rfl

theorem Message.resolveAll_eq_self : ∀ (ms : List Message) (scope : TypeName),
    (∀ p ∈ Message.flattenAll scope ms, ∀ f ∈ p.2.fields, f.type.isResolved = true) →
      Message.resolveAll t dialect file scope ms = .ok ms
  | [], _, _ => rfl
  | m :: ms, scope, h => by
    rw [Message.flattenAll] at h
    obtain ⟨hm, hms⟩ := List.forall_mem_append.1 h
    rw [Message.resolveAll, Message.resolve_eq_self m scope hm]
    simp only [bind, Except.bind, Message.resolveAll_eq_self ms scope hms]
    rfl

end

/-! ## Files -/

theorem Schema.exists_messages_of_resolve (h : s.resolve t = .ok r) :
    ∃ messages, Message.resolveAll t s.dialect s.name (.root s.package) s.messages = .ok messages ∧
      r = { s with messages := messages } := by
  rw [Schema.resolve] at h
  obtain ⟨messages, hmessages, h⟩ := bind_eq_ok_iff.1 h
  exact ⟨messages, hmessages, (Except.ok.inj h).symm⟩

/-- The messages of a resolved file, each beside the message of the file that it comes from. -/
theorem Schema.flatten_resolve (h : s.resolve t = .ok r) :
    List.Forall₂ (fun p q => q.1 = p.1 ∧ p.2.ResolvesTo t s.dialect s.name p.1 q.2) s.flatten
      r.flatten := by
  obtain ⟨messages, hmessages, rfl⟩ := Schema.exists_messages_of_resolve h
  exact flattenAll_resolveAll s.messages (.root s.package) hmessages

theorem Schema.names_resolve (h : s.resolve t = .ok r) :
    r.flatten.map (·.1) = s.flatten.map (·.1) :=
  map_eq_of_forall₂ ((Schema.flatten_resolve h).imp fun _ _ hpq => hpq.1)

/-! ## The first error -/

/-- The fields of some messages, each beside the full name of its message. -/
def fieldsWithin (messages : List (TypeName × Message)) : List (TypeName × Field) :=
  messages.flatMap fun p => p.2.fields.map (p.1, ·)

/-- All fields of the messages of a file, those of a message before those of the messages nested in it. -/
def Schema.placedFields (s : Schema) : List (TypeName × Field) := fieldsWithin s.flatten

theorem forall_mem_fieldsWithin {messages : List (TypeName × Message)} {P : TypeName × Field → Prop} :
    (∀ p ∈ fieldsWithin messages, P p) ↔ ∀ p ∈ messages, ∀ f ∈ p.2.fields, P (p.1, f) := by
  constructor
  · exact fun h p hp f hf => h _ (List.mem_flatMap.2 ⟨p, hp, List.mem_map_of_mem hf⟩)
  · intro h q hq
    obtain ⟨p, hp, hq⟩ := List.mem_flatMap.1 hq
    obtain ⟨f, hf, rfl⟩ := List.mem_map.1 hq
    exact h p hp f hf

/-- The fields of messages that are resolved are. -/
theorem exists_field_of_resolvesTo {messages resolved : List (TypeName × Message)}
    (h : List.Forall₂ (fun p q => q.1 = p.1 ∧ p.2.ResolvesTo t dialect file p.1 q.2) messages
      resolved) :
    ∀ p ∈ fieldsWithin messages, ∃ g, p.2.resolve t dialect file p.1 = .ok g := by
  refine forall_mem_fieldsWithin.2 fun p hp f hf => ?_
  obtain ⟨q, -, -, hresolves⟩ := exists_of_mem_left h p hp
  obtain ⟨g, -, hg⟩ := exists_of_mem_left hresolves.fields f hf
  exact ⟨g, hg⟩

mutual

theorem firstError_of_resolve {e : ConversionError} : ∀ (m : Message) (scope : TypeName),
    m.resolve t dialect file scope = .error e →
      FirstError (fun p => p.2.resolve t dialect file p.1) (fieldsWithin (m.flatten scope)) e
  | ⟨name, fields, nested, enums, constants, comments⟩, scope, h => by
    rw [Message.resolve] at h
    rw [Message.flatten, fieldsWithin, List.flatMap_cons]
    rcases bind_eq_error_iff.1 h with hfields | ⟨fields', hfields, h⟩
    · obtain ⟨before, f, after, hsplit, hbefore, hf⟩ := firstError_of_mapM hfields
      refine FirstError.append_right ⟨before.map (scope.child name, ·), (scope.child name, f),
        after.map (scope.child name, ·), ?_, by simpa using hbefore, hf⟩ _
      rw [hsplit, List.map_append, List.map_cons]
    · rcases bind_eq_error_iff.1 h with hnested | ⟨nested', -, h⟩
      · refine (firstError_of_resolveAll nested (scope.child name) hnested).append_left ?_
        simpa using exists_of_mapM_eq_ok hfields
      · cases h

theorem firstError_of_resolveAll {e : ConversionError} : ∀ (ms : List Message) (scope : TypeName),
    Message.resolveAll t dialect file scope ms = .error e →
      FirstError (fun p => p.2.resolve t dialect file p.1) (fieldsWithin (Message.flattenAll scope ms)) e
  | [], _, h => by cases h
  | m :: ms, scope, h => by
    rw [Message.resolveAll] at h
    rw [Message.flattenAll, fieldsWithin, List.flatMap_append]
    rcases bind_eq_error_iff.1 h with hm | ⟨m', hm, h⟩
    · exact (firstError_of_resolve m scope hm).append_right _
    · rcases bind_eq_error_iff.1 h with hms | ⟨ms', -, h⟩
      · exact (firstError_of_resolveAll ms scope hms).append_left
          (exists_field_of_resolvesTo (flatten_resolve m scope hm))
      · cases h

end

/-- If a file cannot be resolved, the error is that of the first field that cannot. -/
theorem Schema.firstError_of_resolve {e : ConversionError} (h : s.resolve t = .error e) :
    FirstError (fun p => p.2.resolve t s.dialect s.name p.1) s.placedFields e := by
  rw [Schema.resolve] at h
  rcases bind_eq_error_iff.1 h with hmessages | ⟨messages, -, h⟩
  · exact firstError_of_resolveAll s.messages (.root s.package) hmessages
  · cases h

/-- A file without spelled references is resolved already. -/
theorem Schema.resolve_eq_self
    (h : ∀ p ∈ s.flatten, ∀ f ∈ p.2.fields, f.type.isResolved = true) : s.resolve t = .ok s := by
  rw [Schema.resolve, Message.resolveAll_eq_self s.messages (.root s.package) h]
  rfl

/-! ## Lookups -/

theorem lookup_eq_none_iff_named {qualified : String} :
    t.lookup qualified file = .ok none ↔ t.named qualified = [] := by
  unfold SymbolTable.lookup
  split <;> simp_all

/-- A lookup finds nothing, the only type of a name, or too many. -/
theorem lookup_cases (t : SymbolTable) (qualified file : String) :
    (t.named qualified = [] ∧ t.lookup qualified file = .ok none) ∨
      (∃ symbol, t.named qualified = [symbol] ∧ t.lookup qualified file = .ok (some symbol)) ∨
        2 ≤ (t.named qualified).length ∧ t.lookup qualified file =
          .error (.ambiguous qualified file ((t.named qualified).map (·.file))) := by
  rw [SymbolTable.lookup]
  rcases t.named qualified with _ | ⟨symbol, _ | ⟨second, more⟩⟩
  · exact .inl ⟨rfl, rfl⟩
  · exact .inr (.inl ⟨symbol, rfl, rfl⟩)
  · exact .inr (.inr ⟨by simp, rfl⟩)

theorem lookup_eq_ambiguous {qualified : String} (h : 2 ≤ (t.named qualified).length) :
    t.lookup qualified file =
      .error (.ambiguous qualified file ((t.named qualified).map (·.file))) := by
  rcases lookup_cases t qualified file with ⟨hnamed, -⟩ | ⟨symbol, hnamed, -⟩ | ⟨-, hlookup⟩
  · simp [hnamed] at h
  · simp [hnamed] at h
  · exact hlookup

variable {name : String} {names : List String} {symbol : Symbol}

/-- The first name decides if it names a type, and the other ones do if it does not. -/
theorem lookupFirst_cons_of_ne_nil (h : t.named name ≠ []) :
    t.lookupFirst file (name :: names) = t.lookup name file := by
  rw [SymbolTable.lookupFirst]
  split
  · next hnone => exact absurd (lookup_eq_none_iff_named.1 hnone) h
  · rfl

theorem lookupFirst_cons_of_eq_nil (h : t.named name = []) :
    t.lookupFirst file (name :: names) = t.lookupFirst file names := by
  rw [SymbolTable.lookupFirst, lookup_eq_none_iff_named.2 h]

theorem lookupFirst_singleton : t.lookupFirst file [name] = t.lookup name file := by
  by_cases h : t.named name = []
  · rw [lookupFirst_cons_of_eq_nil h, lookup_eq_none_iff_named.2 h]
    rfl
  · exact lookupFirst_cons_of_ne_nil h

/-- The first of several names that names a type, if it names one only. -/
theorem lookupFirst_eq_some
    (hmem : name ∈ names) (hbefore : ∀ x ∈ names.takeWhile (· ≠ name), t.named x = [])
    (hnamed : t.named name = [symbol]) : t.lookupFirst file names = .ok (some symbol) := by
  induction names with
  | nil => cases hmem
  | cons first names ih =>
    by_cases hfirst : first = name
    · rw [hfirst, lookupFirst_cons_of_ne_nil (by simp [hnamed]),
        SymbolTable.lookup_eq_some_iff_named.2 hnamed]
    · rw [List.takeWhile_cons_of_pos (by simpa using hfirst), List.forall_mem_cons] at hbefore
      rw [lookupFirst_cons_of_eq_nil hbefore.1]
      exact ih ((List.mem_cons.1 hmem).resolve_left (Ne.symm hfirst)) hbefore.2

theorem lookupFirst_eq_none (h : ∀ x ∈ names, t.named x = []) :
    t.lookupFirst file names = .ok none := by
  induction names with
  | nil => rfl
  | cons first names ih =>
    obtain ⟨hfirst, hnames⟩ := List.forall_mem_cons.1 h
    rw [lookupFirst_cons_of_eq_nil hfirst]
    exact ih hnames

theorem exists_named_of_lookupFirst
    (h : t.lookupFirst file names = .ok (some symbol)) :
    ∃ name ∈ names, t.named name = [symbol] := by
  induction names with
  | nil => cases h
  | cons name names ih =>
    rw [SymbolTable.lookupFirst] at h
    split at h
    · obtain ⟨name', hname', hnamed⟩ := ih h
      exact ⟨name', List.mem_cons_of_mem _ hname', hnamed⟩
    · exact ⟨name, List.mem_cons_self .., SymbolTable.lookup_eq_some_iff_named.1 h⟩

/-! ## What ROS references mean -/

variable {package : String}

/-- A reference without a package means the only type of its name, or the standard header. -/
theorem resolveLocal_eq_ok_iff :
    site.resolveLocal t spelling name = .ok type ↔
      (∃ symbol, t.named (TypeName.mk site.enclosing.package [name]).qualified = [symbol] ∧
        symbol.typeRef = type) ∨
      t.named (TypeName.mk site.enclosing.package [name]).qualified = [] ∧ name = "Header" ∧
        type = .message ⟨["std_msgs"], ["Header"]⟩ := by
  unfold Site.resolveLocal
  rcases lookup_cases t (TypeName.mk site.enclosing.package [name]).qualified site.file with
    ⟨hnamed, hlookup⟩ | ⟨symbol, hnamed, hlookup⟩ | ⟨hmany, hlookup⟩
  · simp only [hlookup, hnamed]
    split
    · next hheader => simp [hheader, eq_comm]
    · next hheader => simp [hheader]
  · simp [hlookup, hnamed]
  · simp only [hlookup, reduceCtorEq, false_iff]
    rintro (⟨symbol, hnamed, -⟩ | ⟨hnamed, -⟩) <;> simp [hnamed] at hmany

theorem resolveQualified_once
    (h : t.named (TypeName.mk [package] [name]).qualified = [symbol]) :
    site.resolveQualified t spelling package name = .ok symbol.typeRef := by
  simp only [Site.resolveQualified, SymbolTable.lookup_eq_some_iff_named.2 h]

theorem resolveQualified_ambiguous
    (h : 2 ≤ (t.named (TypeName.mk [package] [name]).qualified).length) :
    site.resolveQualified t spelling package name =
      .error (.ambiguous (TypeName.mk [package] [name]).qualified site.file
        ((t.named (TypeName.mk [package] [name]).qualified).map (·.file))) := by
  simp only [Site.resolveQualified, lookup_eq_ambiguous h]

/-- A message that is not declared is missing if its package is known. -/
theorem resolveQualified_missing (h : t.named (TypeName.mk [package] [name]).qualified = [])
    (hknown : site.enclosing.package = [package] ∨ t.hasPackage [package] = true) :
    site.resolveQualified t spelling package name = .error (site.unresolved spelling) := by
  have hcondition : ([package] = site.enclosing.package || t.hasPackage [package]) = true := by
    rw [Bool.or_eq_true, decide_eq_true_eq]
    exact hknown.imp Eq.symm id
  simp only [Site.resolveQualified, lookup_eq_none_iff_named.2 h, if_pos hcondition]

/-- It is trusted to exist if its package is not known. -/
theorem resolveQualified_trusted (h : t.named (TypeName.mk [package] [name]).qualified = [])
    (hown : site.enclosing.package ≠ [package]) (hforeign : t.hasPackage [package] = false) :
    site.resolveQualified t spelling package name = .ok (.message ⟨[package], [name]⟩) := by
  have hcondition : ¬ ([package] = site.enclosing.package || t.hasPackage [package]) = true := by
    rw [Bool.or_eq_true, decide_eq_true_eq, hforeign]
    simpa using hown.symm
  simp only [Site.resolveQualified, lookup_eq_none_iff_named.2 h, if_neg hcondition]

/-- A reference with a package means the only type of its name, or a message of a package that is not
known. -/
theorem resolveQualified_eq_ok_iff :
    site.resolveQualified t spelling package name = .ok type ↔
      (∃ symbol, t.named (TypeName.mk [package] [name]).qualified = [symbol] ∧
        symbol.typeRef = type) ∨
      t.named (TypeName.mk [package] [name]).qualified = [] ∧ site.enclosing.package ≠ [package] ∧
        t.hasPackage [package] = false ∧ type = .message ⟨[package], [name]⟩ := by
  rcases lookup_cases t (TypeName.mk [package] [name]).qualified site.file with
    ⟨hnamed, -⟩ | ⟨symbol, hnamed, -⟩ | ⟨hmany, -⟩
  · by_cases hknown : site.enclosing.package = [package] ∨ t.hasPackage [package] = true
    · rw [resolveQualified_missing hnamed hknown]
      rcases hknown with hown | hother
      · simp [hnamed, hown]
      · simp [hnamed, hother]
    · rw [not_or, Bool.not_eq_true] at hknown
      rw [resolveQualified_trusted hnamed hknown.1 hknown.2]
      simp [hnamed, hknown, eq_comm]
  · rw [resolveQualified_once hnamed]
    simp [hnamed]
  · rw [resolveQualified_ambiguous hmany]
    simp only [reduceCtorEq, false_iff]
    rintro (⟨symbol, hnamed, -⟩ | ⟨hnamed, -⟩) <;> simp [hnamed] at hmany

/-! ## What proto3 references mean -/

/-- A type that needs no table, or the only type that the table holds under a qualified name. -/
inductive TypeRef.Meant (t : SymbolTable) : TypeRef → Prop where
  | scalar (k : Scalar) : Meant t (.scalar k)
  | wellKnown (w : WellKnown) : Meant t (.wellKnown w)
  | declared {symbol : Symbol} (h : t.named symbol.name.qualified = [symbol]) : Meant t symbol.typeRef

/-- A message that is meant is the only type of its qualified name. -/
theorem exists_symbol_of_meant {n : TypeName} (h : TypeRef.Meant t (.message n)) :
    ∃ symbol, t.named n.qualified = [symbol] ∧ symbol.kind = .message ∧ symbol.name = n := by
  generalize htype : TypeRef.message n = type at h
  cases h with
  | scalar k => cases htype
  | wellKnown w => cases htype
  | @declared symbol hnamed =>
    cases hkind : symbol.kind with
    | message =>
      simp only [Symbol.typeRef, hkind, TypeRef.message.injEq] at htype
      exact ⟨symbol, by rw [htype, hnamed], hkind, htype.symm⟩
    | enum e => simp [Symbol.typeRef, hkind] at htype

theorem resolveProto_meant (h : site.resolveProto t spelling = .ok type) : type.Meant t := by
  unfold Site.resolveProto at h
  split at h
  · next w _ =>
    obtain rfl := Except.ok.inj h
    exact .wellKnown w
  · simp only at h
    split at h
    · cases h
    · split at h
      · cases h
      · split at h
        · next symbol hfirst =>
          obtain rfl := Except.ok.inj h
          obtain ⟨name, -, hnamed⟩ := exists_named_of_lookupFirst hfirst
          obtain ⟨-, rfl⟩ := SymbolTable.mem_named.1 (hnamed ▸ List.mem_singleton_self symbol)
          exact .declared hnamed
        · cases h
        · cases h

/-- A scalar, or a reference that is spelled and not resolved yet. -/
def TypeRef.IsSource (type : TypeRef) : Prop :=
  (∃ k, type = .scalar k) ∨ ∃ spelling, type = .named spelling

instance (type : TypeRef) : Decidable type.IsSource :=
  match type with
  | .scalar k => .isTrue (.inl ⟨k, rfl⟩)
  | .named spelling => .isTrue (.inr ⟨spelling, rfl⟩)
  | .message _ | .enum _ | .wellKnown _ => .isFalse (by simp [TypeRef.IsSource])

/-- The types of all fields are as a source gives them: scalars, or references that are spelled. -/
def Schema.Unresolved (s : Schema) : Prop := ∀ p ∈ s.flatten, ∀ f ∈ p.2.fields, f.type.IsSource

instance (s : Schema) : Decidable s.Unresolved :=
  inferInstanceAs (Decidable (∀ p ∈ s.flatten, ∀ f ∈ p.2.fields, f.type.IsSource))

/-- Once a proto3 file is resolved, the table knows the types of its fields. -/
theorem meant_of_resolve (hdialect : s.dialect = .proto3) (hraw : s.Unresolved)
    (h : s.resolve t = .ok r) : ∀ p ∈ r.flatten, ∀ f ∈ p.2.fields, f.type.Meant t := by
  intro q hq g hg
  obtain ⟨p, hp, -, hresolves⟩ := exists_of_mem_left (Schema.flatten_resolve h).flip q hq
  obtain ⟨f, hf, hfield⟩ := exists_of_mem_left hresolves.fields.flip g hg
  rw [hdialect] at hfield
  rcases hraw p hp f hf with ⟨k, hk⟩ | ⟨spelling, hspelling⟩
  · rw [Field.resolve_eq_self (by rw [hk]; rfl)] at hfield
    obtain rfl := Except.ok.inj hfield
    rw [hk]
    exact .scalar k
  · simp only [Field.resolve, hspelling] at hfield
    obtain ⟨type, htype, hfield⟩ := bind_eq_ok_iff.1 hfield
    obtain rfl := Except.ok.inj hfield
    exact resolveProto_meant htype

end SchemaBridge
