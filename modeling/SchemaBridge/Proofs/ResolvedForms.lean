import SchemaBridge.Mapping.ToProto
import SchemaBridge.Proofs.RosAcceptance

/-!
# Resolved forms

A file that can be resolved has a resolved form: it spells no reference any more, at no depth, and
apart from the types that took the place of spelled references it is the file itself
(`Message.FilledBy`). The resolved form is its own, and either conversion makes the same of it as of the
file (`Schema.ResolvedForm`).

The enums that a resolved reference means have a definition in the table
(`isDefined_of_resolve`). So a conversion to ROS fails over a reference only where resolving does
(`resolution_complete`).
-/

namespace SchemaBridge

variable {t : SymbolTable} {dialect : Dialect} {repr : EnumRepr} {file message : String} {s r : Schema}
  {f g : Field} {m : Message} {enclosing : TypeName} {site : Site} {spelling : String}
  {type : TypeRef} {e : ConversionError}

/-! ## What references become -/

/-- The type is no spelling, and if it is an enum the table has the definition. -/
def TypeRef.IsDefined (t : SymbolTable) (type : TypeRef) : Prop :=
  type.isResolved = true ∧ ∀ n, type = .enum n → ∃ definition, t.enumDef? n = some definition

theorem isDefined_typeRef {symbol : Symbol} (h : t.named symbol.name.qualified = [symbol]) :
    symbol.typeRef.IsDefined t := by
  unfold Symbol.typeRef
  split
  · exact ⟨rfl, fun n hn => by cases hn⟩
  · next definition hkind =>
    refine ⟨rfl, fun n hn => ⟨definition, ?_⟩⟩
    obtain rfl := TypeRef.enum.inj hn
    simp only [SymbolTable.enumDef?, h, Symbol.enumDef?, hkind]

/-- The only type of a name is found again under its own name. -/
theorem isDefined_of_named {qualified : String} {symbol : Symbol} (h : t.named qualified = [symbol]) :
    symbol.typeRef.IsDefined t := by
  obtain ⟨-, rfl⟩ := SymbolTable.mem_named.1 (h ▸ List.mem_singleton_self symbol)
  exact isDefined_typeRef h

theorem isDefined_message (t : SymbolTable) (n : TypeName) : (TypeRef.message n).IsDefined t :=
  ⟨rfl, fun _ hn => by cases hn⟩

theorem isDefined_of_meant (h : type.Meant t) : type.IsDefined t := by
  cases h with
  | scalar k => exact ⟨rfl, fun n hn => by cases hn⟩
  | wellKnown w => exact ⟨rfl, fun n hn => by cases hn⟩
  | declared hnamed => exact isDefined_typeRef hnamed

theorem isDefined_of_resolveLocal {name : String}
    (h : site.resolveLocal t spelling name = .ok type) : type.IsDefined t := by
  rcases resolveLocal_eq_ok_iff.1 h with ⟨symbol, hnamed, rfl⟩ | ⟨-, -, rfl⟩
  · exact isDefined_of_named hnamed
  · exact isDefined_message t _

theorem isDefined_of_resolveQualified {package name : String}
    (h : site.resolveQualified t spelling package name = .ok type) : type.IsDefined t := by
  rcases resolveQualified_eq_ok_iff.1 h with ⟨symbol, hnamed, rfl⟩ | ⟨-, -, -, rfl⟩
  · exact isDefined_of_named hnamed
  · exact isDefined_message t _

/-- What a reference becomes is defined, whatever the language. -/
theorem isDefined_of_resolve (h : site.resolve t dialect spelling = .ok type) : type.IsDefined t := by
  cases dialect with
  | proto3 => exact isDefined_of_meant (resolveProto_meant h)
  | ros =>
    rw [Site.resolve, Site.resolveRos] at h
    split at h
    · next w _ =>
      obtain rfl := Except.ok.inj h
      exact isDefined_of_meant (.wellKnown w)
    · split at h
      · exact isDefined_of_resolveLocal h
      · exact isDefined_of_resolveQualified h
      · exact isDefined_of_resolveQualified h
      · cases h

/-! ## Fields and messages -/

/-- The field `g` is the field `f`, with a type in place of its spelled reference if it has one. -/
def Field.FilledBy (f g : Field) : Prop :=
  ∃ type, g = { f with type } ∧ (f.type.isResolved = true → type = f.type)

/-- The second message is the first one, with types in place of the spelled references of its fields
and of those of the messages nested in it. -/
inductive Message.FilledBy : Message → Message → Prop
  | intro {name : String} {fields fields' : List Field} {nested nested' : List Message}
      {enums : List EnumDef} {constants : List Constant} {comments : List String}
      (hfields : List.Forall₂ Field.FilledBy fields fields')
      (hnested : List.Forall₂ Message.FilledBy nested nested') :
      Message.FilledBy ⟨name, fields, nested, enums, constants, comments⟩
        ⟨name, fields', nested', enums, constants, comments⟩

theorem filledBy_of_field_resolve (h : f.resolve t dialect file enclosing = .ok g) :
    f.FilledBy g := by
  by_cases hresolved : f.type.isResolved = true
  · rw [Field.resolve_eq_self hresolved] at h
    obtain rfl := Except.ok.inj h
    exact ⟨f.type, rfl, fun _ => rfl⟩
  · obtain ⟨type, rfl⟩ := exists_type_of_resolve h
    exact ⟨type, rfl, fun h => absurd h hresolved⟩

theorem isResolved_of_field_resolve (h : f.resolve t dialect file enclosing = .ok g) :
    g.type.isResolved = true := by
  unfold Field.resolve at h
  split at h
  · next spelling hspelling =>
    obtain ⟨type, htype, h⟩ := bind_eq_ok_iff.1 h
    obtain rfl := Except.ok.inj h
    exact (isDefined_of_resolve htype).1
  · next hother =>
    obtain rfl := Except.ok.inj h
    cases htype : f.type with
    | named spelling => exact absurd htype (hother spelling)
    | _ => rfl

/-- A field as a source gives it has a defined type once it is resolved. -/
theorem isDefined_of_field_resolve (hf : f.type.IsSource)
    (h : f.resolve t dialect file enclosing = .ok g) : g.type.IsDefined t := by
  rcases hf with ⟨k, hk⟩ | ⟨spelling, hspelling⟩
  · rw [Field.resolve_eq_self (by rw [hk]; rfl)] at h
    obtain rfl := Except.ok.inj h
    rw [hk]
    exact isDefined_of_meant (.scalar k)
  · obtain ⟨type, htype, rfl⟩ := (resolve_named_eq_ok_iff hspelling).1 h
    exact isDefined_of_resolve htype

mutual

theorem filledBy_of_resolve : ∀ (m : Message) (scope : TypeName) {r : Message},
    m.resolve t dialect file scope = .ok r → m.FilledBy r
  | ⟨name, fields, nested, enums, constants, comments⟩, scope, r, h => by
    rw [Message.resolve] at h
    obtain ⟨fields', hfields, h⟩ := bind_eq_ok_iff.1 h
    obtain ⟨nested', hnested, h⟩ := bind_eq_ok_iff.1 h
    obtain rfl := Except.ok.inj h
    exact .intro ((mapM_eq_ok_iff.1 hfields).imp fun _ _ => filledBy_of_field_resolve)
      (filledBy_of_resolveAll nested (scope.child name) hnested)

theorem filledBy_of_resolveAll : ∀ (ms : List Message) (scope : TypeName) {rs : List Message},
    Message.resolveAll t dialect file scope ms = .ok rs → List.Forall₂ Message.FilledBy ms rs
  | [], scope, rs, h => by
    obtain rfl := Except.ok.inj h
    exact .nil
  | m :: ms, scope, rs, h => by
    rw [Message.resolveAll] at h
    obtain ⟨m', hm, h⟩ := bind_eq_ok_iff.1 h
    obtain ⟨ms', hms, h⟩ := bind_eq_ok_iff.1 h
    obtain rfl := Except.ok.inj h
    exact .cons (filledBy_of_resolve m scope hm) (filledBy_of_resolveAll ms scope hms)

end

/-! ## Files -/

/-- The file `r` is the resolved form of `s`. -/
structure Schema.ResolvedForm (t : SymbolTable) (s r : Schema) : Prop where
  complete : ∀ p ∈ r.flatten, ∀ f ∈ p.2.fields, f.type.isResolved = true
  file : r = { s with messages := r.messages }
  messages : List.Forall₂ Message.FilledBy s.messages r.messages
  again : r.resolve t = .ok r
  toRos : ∀ repr, r.toRos t repr = s.toRos t repr
  toProto : r.toProto t = s.toProto t

theorem isResolved_of_resolve (h : s.resolve t = .ok r) :
    ∀ p ∈ r.flatten, ∀ f ∈ p.2.fields, f.type.isResolved = true := by
  intro q hq g hg
  obtain ⟨p, -, -, hresolves⟩ := exists_of_mem_left (Schema.flatten_resolve h).flip q hq
  obtain ⟨f, -, hf⟩ := exists_of_mem_left hresolves.fields.flip g hg
  exact isResolved_of_field_resolve hf

theorem resolvedForm_of_resolve (h : s.resolve t = .ok r) : s.ResolvedForm t r := by
  have hcomplete := isResolved_of_resolve h
  have hagain := Schema.resolve_eq_self (t := t) hcomplete
  obtain ⟨messages, hmessages, rfl⟩ := Schema.exists_messages_of_resolve h
  refine ⟨hcomplete, rfl, filledBy_of_resolveAll _ _ hmessages, hagain, fun repr => ?_, ?_⟩
  · rw [Schema.toRos, Schema.toRos, h, hagain]
  · rw [Schema.toProto, Schema.toProto, h, hagain]

/-- Once a file is resolved that a source gives, the table defines all enums of its fields. -/
theorem isDefined_of_schema_resolve (hsource : s.Unresolved) (h : s.resolve t = .ok r) :
    ∀ p ∈ r.flatten, ∀ f ∈ p.2.fields, f.type.IsDefined t := by
  intro q hq g hg
  obtain ⟨p, hp, -, hresolves⟩ := exists_of_mem_left (Schema.flatten_resolve h).flip q hq
  obtain ⟨f, hf, hresolve⟩ := exists_of_mem_left hresolves.fields.flip g hg
  exact isDefined_of_field_resolve (hsource p hp f hf) hresolve

/-! ## Where a conversion to ROS fails over a reference -/

/-- The error says that a reference means nothing. -/
def ConversionError.IsUnresolved (e : ConversionError) : Prop :=
  ∃ name file message field, e = .unresolved name file message field

theorem not_isUnresolved_of_rosType (hf : f.type.IsDefined t)
    (h : f.rosType t repr file message = .error e) : ¬ e.IsUnresolved := by
  rintro ⟨name, file', message', field, rfl⟩
  obtain ⟨hresolved, hdefined⟩ := hf
  unfold Field.rosType at h
  split at h
  · cases h
  · next n _ =>
    cases hcollision : collisionError? t file n with
    | none => simp [hcollision] at h
    | some e =>
      obtain ⟨candidates, -, rfl⟩ := Option.map_eq_some_iff.1 hcollision
      simp [hcollision] at h
  · next n hn =>
    obtain ⟨definition, hdefinition⟩ := hdefined n hn
    simp [hdefinition] at h
  · cases h
  · next spelling hspelling => simp [hspelling, TypeRef.isResolved] at hresolved

theorem not_isUnresolved_of_message_toRos (hm : ∀ f ∈ m.fields, f.type.IsDefined t)
    (h : m.toRos t repr file = .error e) : ¬ e.IsUnresolved := by
  rw [Message.toRos] at h
  rcases bind_eq_error_iff.1 h with htypes | ⟨types, -, h⟩
  · obtain ⟨f, hf, herror⟩ := exists_error_of_mapM htypes
    exact not_isUnresolved_of_rosType (hm f hf) herror
  · simp only at h
    split at h
    · obtain rfl := Except.error.inj h
      rintro ⟨name, file', message', field, heq⟩
      cases heq
    · cases h

theorem not_isUnresolved_of_flattenError? {flat : List (TypeName × Message)}
    (h : flattenError? t file flat = some e) : ¬ e.IsUnresolved := by
  rintro ⟨name, file', message', field, rfl⟩
  unfold flattenError? at h
  split at h
  · cases Option.some.inj h
  · obtain ⟨p, -, hp⟩ := List.exists_of_findSome?_eq_some h
    obtain ⟨candidates, -, heq⟩ := Option.map_eq_some_iff.1 hp
    cases heq

/-- A file that a source gives fails over a reference where it cannot be resolved, and nowhere else. -/
theorem toRos_unresolved_iff (hsource : s.Unresolved) (he : e.IsUnresolved) :
    s.toRos t repr = .error e ↔ s.resolve t = .error e := by
  rw [Schema.toRos, bind_eq_error_iff, or_iff_left]
  rintro ⟨r, hr, h⟩
  have hdefined := isDefined_of_schema_resolve hsource hr
  simp only at h
  split at h
  · next error herror =>
    obtain rfl := Except.error.inj h
    exact not_isUnresolved_of_flattenError? herror he
  · rcases bind_eq_error_iff.1 h with hmapped | ⟨mapped, -, h⟩
    · obtain ⟨p, hp, herror⟩ := exists_error_of_mapM hmapped
      exact not_isUnresolved_of_message_toRos (hdefined p hp) herror he
    · cases h

/-- What resolving a file gives is its resolved form: no reference is left, nothing but types in the
place of spelled references is new, resolving it again changes nothing, and both conversions make the
same of it as of the file. If the file is as a source gives it, every enum that the resolved form refers
to has a definition in the table, and a conversion to ROS fails over a reference exactly where resolving
does, with the same error. -/
theorem resolution_complete (t : SymbolTable) (s : Schema) :
    (∀ r, s.resolve t = .ok r → s.ResolvedForm t r) ∧
      (s.Unresolved →
        (∀ r, s.resolve t = .ok r → ∀ p ∈ r.flatten, ∀ f ∈ p.2.fields, f.type.IsDefined t) ∧
          ∀ repr e, e.IsUnresolved → (s.toRos t repr = .error e ↔ s.resolve t = .error e)) :=
  ⟨fun _ => resolvedForm_of_resolve, fun hsource =>
    ⟨fun _ => isDefined_of_schema_resolve hsource, fun _ _ => toRos_unresolved_iff hsource⟩⟩

/-! ## A file that resolves and one that does not -/

/-- A file with a message whose inner message refers to nothing. -/
def adriftFile : Schema :=
  robotFile "adrift.proto"
    { name := "Boat"
      fields := [{ name := "length", type := .scalar .float64 }]
      nested := [{ name := "Anchor", fields := [{ name := "chain", type := .named "Chain" }] }] }

/-- The arm has a resolved form with types at both depths; the boat fails over the chain of its anchor,
resolved by itself or on the way to ROS. -/
theorem resolution_complete_robotFiles :
    (∃ r, armFile.resolve (.ofFiles robotFiles) = .ok r ∧
      armFile.ResolvedForm (.ofFiles robotFiles) r ∧
      r.flatten.map (fun p => p.2.fields.map (·.type)) =
        [[.enum ⟨["robot"], ["Arm", "Mode"]⟩, .enum ⟨["robot"], ["Arm", "Mode"]⟩,
          .message ⟨["robot"], ["Arm", "Joint"]⟩], [.scalar .float64]]) ∧
      adriftFile.Unresolved ∧
      adriftFile.toRos (.ofFiles robotFiles) .auto =
        .error (.unresolved "Chain" "adrift.proto" "Boat.Anchor" "chain") := by
  have hadrift : adriftFile.Unresolved := by decide
  refine ⟨⟨_, rfl, (resolution_complete _ armFile).1 _ rfl, by decide +kernel⟩, hadrift, ?_⟩
  exact (((resolution_complete _ adriftFile).2 hadrift).2 .auto _ ⟨_, _, _, _, rfl⟩).2 rfl

end SchemaBridge
