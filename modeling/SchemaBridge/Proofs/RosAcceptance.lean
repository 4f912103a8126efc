import SchemaBridge.Mapping.ToRos
import SchemaBridge.Proofs.Resolution

/-!
# Which files become ROS messages

A file of a batch becomes ROS messages exactly if its references can be resolved, its messages have
distinct innermost names (`Schema.NamesApart`), no other message of the batch takes the flattened name
of a message that it declares or refers to (`Schema.NamesUnshared`), and no message would declare a
name twice (`Schema.DeclaresApart`). Each check is read as its condition on the way: the type of a field
(`rosType_cases`), a message (`toRos_cases`), the names of a file (`flattenError?_cases`).
-/

namespace SchemaBridge

/-! ## The conditions -/

/-- No two messages of the file, at any depth, have one innermost name. -/
def Schema.NamesApart (s : Schema) : Prop := (s.flatten.map (·.1.name)).Nodup

instance (s : Schema) : Decidable s.NamesApart :=
  inferInstanceAs (Decidable (s.flatten.map (·.1.name)).Nodup)

/-- The message that the field refers to, if it refers to one, shares its flattened name with no other
message of the batch. -/
def Field.RefersUnshared (files : List Schema) (f : Field) : Prop :=
  ∀ n, f.type = .message n → n.Unshared files

instance (files : List Schema) (f : Field) : Decidable (f.RefersUnshared files) :=
  match h : f.type with
  | .message n => decidable_of_iff (n.Unshared files) (by simp [Field.RefersUnshared, h])
  | .scalar _ | .named _ | .enum _ | .wellKnown _ => .isTrue (by simp [Field.RefersUnshared, h])

/-- A field of the file refers to the message `n`. -/
def Schema.Mentions (s : Schema) (n : TypeName) : Prop :=
  ∃ p ∈ s.flatten, ∃ f ∈ p.2.fields, f.type = .message n

/-- The file declares the message `n`, or a field of the file refers to it. -/
def Schema.Uses (s : Schema) (n : TypeName) : Prop := n ∈ s.flatten.map (·.1) ∨ s.Mentions n

/-- The messages that the file declares or refers to share their flattened names with no other message
of the batch. -/
def Schema.NamesUnshared (files : List Schema) (s : Schema) : Prop :=
  ∀ n, s.Uses n → n.Unshared files

theorem namesUnshared_iff {files : List Schema} {s : Schema} : s.NamesUnshared files ↔
    (∀ n ∈ s.flatten.map (·.1), n.Unshared files) ∧
      ∀ p ∈ s.flatten, ∀ f ∈ p.2.fields, f.RefersUnshared files := by
  constructor
  · intro h
    exact ⟨fun n hn => h n (.inl hn), fun p hp f hf n hn => h n (.inr ⟨p, hp, f, hf, hn⟩)⟩
  · rintro ⟨hdeclared, hreferred⟩ n (hn | ⟨p, hp, f, hf, htype⟩)
    · exact hdeclared n hn
    · exact hreferred p hp f hf n htype

instance (files : List Schema) (s : Schema) : Decidable (s.NamesUnshared files) :=
  decidable_of_iff _ namesUnshared_iff.symm

/-- The enum that the field refers to, if it refers to one. -/
def Field.referredEnums (files : List Schema) (f : Field) : List (TypeName × EnumDef) :=
  match f.type with
  | .enum n => (allEnums files).filter (·.1 = n)
  | _ => []

/-- The enums that the fields of the message refer to, each of them once. -/
def Message.referredEnums (files : List Schema) (m : Message) : List (TypeName × EnumDef) :=
  (m.fields.flatMap (Field.referredEnums files)).eraseDups

/-- The names that the message would declare in ROS: those of its fields, of its constants, and of the
values of the enums that its fields refer to. -/
def Message.rosNames (files : List Schema) (m : Message) : List String :=
  m.fields.map (·.name) ++ m.constants.map (·.name) ++
    (m.referredEnums files).flatMap fun (_, e) => e.values.map (·.name)

/-- No message of the file, at any depth, would declare a name twice in ROS. -/
def Schema.DeclaresApart (files : List Schema) (s : Schema) : Prop :=
  ∀ p ∈ s.flatten, (p.2.rosNames files).Nodup

instance (files : List Schema) (s : Schema) : Decidable (s.DeclaresApart files) :=
  inferInstanceAs (Decidable (∀ p ∈ s.flatten, (p.2.rosNames files).Nodup))

/-- What would declare a name in the ROS message: every field, every constant and every value of an
enum that has the name. -/
def Message.declarersOf (files : List Schema) (m : Message) (name : String) : List String :=
  (m.fields.filter (·.name = name)).map (fun f => "field `" ++ f.name ++ "`") ++
    (m.constants.filter (·.name = name)).map (fun c => "constant `" ++ c.name ++ "`") ++
    (m.referredEnums files).flatMap fun (n, e) =>
      (e.values.filter (·.name = name)).map fun _ => "enum `" ++ n.qualified ++ "`"

/-- A batch of proto3 files whose messages and packages have no dots in their names. -/
structure ProtoBatch (files : List Schema) : Prop where
  dialect : ∀ s ∈ files, s.dialect = .proto3
  dotFree : ∀ p ∈ allMessages files, p.1.DotFree

variable {files : List Schema} {s r : Schema} {m : Message} {f : Field} {n : TypeName}
  {name : String} (repr : EnumRepr) (file message : String)

/-! ## The type of a field -/

theorem declares_of_mem_flatten (hs : s ∈ files) (hn : n ∈ s.flatten.map (·.1)) :
    Declares files n := by
  obtain ⟨p, hp, rfl⟩ := List.mem_map.1 hn
  exact List.mem_map_of_mem (List.mem_flatMap.2 ⟨s, hs, hp⟩)

/-- A field of a known type has a type in ROS, unless the message it refers to shares its flattened
name with another one. -/
theorem rosType_cases (hdots : ∀ p ∈ allMessages files, p.1.DotFree)
    (htype : f.type.Meant (.ofFiles files)) :
    (f.RefersUnshared files ∧ ∃ type, f.rosType (.ofFiles files) repr file message = .ok type ∧
        type.enum.toList = f.referredEnums files) ∨
      (¬ f.RefersUnshared files ∧ ∃ name candidates,
        f.rosType (.ofFiles files) repr file message = .error (.ambiguous name file candidates)) := by
  generalize hf : f.type = type at htype
  cases htype with
  | scalar k => exact .inl ⟨by simp [Field.RefersUnshared, hf], _, by rw [Field.rosType, hf],
      by simp [Field.referredEnums, hf]⟩
  | wellKnown w => exact .inl ⟨by simp [Field.RefersUnshared, hf], _, by rw [Field.rosType, hf],
      by simp [Field.referredEnums, hf]⟩
  | @declared symbol hnamed =>
    have hmem : symbol ∈ (SymbolTable.ofFiles files).symbols :=
      (SymbolTable.mem_named.1 (hnamed ▸ List.mem_singleton_self symbol)).1
    cases hkind : symbol.kind with
    | message =>
      have hf : f.type = .message symbol.name := by rw [hf, Symbol.typeRef, hkind]
      have hdeclares := exists_symbol_iff_declares.1 ⟨symbol, hmem, hkind, rfl⟩
      have hunshared : f.RefersUnshared files ↔ symbol.name.Unshared files := by
        simp [Field.RefersUnshared, hf]
      rw [hunshared, ← collisions_eq_none_iff_unshared hdots hdeclares]
      cases hcollisions : (SymbolTable.ofFiles files).collisions symbol.name with
      | none =>
        refine .inl ⟨rfl, { type := .message symbol.name.flat }, ?_, ?_⟩
        · simp only [Field.rosType, hf, collisionError?, hcollisions, Option.map_none]
        · simp [Field.referredEnums, hf]
      | some candidates =>
        refine .inr ⟨by simp, symbol.name.name, candidates, ?_⟩
        simp only [Field.rosType, hf, collisionError?, hcollisions, Option.map_some]
    | enum e =>
      have hf : f.type = .enum symbol.name := by rw [hf, Symbol.typeRef, hkind]
      have hdef : (SymbolTable.ofFiles files).enumDef? symbol.name = some e := by
        simp only [SymbolTable.enumDef?, hnamed, Symbol.enumDef?, hkind]
      refine .inl ⟨by simp [Field.RefersUnshared, hf], _,
        by simp only [Field.rosType, hf, hdef]; rfl, ?_⟩
      simp [Field.referredEnums, hf, filter_allEnums hnamed hkind]

/-! ## Messages -/

theorem map_declarations : ((declarations m.fields m.constants (m.referredEnums files)).map (·.1)) =
    m.rosNames files := by
  simp [declarations, Message.rosNames, List.map_flatMap, Function.comp_def]

theorem declarers_eq : ((declarations m.fields m.constants (m.referredEnums files)).filter
    (·.1 = name)).map (·.2) = m.declarersOf files name := by
  simp [declarations, Message.declarersOf, List.filter_map, List.filter_flatMap, List.map_flatMap,
    Function.comp_def]

/-- The fields of a message have types in ROS, unless a message that one of them refers to shares its
flattened name with another one. -/
theorem rosTypes_cases (hdots : ∀ p ∈ allMessages files, p.1.DotFree)
    (htypes : ∀ f ∈ m.fields, f.type.Meant (.ofFiles files)) :
    ((∀ f ∈ m.fields, f.RefersUnshared files) ∧ ∃ types,
        m.fields.mapM (Field.rosType (.ofFiles files) repr file message) = .ok types ∧
          types.filterMap (·.enum) = m.fields.flatMap (Field.referredEnums files)) ∨
      (¬ (∀ f ∈ m.fields, f.RefersUnshared files) ∧ ∃ name candidates,
        m.fields.mapM (Field.rosType (.ofFiles files) repr file message) =
          .error (.ambiguous name file candidates)) := by
  cases hmap : m.fields.mapM (Field.rosType (.ofFiles files) repr file message) with
  | error e =>
    obtain ⟨f, hf, he⟩ := exists_error_of_mapM hmap
    obtain ⟨-, type, hok, -⟩ | ⟨hshared, name, candidates, herror⟩ :=
      rosType_cases repr file message hdots (htypes f hf)
    · cases he.symm.trans hok
    · obtain rfl := Except.error.inj (he.symm.trans herror)
      exact .inr ⟨fun hall => hshared (hall f hf), name, candidates, rfl⟩
  | ok types =>
    have hall : List.Forall₂ (fun f type => f.RefersUnshared files ∧
        type.enum.toList = f.referredEnums files) m.fields types := by
      refine (forall₂_with_mem (mapM_eq_ok_iff.1 hmap)).imp fun f type ⟨hf, _, hok⟩ => ?_
      obtain ⟨hunshared, type', hok', henums⟩ | ⟨-, name, candidates, herror⟩ :=
        rosType_cases repr file message hdots (htypes f hf)
      · obtain rfl := Except.ok.inj (hok.symm.trans hok')
        exact ⟨hunshared, henums⟩
      · cases hok.symm.trans herror
    refine .inl ⟨fun f hf => ?_, types, rfl, ?_⟩
    · obtain ⟨type, -, hunshared, -⟩ := exists_of_mem_left hall f hf
      exact hunshared
    · rw [List.filterMap_eq_flatMap_toList, List.flatMap_def, List.flatMap_def,
        map_eq_of_forall₂ (hall.imp fun _ _ h => h.2)]

/-- A message becomes a ROS message, or fails over a reference, or over the names it declares. -/
theorem toRos_cases (hdots : ∀ p ∈ allMessages files, p.1.DotFree)
    (htypes : ∀ f ∈ m.fields, f.type.Meant (.ofFiles files)) :
    ((∀ f ∈ m.fields, f.RefersUnshared files) ∧ (m.rosNames files).Nodup ∧
        ∃ ros, m.toRos (.ofFiles files) repr file = .ok ros) ∨
      ((∀ f ∈ m.fields, f.RefersUnshared files) ∧ ¬ (m.rosNames files).Nodup ∧
        ∃ name, 1 < (m.declarersOf files name).length ∧ m.toRos (.ofFiles files) repr file =
          .error (.duplicate name file m.name (m.declarersOf files name))) ∨
      (¬ (∀ f ∈ m.fields, f.RefersUnshared files) ∧ ∃ name candidates,
        m.toRos (.ofFiles files) repr file = .error (.ambiguous name file candidates)) := by
  obtain ⟨hunshared, types, hmap, henums⟩ | ⟨hshared, name, candidates, hmap⟩ :=
    rosTypes_cases repr file m.name hdots htypes
  · have hreferred : (types.filterMap (·.enum)).eraseDups = m.referredEnums files := by
      rw [henums, Message.referredEnums]
    simp only [Message.toRos, hmap, bind, Except.bind, hreferred]
    cases hrepeated : firstRepeated? (declarations m.fields m.constants (m.referredEnums files)) with
    | none =>
      have hnodup := firstRepeated?_eq_none_iff.1 hrepeated
      rw [map_declarations] at hnodup
      exact .inl ⟨hunshared, hnodup, _, rfl⟩
    | some found =>
      obtain ⟨name, sources⟩ := found
      have hrepeats : ¬ (m.rosNames files).Nodup := by
        rw [← map_declarations, ← firstRepeated?_eq_none_iff, hrepeated]
        simp
      obtain ⟨hsources, hlen⟩ := of_firstRepeated?_eq_some hrepeated
      rw [declarers_eq] at hsources
      subst hsources
      exact .inr (.inl ⟨hunshared, hrepeats, name, hlen, rfl⟩)
  · refine .inr (.inr ⟨hshared, name, candidates, ?_⟩)
    simp only [Message.toRos, hmap, bind, Except.bind]

/-! ## Files -/

/-- The flattened names of a file's messages are refused if they clash with each other or with those
of the batch. -/
theorem flattenError?_cases (hdots : ∀ p ∈ allMessages files, p.1.DotFree)
    (hdeclares : ∀ n ∈ s.flatten.map (·.1), Declares files n) :
    ((s.NamesApart ∧ ∀ n ∈ s.flatten.map (·.1), n.Unshared files) ∧
        flattenError? (.ofFiles files) file s.flatten = none) ∨
      (¬ (s.NamesApart ∧ ∀ n ∈ s.flatten.map (·.1), n.Unshared files) ∧ ∃ name candidates,
        flattenError? (.ofFiles files) file s.flatten = some (.ambiguous name file candidates)) := by
  have hnames : (s.flatten.map fun p => (p.1.name, p.1.qualified)).map (·.1) =
      s.flatten.map (·.1.name) := by simp [Function.comp_def]
  cases hrepeated : firstRepeated? (s.flatten.map fun p => (p.1.name, p.1.qualified)) with
  | some found =>
    have hclash : ¬ s.NamesApart := by
      rw [Schema.NamesApart, ← hnames, ← firstRepeated?_eq_none_iff, hrepeated]
      simp
    refine .inr ⟨fun h => hclash h.1, found.1, found.2, ?_⟩
    simp only [flattenError?, hrepeated]
  | none =>
    have hapart : s.NamesApart := by
      rw [Schema.NamesApart, ← hnames]
      exact firstRepeated?_eq_none_iff.1 hrepeated
    simp only [flattenError?, hrepeated]
    cases hfirst : s.flatten.findSome? fun p => collisionError? (.ofFiles files) file p.1 with
    | none =>
      refine .inl ⟨⟨hapart, fun n hn => ?_⟩, rfl⟩
      obtain ⟨p, hp, rfl⟩ := List.mem_map.1 hn
      have hnone := List.findSome?_eq_none_iff.1 hfirst p hp
      rw [collisionError?, Option.map_eq_none_iff] at hnone
      exact (collisions_eq_none_iff_unshared hdots (hdeclares _ hn)).1 hnone
    | some e =>
      obtain ⟨p, hp, he⟩ := List.exists_of_findSome?_eq_some hfirst
      rw [collisionError?, Option.map_eq_some_iff] at he
      obtain ⟨candidates, hcollisions, rfl⟩ := he
      have hn : p.1 ∈ s.flatten.map (·.1) := List.mem_map_of_mem hp
      refine .inr ⟨fun h => ?_, p.1.name, candidates, rfl⟩
      have hnone := (collisions_eq_none_iff_unshared hdots (hdeclares _ hn)).2 (h.2 _ hn)
      cases hcollisions.symm.trans hnone

/-- What becomes of the messages of a file, one after the other. -/
theorem mapM_toRos_cases (hdots : ∀ p ∈ allMessages files, p.1.DotFree)
    (htypes : ∀ p ∈ s.flatten, ∀ f ∈ p.2.fields, f.type.Meant (.ofFiles files)) :
    ((∀ p ∈ s.flatten, ∀ f ∈ p.2.fields, f.RefersUnshared files) ∧ s.DeclaresApart files ∧
        ∃ mapped, s.flatten.mapM (fun p => p.2.toRos (.ofFiles files) repr file) = .ok mapped) ∨
      (¬ s.DeclaresApart files ∧ ∃ p ∈ s.flatten, ∃ name, 1 < (p.2.declarersOf files name).length ∧
        s.flatten.mapM (fun p => p.2.toRos (.ofFiles files) repr file) =
          .error (.duplicate name file p.2.name (p.2.declarersOf files name))) ∨
      (¬ (∀ p ∈ s.flatten, ∀ f ∈ p.2.fields, f.RefersUnshared files) ∧ ∃ name candidates,
        s.flatten.mapM (fun p => p.2.toRos (.ofFiles files) repr file) =
          .error (.ambiguous name file candidates)) := by
  cases hmap : s.flatten.mapM (fun p => p.2.toRos (.ofFiles files) repr file) with
  | ok mapped =>
    have hall : ∀ p ∈ s.flatten,
        (∀ f ∈ p.2.fields, f.RefersUnshared files) ∧ (p.2.rosNames files).Nodup := by
      intro p hp
      obtain ⟨ros, hros⟩ := exists_of_mapM_eq_ok hmap p hp
      obtain ⟨hunshared, hnodup, -⟩ | ⟨-, -, name, -, herror⟩ | ⟨-, name, candidates, herror⟩ :=
        toRos_cases repr file hdots (htypes p hp)
      · exact ⟨hunshared, hnodup⟩
      · cases hros.symm.trans herror
      · cases hros.symm.trans herror
    exact .inl ⟨fun p hp => (hall p hp).1, fun p hp => (hall p hp).2, mapped, rfl⟩
  | error e =>
    obtain ⟨p, hp, he⟩ := exists_error_of_mapM hmap
    obtain ⟨-, -, ros, hros⟩ | ⟨-, hrepeats, name, hlen, herror⟩ |
      ⟨hshared, name, candidates, herror⟩ :=
        toRos_cases repr file hdots (htypes p hp)
    · cases he.symm.trans hros
    · obtain rfl := Except.error.inj (he.symm.trans herror)
      exact .inr (.inl ⟨fun hall => hrepeats (hall p hp), p, hp, name, hlen, rfl⟩)
    · obtain rfl := Except.error.inj (he.symm.trans herror)
      exact .inr (.inr ⟨fun hall => hshared (hall p hp), name, candidates, rfl⟩)

/-- A resolved file of the batch becomes ROS messages, or fails over the names that a message declares,
or over a flattened name. -/
theorem toRos_resolved_cases (hbatch : ProtoBatch files) (hs : s ∈ files) (hraw : s.Unresolved)
    (hr : s.resolve (.ofFiles files) = .ok r) :
    ((s.NamesApart ∧ r.NamesUnshared files) ∧ r.DeclaresApart files ∧
        ∃ c, s.toRos (.ofFiles files) repr = .ok c) ∨
      (¬ r.DeclaresApart files ∧ ∃ p ∈ r.flatten, ∃ name, 1 < (p.2.declarersOf files name).length ∧
        s.toRos (.ofFiles files) repr =
          .error (.duplicate name s.name p.2.name (p.2.declarersOf files name))) ∨
      (¬ (s.NamesApart ∧ r.NamesUnshared files) ∧ ∃ name candidates,
        s.toRos (.ofFiles files) repr = .error (.ambiguous name s.name candidates)) := by
  have hnames := Schema.names_resolve hr
  have hfile : r.name = s.name := by
    obtain ⟨messages, -, rfl⟩ := Schema.exists_messages_of_resolve hr
    rfl
  have hapart : r.NamesApart ↔ s.NamesApart := by
    have hflat := congrArg (List.map TypeName.name) hnames
    simp only [List.map_map] at hflat
    rw [Schema.NamesApart, Schema.NamesApart]
    exact Eq.to_iff (congrArg List.Nodup hflat)
  have hdeclares : ∀ n ∈ r.flatten.map (·.1), Declares files n := by
    rw [hnames]
    exact fun n hn => declares_of_mem_flatten hs hn
  have htypes := meant_of_resolve (hbatch.dialect s hs) hraw hr
  rw [namesUnshared_iff, ← hapart, ← hfile]
  -- The names of the file are checked before any message is, so a file that fails both checks is
  -- ambiguous, while of two messages that fail the first one decides.
  simp only [Schema.toRos, hr, bind, Except.bind]
  obtain ⟨⟨hnamesApart, hunshared⟩, hnone⟩ | ⟨hclash, name, candidates, hsome⟩ :=
    flattenError?_cases r.name hbatch.dotFree hdeclares
  · simp only [hnone]
    obtain ⟨hrefers, hdeclaresApart, mapped, hmap⟩ | ⟨hrepeats, p, hp, name, hlen, hmap⟩ |
      ⟨hshared, name, candidates, hmap⟩ :=
        mapM_toRos_cases repr r.name hbatch.dotFree htypes
    · simp only [hmap]
      exact .inl ⟨⟨hnamesApart, hunshared, hrefers⟩, hdeclaresApart, _, rfl⟩
    · simp only [hmap]
      exact .inr (.inl ⟨hrepeats, p, hp, name, hlen, rfl⟩)
    · simp only [hmap]
      exact .inr (.inr ⟨fun h => hshared h.2.2, name, candidates, rfl⟩)
  · simp only [hsome]
    exact .inr (.inr ⟨fun h => hclash ⟨h.1, h.2.1⟩, name, candidates, rfl⟩)

/-- A file has a place in the batch: its references can be resolved, and no name is taken twice. -/
def Schema.Acceptable (files : List Schema) (s : Schema) : Prop :=
  ∃ r, s.resolve (.ofFiles files) = .ok r ∧ s.NamesApart ∧ r.NamesUnshared files ∧
    r.DeclaresApart files

/-- The files of a batch that become ROS messages are those that resolve and take no name twice. If a
file fails only over what a message declares, the error lists all that declares the name there; if what
the messages declare is sound and a flattened name is not, the error is an ambiguity. A file that fails
stops no other one. -/
theorem toRos_eq_ok_iff (hbatch : ProtoBatch files) (hraw : ∀ s ∈ files, s.Unresolved)
    (repr : EnumRepr) (hs : s ∈ files) :
    ((∃ c, s.toRos (.ofFiles files) repr = .ok c) ↔ s.Acceptable files) ∧
      (∀ r, s.resolve (.ofFiles files) = .ok r → s.NamesApart → r.NamesUnshared files →
        ¬ r.DeclaresApart files →
          ∃ p ∈ r.flatten, ∃ name, 1 < (p.2.declarersOf files name).length ∧
            s.toRos (.ofFiles files) repr =
              .error (.duplicate name s.name p.2.name (p.2.declarersOf files name))) ∧
      (∀ r, s.resolve (.ofFiles files) = .ok r → r.DeclaresApart files →
        ¬ (s.NamesApart ∧ r.NamesUnshared files) →
          ∃ name candidates,
            s.toRos (.ofFiles files) repr = .error (.ambiguous name s.name candidates)) ∧
      ∀ s' ∈ files, ∀ e, s'.toRos (.ofFiles files) repr = .error e → s.Acceptable files →
        ∃ c, s.toRos (.ofFiles files) repr = .ok c := by
  have hcases := fun r (hr : s.resolve (.ofFiles files) = .ok r) =>
    toRos_resolved_cases repr hbatch hs (hraw s hs) hr
  have haccept : s.Acceptable files → ∃ c, s.toRos (.ofFiles files) repr = .ok c := by
    rintro ⟨r, hr, hapart, hunshared, hdeclares⟩
    obtain ⟨-, -, hok⟩ | ⟨hrepeats, -⟩ | ⟨hclash, -⟩ := hcases r hr
    · exact hok
    · exact absurd hdeclares hrepeats
    · exact absurd ⟨hapart, hunshared⟩ hclash
  refine ⟨⟨?_, haccept⟩, ?_, ?_, fun _ _ _ _ => haccept⟩
  · rintro ⟨c, hc⟩
    have hresolved := hc
    rw [Schema.toRos] at hresolved
    obtain ⟨r, hr, -⟩ := bind_eq_ok_iff.1 hresolved
    obtain ⟨⟨hapart, hunshared⟩, hdeclares, -⟩ | ⟨-, p, -, name, -, herror⟩ |
      ⟨-, name, candidates, herror⟩ := hcases r hr
    · exact ⟨r, hr, hapart, hunshared, hdeclares⟩
    · cases hc.symm.trans herror
    · cases hc.symm.trans herror
  · intro r hr hapart hunshared hrepeats
    obtain ⟨-, hdeclares, -⟩ | ⟨-, hduplicate⟩ | ⟨hclash, -⟩ := hcases r hr
    · exact absurd hdeclares hrepeats
    · exact hduplicate
    · exact absurd ⟨hapart, hunshared⟩ hclash
  · intro r hr hdeclares hclash
    obtain ⟨hapart, -⟩ | ⟨hrepeats, -⟩ | ⟨-, hambiguous⟩ := hcases r hr
    · exact absurd hapart hclash
    · exact absurd hdeclares hrepeats
    · exact hambiguous

/-! ## A batch with a name that is taken twice -/

/-- A file of package `robot`. -/
def robotFile (name : String) (m : Message) : Schema :=
  { name, dialect := .proto3, package := ["robot"], messages := [m] }

/-- A file that becomes ROS messages. -/
def armFile : Schema :=
  robotFile "arm.proto"
    { name := "Arm"
      fields :=
        [{ name := "mode", type := .named "Mode" },
         { name := "previous", type := .named ".robot.Arm.Mode" },
         { name := "joints", type := .named "Joint", repeated := true }]
      nested := [{ name := "Joint", fields := [{ name := "angle", type := .scalar .float64 }] }]
      enums := [{ name := "Mode", values := [⟨"IDLE", 0, []⟩, ⟨"MOVING", 1, []⟩] }] }

/-- A file with a field that is named like a value of its enum. -/
def gripperFile : Schema :=
  robotFile "gripper.proto"
    { name := "Gripper"
      fields := [{ name := "OPEN", type := .scalar .bool }, { name := "state", type := .named "State" }]
      enums := [{ name := "State", values := [⟨"OPEN", 0, []⟩] }] }

/-- A file whose message `name` has a wheel of its own. -/
def wheeledFile (name : String) : Schema :=
  robotFile (name ++ ".proto")
    { name, fields := [{ name := "front", type := .named "Wheel" }], nested := [{ name := "Wheel" }] }

/-- A batch of one file without fault, one that declares a name twice, and two that share a flattened
name. -/
def robotFiles : List Schema := [armFile, gripperFile, wheeledFile "Cart", wheeledFile "Truck"]

/-- The first file becomes ROS messages, whatever becomes of the others; the second one fails over its
declarations, and the last two fail over their flattened names. -/
theorem toRos_robotFiles :
    (ProtoBatch robotFiles ∧ (∀ s ∈ robotFiles, s.Unresolved) ∧ robotFiles.length = 4) ∧
      (∃ c, armFile.toRos (.ofFiles robotFiles) .auto = .ok c) ∧
      (∃ message name sources, 1 < sources.length ∧ gripperFile.toRos (.ofFiles robotFiles) .auto =
        .error (.duplicate name "gripper.proto" message sources)) ∧
      (∃ name candidates, (wheeledFile "Cart").toRos (.ofFiles robotFiles) .auto =
        .error (.ambiguous name "Cart.proto" candidates)) ∧
      ∃ name candidates, (wheeledFile "Truck").toRos (.ofFiles robotFiles) .auto =
        .error (.ambiguous name "Truck.proto" candidates) := by
  have hbatch : ProtoBatch robotFiles := ⟨by decide, by decide⟩
  have hraw : ∀ s ∈ robotFiles, s.Unresolved := by decide
  have harm := toRos_eq_ok_iff hbatch hraw .auto (s := armFile) (by simp [robotFiles])
  have hgripper := toRos_eq_ok_iff hbatch hraw .auto (s := gripperFile) (by simp [robotFiles])
  have hcart := toRos_eq_ok_iff hbatch hraw .auto (s := wheeledFile "Cart") (by simp [robotFiles])
  have htruck := toRos_eq_ok_iff hbatch hraw .auto (s := wheeledFile "Truck") (by simp [robotFiles])
  refine ⟨⟨hbatch, hraw, rfl⟩, harm.1.2 ?_, ?_, ?_, ?_⟩
  · exact ⟨_, rfl, by decide, by decide +kernel, by decide +kernel⟩
  · obtain ⟨p, -, name, hlen, herror⟩ :=
      hgripper.2.1 _ rfl (by decide) (by decide +kernel) (by decide +kernel)
    exact ⟨p.2.name, name, _, hlen, herror⟩
  · exact hcart.2.2.1 _ rfl (by decide +kernel) (by decide +kernel)
  · exact htruck.2.2.1 _ rfl (by decide +kernel) (by decide +kernel)

end SchemaBridge
