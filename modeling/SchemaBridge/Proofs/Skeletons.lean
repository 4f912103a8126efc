import SchemaBridge.Mapping.ToRos
import SchemaBridge.Proofs.SupportedConstructs
import SchemaBridge.Proofs.TableAnswers

/-!
# Skeletons stand for their files

The skeletons of some files declare what the schemas of the files declare, but for the comments of enums:
their table is that of the schemas without those comments (`ofFiles_skeletons`). No answer of a table
depends on them, apart from the definition of an enum, and no conversion does, apart from the comments of
the constants that an enum becomes (`Schema.toRos_bare`). `skeletons_stand_for_schemas` says so of the two
tables of some files.
-/

namespace SchemaBridge

/-! ## Tables without the comments of enums -/

/-- An enum with nothing but names and numbers. -/
def EnumDef.bare (e : EnumDef) : EnumDef :=
  { name := e.name, values := e.values.map fun v => ⟨v.name, v.number, []⟩ }

/-- A named enum with nothing but names and numbers. -/
def bareEnum (p : TypeName × EnumDef) : TypeName × EnumDef := (p.1, p.2.bare)

def SymbolKind.bare : SymbolKind → SymbolKind
  | .message => .message
  | .enum e => .enum e.bare

def Symbol.bare (s : Symbol) : Symbol := { s with kind := s.kind.bare }

def SymbolTable.bare (t : SymbolTable) : SymbolTable := { t with symbols := t.symbols.map Symbol.bare }

@[simp] theorem Symbol.name_bare (s : Symbol) : s.bare.name = s.name := rfl

@[simp] theorem Symbol.file_bare (s : Symbol) : s.bare.file = s.file := rfl

theorem Symbol.bare_kind_eq_message_iff (s : Symbol) : s.bare.kind = .message ↔ s.kind = .message := by
  cases hkind : s.kind <;> simp [bare, SymbolKind.bare, hkind]

@[simp] theorem Symbol.typeRef_bare (s : Symbol) : s.bare.typeRef = s.typeRef := by
  cases hkind : s.kind <;> simp [typeRef, bare, SymbolKind.bare, hkind]

theorem Symbol.enumDef?_bare (s : Symbol) : s.bare.enumDef? = s.enumDef?.map EnumDef.bare := by
  cases hkind : s.kind <;> simp [enumDef?, bare, SymbolKind.bare, hkind]

namespace SymbolTable

variable (t : SymbolTable)

theorem named_bare (qualified : String) :
    t.bare.named qualified = (t.named qualified).map Symbol.bare := by
  rw [named, bare, List.filter_map]
  rfl

theorem lookup_bare (qualified file : String) :
    t.bare.lookup qualified file = (t.lookup qualified file).map (Option.map Symbol.bare) := by
  rw [lookup, lookup, named_bare]
  match t.named qualified with
  | [] => rfl
  | [s] => rfl
  | s :: s' :: many => simp [Except.map]

theorem enumDef?_bare (name : TypeName) : t.bare.enumDef? name = (t.enumDef? name).map EnumDef.bare := by
  rw [enumDef?, enumDef?, named_bare]
  match t.named name.qualified with
  | [] => rfl
  | [s] => exact s.enumDef?_bare
  | s :: s' :: many => rfl

theorem collisions_bare : t.bare.collisions = t.collisions := by
  funext name
  have hflattened : t.bare.flattenedTo name = t.flattenedTo name := by
    simp only [flattenedTo, bare, List.filter_map, List.map_map, Function.comp_def, Symbol.name_bare,
      Symbol.bare_kind_eq_message_iff]
  rw [collisions, collisions, hflattened]

theorem answersLike_bare : t.AnswersLike Eq t.bare where
  lookup qualified file := by
    rw [lookup_bare]
    cases t.lookup qualified file with
    | error e => exact .error rfl
    | ok s => exact .ok (by cases s <;> simp)
  hasPackage _ := rfl

/-- The comments of enums have no part in what a reference means. -/
theorem resolve_bare (s : Schema) : s.resolve t.bare = s.resolve t :=
  (t.answersLike_bare.resolve (fun _ => rfl) s).eq.symm

end SymbolTable

/-! ## Skeletons declare what their files declare -/

theorem EnumDescriptor.Mirrors.skeleton {d : EnumDescriptor} {e : EnumDef} (h : d.Mirrors e) :
    d.skeleton = e.bare := by
  have hvalues : e.values.map (fun v => (⟨v.name, v.number, []⟩ : EnumValue)) =
      d.values.map fun v => v.value [] :=
    map_eq_of_forall₂ <| h.values.imp fun v v' hv => by rw [hv.name, hv.number, EnumValueDescriptor.value]
  rw [EnumDescriptor.skeleton, EnumDef.bare, hvalues, h.name]

theorem skeletons_enums {ds : List EnumDescriptor} {es : List EnumDef}
    (h : List.Forall₂ EnumDescriptor.Mirrors ds es) :
    ds.map EnumDescriptor.skeleton = es.map EnumDef.bare :=
  (map_eq_of_forall₂ (h.imp fun _ _ hd => hd.skeleton.symm)).symm

mutual

theorem MessageDescriptor.declared_flatten : ∀ (d : MessageDescriptor) (m : Message) (scope : TypeName),
    d.Mirrors m → (d.skeleton.flatten scope).map (fun p => (p.1, p.2.enums)) =
      (m.flatten scope).map fun p => (p.1, p.2.enums.map EnumDef.bare)
  | ⟨_, _, nested, _, _, _, _, _⟩, ⟨_, _, nested', _, _, _⟩, scope, .intro hname _ henums hnested => by
    obtain rfl := hname
    simp only [skeleton, Message.flatten, List.map_cons, declared_flattenAll nested nested' _ hnested,
      skeletons_enums henums]

theorem MessageDescriptor.declared_flattenAll : ∀ (ds : List MessageDescriptor) (ms : List Message)
    (scope : TypeName), List.Forall₂ MessageDescriptor.Mirrors ds ms →
      (Message.flattenAll scope (skeletons ds)).map (fun p => (p.1, p.2.enums)) =
        (Message.flattenAll scope ms).map fun p => (p.1, p.2.enums.map EnumDef.bare)
  | [], _, _, .nil => rfl
  | d :: ds, m :: ms, scope, .cons hd hds => by
    simp only [skeletons, Message.flattenAll, List.map_append, declared_flatten d m scope hd,
      declared_flattenAll ds ms scope hds]

end

namespace FileDescriptor.Mirrors

variable {f : FileDescriptor} {s : Schema}

/-- The messages of a skeleton are those of its file, with the same enums but for comments. -/
theorem declared_flatten (h : f.Mirrors s) :
    f.skeleton.flatten.map (fun p => (p.1, p.2.enums)) =
      s.flatten.map fun p => (p.1, p.2.enums.map EnumDef.bare) := by
  rw [Schema.flatten, Schema.flatten, h.package]
  exact MessageDescriptor.declared_flattenAll f.messages s.messages _ h.messages

theorem names_flatten (h : f.Mirrors s) : s.flatten.map (·.1) = f.skeleton.flatten.map (·.1) := by
  have hnames := congrArg (List.map Prod.fst) h.declared_flatten
  rw [List.map_map, List.map_map] at hnames
  exact hnames.symm

theorem namedEnums_skeleton (h : f.Mirrors s) :
    f.skeleton.namedEnums = s.namedEnums.map bareEnum := by
  have hpackage : f.skeleton.package = s.package := h.package.symm
  have houtermost : f.skeleton.enums = s.enums.map EnumDef.bare := skeletons_enums h.enums
  have hnested : f.skeleton.flatten.flatMap (fun p => p.2.namedEnums p.1) =
      s.flatten.flatMap fun p => (p.2.namedEnums p.1).map bareEnum := by
    have hflatten := congrArg
      (List.flatMap fun p => p.2.map fun e => (p.1.child e.name, e)) h.declared_flatten
    rw [List.flatMap_map, List.flatMap_map] at hflatten
    simp only [Message.namedEnums, List.map_map] at hflatten ⊢
    exact hflatten
  rw [Schema.namedEnums, Schema.namedEnums, houtermost, hpackage, List.map_append,
    List.map_flatMap, List.map_map, List.map_map]
  exact congrArg₂ (· ++ ·) rfl hnested

theorem symbols_skeleton (h : f.Mirrors s) : f.skeleton.symbols = s.symbols.map Symbol.bare := by
  have hname : f.skeleton.name = s.name := h.name.symm
  have hmessages := congrArg (List.map fun name => (⟨name, s.name, .message⟩ : Symbol)) h.names_flatten
  rw [List.map_map, List.map_map] at hmessages
  rw [Schema.symbols, Schema.symbols, h.namedEnums_skeleton, hname, List.map_append, List.map_map,
    List.map_map, List.map_map]
  exact congrArg₂ (· ++ ·) rfl hmessages.symm

end FileDescriptor.Mirrors

/-- The table of some skeletons is that of the schemas of the files without the comments of enums. -/
theorem ofFiles_skeletons {files : List FileDescriptor} {schemas : List Schema}
    (h : files.mapM FileDescriptor.toSchema = .ok schemas) :
    SymbolTable.ofFiles (files.map FileDescriptor.skeleton) = (SymbolTable.ofFiles schemas).bare := by
  have hmirrors := (mapM_eq_ok_iff.1 h).imp fun _ _ hs => FileDescriptor.mirrors_of_toSchema hs
  have hsymbols := map_eq_of_forall₂ (hmirrors.imp fun _ _ hs => hs.symbols_skeleton.symm)
  have hpackages := map_eq_of_forall₂ (hmirrors.imp fun _ _ hs => hs.package)
  rw [SymbolTable.ofFiles_eq, SymbolTable.ofFiles_eq, SymbolTable.bare, List.map_flatMap, List.flatMap_def,
    List.flatMap_def, List.map_map, List.map_map, hpackages]
  exact congrArg (SymbolTable.mk · _) (congrArg List.flatten hsymbols.symm)

/-! ## Conversions with a table without comments -/

/-- A message whose constants have no comments. -/
def Message.uncommentConstants (m : Message) : Message :=
  { m with constants := m.constants.map fun c => { c with comments := [] } }

theorem EnumDef.scalar_bare (e : EnumDef) (repr : EnumRepr) : e.bare.scalar repr = e.scalar repr := by
  have hfits : e.bare.fitsUInt8 = e.fitsUInt8 := by
    rw [fitsUInt8, bare, List.all_map]
    rfl
  rw [scalar, scalar, hfits]

theorem EnumDef.losses_bare (e : EnumDef) (repr : EnumRepr) (used : Scalar) :
    e.bare.losses repr used = e.losses repr used := rfl

theorem EnumDef.uncomment_toConstants_bare (e : EnumDef) (type : Scalar) :
    (e.bare.toConstants type).map (fun c => { c with comments := [] }) =
      (e.toConstants type).map (fun c => { c with comments := [] }) := by
  obtain ⟨name, values, comments⟩ := e
  cases values with
  | nil => rfl
  | cons v values => simp [toConstants, bare, constant]

theorem declarations_bare (fields : List Field) (constants : List Constant)
    (enums : List (TypeName × EnumDef)) :
    declarations fields constants (enums.map bareEnum) = declarations fields constants enums := by
  simp only [declarations, bareEnum, EnumDef.bare, List.flatMap_map, List.map_map, Function.comp_def]

/-- The type of a field with its enum without comments. -/
def RosType.bare (r : RosType) : RosType := { r with enum := r.enum.map bareEnum }

theorem Field.withRosType_bare (f : Field) (r : RosType) : f.withRosType r.bare = f.withRosType r := by
  cases henum : r.enum <;> simp [withRosType, RosType.bare, bareEnum, EnumDef.bare, henum]

section

variable {t : SymbolTable} {repr : EnumRepr} {file message : String} {f : Field} {r r' : RosType}
  {types types' : List RosType}

/-- The second type is the first one without comments; the table has the enum of the first one. -/
structure RosType.Bares (t : SymbolTable) (r r' : RosType) : Prop where
  eq : r' = r.bare
  declared : ∀ p ∈ r.enum, t.enumDef? p.1 = some p.2

theorem Field.rosType_bare (f : Field) :
    ResultRel Eq (RosType.Bares t) (f.rosType t repr file message)
      (f.rosType t.bare repr file message) := by
  unfold Field.rosType
  split
  · exact .ok ⟨rfl, by simp⟩
  · simp only [collisionError?, t.collisions_bare]
    split
    · exact .error rfl
    · exact .ok ⟨rfl, by simp⟩
  · next name _ =>
    rw [t.enumDef?_bare]
    cases hdef : t.enumDef? name with
    | none => exact .error rfl
    | some e =>
      refine .ok ⟨?_, by simp [hdef]⟩
      simp only [e.scalar_bare, e.losses_bare]
      rfl
  · exact .ok ⟨rfl, by simp⟩
  · exact .error rfl

theorem eq_map_bare (h : List.Forall₂ (RosType.Bares t) types types') :
    types' = types.map RosType.bare := by
  have heq := h.imp fun r r' hr => hr.eq.symm
  rwa [← List.forall₂_map_left_iff, List.forall₂_eq_eq_eq, eq_comm] at heq

/-- Enums of a table are told apart by their names, with comments or without. -/
theorem eraseDups_bareEnum (h : List.Forall₂ (RosType.Bares t) types types') :
    (types'.filterMap (·.enum)).eraseDups = (types.filterMap (·.enum)).eraseDups.map bareEnum := by
  have hdeclared : ∀ p ∈ types.filterMap (·.enum), t.enumDef? p.1 = some p.2 := by
    intro p hp
    obtain ⟨r, hr, henum⟩ := List.mem_filterMap.1 hp
    obtain ⟨r', -, hbares⟩ := exists_of_mem_left h r hr
    exact hbares.declared p henum
  have hmap : types'.filterMap (·.enum) = (types.filterMap (·.enum)).map bareEnum := by
    rw [eq_map_bare h, List.filterMap_map, List.map_filterMap]
    rfl
  rw [hmap]
  refine eraseDups_map _ fun p hp p' hp' heq => ?_
  have hname : (bareEnum p).1 = (bareEnum p').1 := by rw [heq]
  have hdef := (hdeclared p hp).symm.trans (hname ▸ hdeclared p' hp')
  exact Prod.ext hname (Option.some.inj hdef)

/-- The second message, with what is lost, is the first one but for the comments of constants. -/
structure RosMessage.Bares (r r' : RosMessage) : Prop where
  message : r'.message.uncommentConstants = r.message.uncommentConstants
  losses : r'.losses = r.losses
  enums : r'.enums = r.enums.map bareEnum

theorem Message.toRos_bare (m : Message) :
    ResultRel Eq RosMessage.Bares (m.toRos t repr file) (m.toRos t.bare repr file) := by
  rw [Message.toRos, Message.toRos]
  refine (ResultRel.mapM fun f _ => f.rosType_bare).bind fun types types' htypes => ?_
  simp only [eraseDups_bareEnum htypes, declarations_bare]
  generalize (types.filterMap (·.enum)).eraseDups = enums
  obtain rfl := eq_map_bare htypes
  cases firstRepeated? (declarations m.fields m.constants enums) with
  | some repeated => exact .error rfl
  | none =>
    refine .ok ⟨?_, ?_, rfl⟩
    · simp only [Message.uncommentConstants, List.zip_map_right, List.map_map, List.map_append,
        List.map_flatMap, List.flatMap_map, Function.comp_def, Prod.map_fst, Prod.map_snd, id_eq,
        Field.withRosType_bare, bareEnum, EnumDef.scalar_bare, EnumDef.uncomment_toConstants_bare]
    · simp only [List.zip_map_right, List.flatMap_map, Prod.map_fst, Prod.map_snd, id_eq]
      rfl

/-- The second conversion is the first one but for the comments of constants. -/
structure Conversion.SameButConstantComments (c c' : Conversion) : Prop where
  losses : c.losses = c'.losses
  messages : c.schema.messages.map Message.uncommentConstants =
    c'.schema.messages.map Message.uncommentConstants
  /-- Names, dialect, packages, imports and enums are the same. -/
  rest : { c.schema with messages := [] } = { c'.schema with messages := [] }

/-- The comments of enums change nothing but the comments of constants. -/
theorem Schema.toRos_bare (s : Schema) :
    ResultRel Eq Conversion.SameButConstantComments (s.toRos t repr) (s.toRos t.bare repr) := by
  have hcollision : collisionError? t.bare = collisionError? t := by
    funext file name
    rw [collisionError?, collisionError?, t.collisions_bare]
  have hflatten : flattenError? t.bare = flattenError? t := by
    funext file flat
    simp only [flattenError?, hcollision]
  rw [Schema.toRos, Schema.toRos, t.resolve_bare, hflatten]
  refine (ResultRel.refl (fun _ => rfl) (s.resolve t)).bind fun resolved _ hresolved => ?_
  subst hresolved
  dsimp only
  cases flattenError? t resolved.name resolved.flatten with
  | some error => exact .error rfl
  | none =>
    refine (ResultRel.mapM fun p _ => p.2.toRos_bare).bind fun mapped mapped' hmapped => .ok ?_
    have hmessages := map_eq_of_forall₂ (hmapped.imp fun _ _ hr => hr.message)
    -- the losses of a file are made of those of its messages, and so are the enums that it uses
    have hlosses : (resolved.flatten.zip mapped).flatMap (fun p => nestingLoss p.1.1 p.1.2 ++ p.2.losses) =
        (resolved.flatten.zip mapped').flatMap fun p => nestingLoss p.1.1 p.1.2 ++ p.2.losses :=
      flatMap_zip_of_forall₂ hmapped fun p _ _ hr => congrArg (nestingLoss p.1 p.2 ++ ·) hr.losses.symm
    have hused : mapped'.map (fun r => r.enums.map (·.1)) = mapped.map fun r => r.enums.map (·.1) :=
      map_eq_of_forall₂ <| hmapped.imp fun _ _ hr => by
        rw [hr.enums, List.map_map]
        rfl
    refine ⟨?_, ?_, rfl⟩
    · rw [List.flatMap_def (l := mapped), List.flatMap_def (l := mapped'), hused]
      exact congrArg (· ++ _) hlosses
    · rw [List.map_map, List.map_map]
      exact hmessages.symm

end

/-! ## The two tables of some files -/

/-- The table of the skeletons of some files that can all be converted answers as that of their schemas
does: it resolves every file alike, tells the same collisions, packages and enums, and every file has the
same conversion with it but for the comments of constants. -/
theorem skeletons_stand_for_schemas {files : List FileDescriptor} {schemas : List Schema}
    (h : files.mapM FileDescriptor.toSchema = .ok schemas) :
    let skeletal := SymbolTable.ofFiles (files.map FileDescriptor.skeleton)
    let full := SymbolTable.ofFiles schemas
    (∀ s : Schema, s.resolve skeletal = s.resolve full) ∧
      (∀ name, skeletal.collisions name = full.collisions name) ∧
      (skeletal.packages = full.packages ∧
        ∀ package, skeletal.hasPackage package = full.hasPackage package) ∧
      (∀ name, skeletal.enumDef? name = (full.enumDef? name).map EnumDef.bare) ∧
      ∀ (s : Schema) (repr : EnumRepr),
        ResultRel Eq Conversion.SameButConstantComments (s.toRos full repr) (s.toRos skeletal repr) := by
  intro skeletal full
  have hskeletal : skeletal = full.bare := ofFiles_skeletons h
  rw [hskeletal]
  refine ⟨full.resolve_bare, fun name => ?_, ⟨rfl, fun _ => rfl⟩, full.enumDef?_bare, fun s repr => ?_⟩
  · rw [full.collisions_bare]
  · exact s.toRos_bare

/-! ## An enum with comments -/

/-- A file with a message that nests an enum with a commented value and has a field of that enum. -/
def lampFile : FileDescriptor :=
  { name := some "lamp.proto"
    package := some "home"
    messages :=
      [{ name := some "Lamp"
         fields :=
           [{ name := some "mode", number := some 1, label := some 1, type := some 14
              typeName := some ".home.Lamp.Mode" }]
         enums :=
           [{ name := some "Mode"
              values := [{ name := some "OFF", number := some 0 }, { name := some "ON", number := some 1 }] }] }]
    locations := some [{ path := [4, 0, 4, 0, 2, 1], leading := some " burning
" }]
    language := some "proto3" }

/-- The constants of the messages of a conversion, if there is one. -/
def constantsOf (c : Except ConversionError Conversion) : List Constant :=
  c.toOption.toList.flatMap fun c => c.schema.messages.flatMap (·.constants)

/-- The comment on the value is lost with the table of the skeleton, and nothing else. -/
theorem skeletons_stand_for_lampFile :
    ∃ s, [lampFile].mapM FileDescriptor.toSchema = .ok [s] ∧
      constantsOf (s.toRos (.ofFiles [s]) .auto) =
        [{ name := "OFF", type := .uint8, value := "0", comments := ["Mode"] },
         { name := "ON", type := .uint8, value := "1", comments := ["burning"] }] ∧
      constantsOf (s.toRos (.ofFiles [lampFile.skeleton]) .auto) =
        [{ name := "OFF", type := .uint8, value := "0", comments := ["Mode"] },
         { name := "ON", type := .uint8, value := "1" }] ∧
      ResultRel Eq Conversion.SameButConstantComments (s.toRos (.ofFiles [s]) .auto)
        (s.toRos (.ofFiles [lampFile.skeleton]) .auto) := by
  refine ⟨_, rfl, by decide +kernel, by decide +kernel, ?_⟩
  obtain ⟨-, -, -, -, hconversions⟩ := skeletons_stand_for_schemas
    (show [lampFile].mapM FileDescriptor.toSchema = .ok [_] from rfl)
  exact hconversions _ .auto

end SchemaBridge
