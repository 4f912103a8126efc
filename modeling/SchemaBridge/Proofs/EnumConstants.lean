import SchemaBridge.Proofs.GeneratedMessages
import SchemaBridge.Proofs.IntegerLiterals

/-!
# Enums and their constants

The constants that an enum becomes have its numbers for values, written as literals that are read as
these numbers again (`literal_toString`) and that their scalar has room for
(`fits_of_mem_toConstants`). So the enum can be read off its constants, up to the zero value that is put
in front of it (`keys_ofConstants_toConstants`).

A message that becomes a ROS message has the constants of the enums that its fields refer to, of each
enum once and in the order in which the fields name them, and these fields have the scalar of the
constants (`holdsEnums_of_message_toRos`).
-/

namespace SchemaBridge

/-! ## Literals -/

namespace Text

theorem spells_repr (n : Nat) : Spells 10 n.repr.toList n := by
  have hne : n.repr.toList.isEmpty = false := by simp [Nat.repr]
  refine digits?_eq_some_iff.1 ?_
  rw [digits?, hne, if_neg (by decide), RosText.digitsFrom?_ten fun c => isDigit_of_mem_repr n,
    Nat.repr, String.toList_ofList, Nat.ofDigitChars_toDigits (by decide) (by decide)]

/-- The text of an integer is a literal of it. -/
theorem literal_toString (number : Int) : Literal (toString number).toList number := by
  cases number with
  | ofNat n => exact ⟨.none, 10, [], _, n, .decimal, spells_repr n, rfl, rfl⟩
  | negSucc n =>
    exact ⟨.minus, 10, [], _, n + 1, .decimal, spells_repr (n + 1), toList_toString_negSucc n, rfl⟩

theorem int32Literal?_toString (number : Int32) :
    int32Literal? (toString number.toInt).toList = some number := by
  rw [int32Literal?_eq_some_iff, integerLiteral?_eq_some_iff, trim_toString]
  exact .inl (literal_toString number.toInt)

end Text

/-! ## The constants of an enum -/

/-- The smallest and the largest number of an integer scalar. -/
def Scalar.range? : Scalar → Option (Int × Int)
  | .int8 => some (-2 ^ 7, 2 ^ 7 - 1)
  | .byte | .char | .uint8 => some (0, 2 ^ 8 - 1)
  | .int16 => some (-2 ^ 15, 2 ^ 15 - 1)
  | .uint16 => some (0, 2 ^ 16 - 1)
  | .int32 | .sint32 | .sfixed32 => some (-2 ^ 31, 2 ^ 31 - 1)
  | .uint32 | .fixed32 => some (0, 2 ^ 32 - 1)
  | .int64 | .sint64 | .sfixed64 => some (-2 ^ 63, 2 ^ 63 - 1)
  | .uint64 | .fixed64 => some (0, 2 ^ 64 - 1)
  | .bool | .float32 | .float64 | .string | .wstring | .bytes => none

/-- The value of the constant is written in decimal, and its scalar has room for it. -/
def Constant.Fits (c : Constant) : Prop :=
  ∃ number low high : Int, c.value = toString number ∧ c.type.range? = some (low, high) ∧
    low ≤ number ∧ number ≤ high

/-- What a constant tells of a value of an enum. -/
def EnumValue.key (v : EnumValue) : String × Int32 := (v.name, v.number)

variable {e e' : EnumDef} {repr : EnumRepr} {k : Scalar} {constant : Constant}

theorem fits_of_mem_toConstants (h : constant ∈ e.toConstants (e.scalar repr)) : constant.Fits := by
  obtain ⟨v, hv, -, htype, hvalue, -⟩ := exists_of_mem_toConstants h
  unfold EnumDef.scalar at htype
  split at htype
  · next hfits =>
    have hrange : 0 ≤ v.number ∧ v.number ≤ 255 := by
      simpa using List.all_eq_true.1 hfits.2 v hv
    rw [Int32.le_iff_toInt_le, Int32.le_iff_toInt_le] at hrange
    exact ⟨v.number.toInt, 0, 2 ^ 8 - 1, hvalue, by rw [htype]; rfl, hrange.1, hrange.2⟩
  · have hlt := v.number.toInt_lt
    exact ⟨v.number.toInt, -2 ^ 31, 2 ^ 31 - 1, hvalue, by rw [htype]; rfl, v.number.le_toInt,
      by omega⟩

theorem isInteger_scalar (e : EnumDef) (repr : EnumRepr) : (e.scalar repr).isInteger = true := by
  rcases scalar_cases e repr with hk | hk <;> rw [hk] <;> rfl

/-- A constant made of a value is read as that value, with the comments of the constant. -/
theorem valueOf?_constant (hk : k.isInteger = true) (v : EnumValue) (comments : List String) :
    EnumDef.valueOf? { EnumDef.constant k v with comments := comments } =
      some { v with comments := comments } := by
  simp only [EnumDef.valueOf?, EnumDef.constant, hk, if_true, Text.int32Literal?_toString,
    Option.map_some]

theorem keys_filterMap_toConstants (hk : k.isInteger = true) (e : EnumDef) :
    ((e.toConstants k).filterMap EnumDef.valueOf?).map EnumValue.key = e.values.map EnumValue.key := by
  have hrest : ∀ values : List EnumValue,
      (values.map (EnumDef.constant k)).filterMap EnumDef.valueOf? = values := by
    intro values
    rw [List.filterMap_map]
    exact (List.filterMap_congr fun v _ => valueOf?_constant hk v v.comments).trans
      List.filterMap_some
  obtain ⟨name, values, comments⟩ := e
  cases values with
  | nil => rfl
  | cons v values =>
    rw [EnumDef.toConstants, List.map_cons]
    dsimp only
    rw [List.filterMap_cons_some (valueOf?_constant hk v _), hrest]
    rfl

/-- Names and numbers tell which zero value is put in front. -/
theorem keys_zeroFirst (e : EnumDef) :
    e.zeroFirst.values.map EnumValue.key =
      ((e.values.map EnumValue.key).find? (·.2 = 0)).getD e.unspecified.key ::
        (e.values.map EnumValue.key).eraseP (·.2 = 0) := by
  rw [EnumDef.zeroFirst, List.map_cons, List.find?_map, List.eraseP_map, Option.getD_map]
  rfl

/-- An enum is read off its constants, with a zero value in front. -/
theorem keys_ofConstants_toConstants (hk : k.isInteger = true) (e : EnumDef) :
    (EnumDef.ofConstants e.name (e.toConstants k)).values.map EnumValue.key =
      e.zeroFirst.values.map EnumValue.key := by
  rw [EnumDef.ofConstants, keys_zeroFirst, keys_filterMap_toConstants hk, keys_zeroFirst e]
  rfl

/-! ## The enums of a message -/

/-- The name of the enum that the type refers to, if it refers to one. -/
def TypeRef.enumName? : TypeRef → Option TypeName
  | .enum n => some n
  | _ => none

/-- The enums that the fields of a message refer to, each once, in the order in which the fields first
name them. -/
def Message.enumNames (m : Message) : List TypeName :=
  (m.fields.filterMap fun f => f.type.enumName?).eraseDups

/-- The ROS message `out` holds the enums that the fields of `m` refer to. -/
structure Message.HoldsEnums (t : SymbolTable) (repr : EnumRepr) (m out : Message) : Prop where
  once : m.enumNames.Nodup
  /-- After the constants of `m` itself, those of one enum follow those of the other. -/
  constants : ∃ definitions, List.Forall₂ (fun n e => t.enumDef? n = some e) m.enumNames definitions ∧
    out.constants = m.constants ++ definitions.flatMap fun e => e.toConstants (e.scalar repr)
  distinct : (out.constants.map (·.name)).Nodup
  /-- A field of an enum gets the scalar of the constants. -/
  fields : List.Forall₂ (fun f g => ∀ n, f.type = .enum n → n ∈ m.enumNames ∧
    ∃ e, t.enumDef? n = some e ∧ g.type = .scalar (e.scalar repr)) m.fields out.fields

variable {t : SymbolTable} {s : Schema} {c : Conversion} {m : Message} {ros : RosMessage} {f : Field}
  {n : TypeName} {file message : String}

theorem mem_enumNames : n ∈ m.enumNames ↔ ∃ f ∈ m.fields, f.type = .enum n := by
  have htype : ∀ type : TypeRef, type.enumName? = some n ↔ type = .enum n := by
    intro type
    cases type <;> simp [TypeRef.enumName?]
  simp [Message.enumNames, htype]

/-- The names of the enums, if the table defines all of them. -/
theorem names_enumsUsed (h : ∀ f ∈ m.fields, ∀ n, f.type = .enum n → ∃ e, t.enumDef? n = some e) :
    (m.enumsUsed t).map (·.1) = m.enumNames := by
  have hnames : (m.fields.filterMap (Field.enum? t)).map (·.1) =
      m.fields.filterMap fun f => f.type.enumName? := by
    rw [List.map_filterMap]
    refine List.filterMap_congr fun f hf => ?_
    unfold Field.enum?
    split
    · next n hn =>
      obtain ⟨e, he⟩ := h f hf n hn
      simp [hn, he, TypeRef.enumName?]
    · next hn =>
      cases htype : f.type with
      | enum n => exact absurd htype (hn n)
      | _ => rfl
  rw [Message.enumNames, ← hnames, Message.enumsUsed]
  refine (eraseDups_map _ fun p hp q hq heq => ?_).symm
  -- the table has one definition for a name
  obtain ⟨-, -, -, hdef⟩ := mem_enumsUsed.1 (List.mem_eraseDups.2 hp)
  obtain ⟨-, -, -, hdef'⟩ := mem_enumsUsed.1 (List.mem_eraseDups.2 hq)
  rw [heq, hdef'] at hdef
  exact Prod.ext heq (Option.some.inj hdef).symm

theorem exists_enumDef_of_rosType {rosType : RosType}
    (h : f.rosType t repr file message = .ok rosType) (hf : f.type = .enum n) :
    ∃ e, t.enumDef? n = some e ∧ rosType.type = .scalar (e.scalar repr) := by
  simp only [Field.rosType, hf] at h
  split at h
  · next e he =>
    obtain rfl := Except.ok.inj h
    exact ⟨e, he, rfl⟩
  · cases h

theorem holdsEnums_of_message_toRos (h : m.toRos t repr file = .ok ros) :
    m.HoldsEnums t repr ros.message := by
  obtain ⟨types, htypes, hros, hrepeated⟩ := exists_types_of_toRos h
  have hpairs := mapM_eq_ok_iff.1 htypes
  have hdefined : ∀ f ∈ m.fields, ∀ n, f.type = .enum n → ∃ e, t.enumDef? n = some e := by
    intro f hf n hn
    obtain ⟨rosType, hrosType⟩ := exists_of_mapM_eq_ok htypes f hf
    obtain ⟨e, he, -⟩ := exists_enumDef_of_rosType hrosType hn
    exact ⟨e, he⟩
  rw [enumsUsed_of_types htypes] at hros hrepeated
  have hconstants : ros.message.constants = m.constants ++
      ((m.enumsUsed t).map (·.2)).flatMap fun e => e.toConstants (e.scalar repr) := by
    rw [hros, List.flatMap_map]
  refine ⟨nodup_eraseDups _, ⟨_, ?_, hconstants⟩, ?_, ?_⟩
  · rw [← names_enumsUsed hdefined, List.forall₂_map_left_iff, List.forall₂_map_right_iff,
      List.forall₂_same]
    intro q hq
    obtain ⟨-, -, -, hdef⟩ := mem_enumsUsed.1 hq
    exact hdef
  · rw [firstRepeated?_eq_none_iff, names_declarations, List.append_assoc] at hrepeated
    rw [hconstants]
    simpa only [List.map_append, List.map_flatMap, List.flatMap_map, names_toConstants] using
      hrepeated.of_append_right
  · rw [hros]
    refine forall₂_map_zip (forall₂_with_mem hpairs) fun f rosType hf n hn => ?_
    obtain ⟨e, he, htype⟩ := exists_enumDef_of_rosType hf.2.2 hn
    exact ⟨mem_enumNames.2 ⟨f, hf.1, hn⟩, e, he, htype⟩

/-- No value of an enum is lost among constants: their scalar has room for the numbers, and the enum is
read off them again with a zero value in front. That value is the first one that is zero, moved from its
place, or an added one where there is none; all others stay as they are, and doing it again changes
nothing. A file that becomes ROS messages holds in each of them every enum that its fields refer to. -/
theorem enums_kept (repr : EnumRepr) :
    (∀ e : EnumDef,
      (∀ constant ∈ e.toConstants (e.scalar repr), constant.type = e.scalar repr ∧ constant.Fits) ∧
        (EnumDef.ofConstants e.name (e.toConstants (e.scalar repr))).values.map EnumValue.key =
          e.zeroFirst.values.map EnumValue.key) ∧
      (∀ e : EnumDef, e.HasZeroInFront e.zeroFirst ∧
        e.zeroFirst.values.head?.map (·.number) = some 0 ∧ e.zeroFirst.zeroFirst = e.zeroFirst) ∧
      ∀ (t : SymbolTable) (s : Schema) (c : Conversion), s.toRos t repr = .ok c →
        ∃ r, s.resolve t = .ok r ∧
          List.Forall₂ (fun p out => p.2.HoldsEnums t repr out) r.flatten c.schema.messages := by
  refine ⟨fun e => ⟨fun constant hconstant => ?_, ?_⟩, fun e => ?_, fun t s c h => ?_⟩
  · obtain ⟨-, -, -, htype, -⟩ := exists_of_mem_toConstants hconstant
    exact ⟨htype, fits_of_mem_toConstants hconstant⟩
  · exact keys_ofConstants_toConstants (isInteger_scalar e repr) e
  · have hfront := e.hasZeroInFront_zeroFirst
    refine ⟨hfront, ?_⟩
    generalize e.zeroFirst = e' at hfront
    cases hfront with
    | added => exact ⟨rfl, EnumDef.zeroFirst_eq_self rfl rfl⟩
    | moved _ _ hzero => exact ⟨by simp [hzero], EnumDef.zeroFirst_eq_self rfl hzero⟩
  · obtain ⟨r, hr, -, mapped, hmapped, hschema⟩ := exists_mapped_of_toRos h
    refine ⟨r, hr, ?_⟩
    rw [hschema, List.forall₂_map_right_iff]
    exact (mapM_eq_ok_iff.1 hmapped).imp fun _ _ hros => holdsEnums_of_message_toRos hros

/-! ## A message with two enums -/

/-- A file whose message names one enum twice and another one in between. -/
def gearboxFile : Schema :=
  robotFile "gearbox.proto"
    { name := "Gearbox"
      fields :=
        [{ name := "gear", type := .named "Gear" }, { name := "side", type := .named "Side" },
         { name := "presets", type := .named "Gear", repeated := true }]
      enums :=
        [{ name := "Side", values := [⟨"LEFT", 0, []⟩, ⟨"RIGHT", 255, []⟩] },
         { name := "Gear"
           values := [⟨"REVERSE", -2147483648, []⟩, ⟨"NEUTRAL", 0, ["idle"]⟩, ⟨"DRIVE", 1, []⟩] }] }

/-- Each enum becomes constants of a scalar of its own, and the fields have these scalars. -/
theorem enums_kept_gearboxFile :
    ∃ r c, gearboxFile.resolve (.ofFiles [gearboxFile]) = .ok r ∧
      gearboxFile.toRos (.ofFiles [gearboxFile]) .auto = .ok c ∧
      List.Forall₂ (fun p out => p.2.HoldsEnums (.ofFiles [gearboxFile]) .auto out) r.flatten
        c.schema.messages ∧
      c.schema.messages.map (fun out => out.fields.map (·.type)) =
        [[.scalar .int32, .scalar .uint8, .scalar .int32]] ∧
      c.schema.messages.map (fun out => out.constants.map fun k => (k.type, k.name, k.value)) =
        [[(.int32, "REVERSE", "-2147483648"), (.int32, "NEUTRAL", "0"), (.int32, "DRIVE", "1"),
          (.uint8, "LEFT", "0"), (.uint8, "RIGHT", "255")]] := by
  have hok : (gearboxFile.toRos (.ofFiles [gearboxFile]) .auto).map (fun c =>
      (c.schema.messages.map (fun out => out.fields.map (·.type)),
        c.schema.messages.map (fun out => out.constants.map fun k => (k.type, k.name, k.value)))) =
      .ok ([[.scalar .int32, .scalar .uint8, .scalar .int32]],
        [[(.int32, "REVERSE", "-2147483648"), (.int32, "NEUTRAL", "0"), (.int32, "DRIVE", "1"),
          (.uint8, "LEFT", "0"), (.uint8, "RIGHT", "255")]]) := by decide +kernel
  obtain ⟨c, hc, hparts⟩ := map_eq_ok_iff.1 hok
  obtain ⟨r, hr, hholds⟩ := (enums_kept .auto).2.2 _ _ _ hc
  obtain ⟨htypes, hconstants⟩ := Prod.mk.inj hparts
  exact ⟨r, c, hr, hc, hholds, htypes, hconstants⟩

end SchemaBridge
