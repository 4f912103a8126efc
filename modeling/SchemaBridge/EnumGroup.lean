import SchemaBridge.Naming
import SchemaBridge.Schema
import SchemaBridge.Text.Numeral

/-!
# Enums and groups of constants

ROS messages have no enums: an enum becomes a group of integer constants (`EnumDef.toConstants`), and
a group of integer constants can be read as an enum (`EnumDef.ofConstants`). A proto3 enum begins with
a zero value, which `EnumDef.zeroFirst` takes care of.

* `hasZeroInFront_zeroFirst`: no value is lost, and no other value changes its place.
* `zeroFirst_eq_self`: an enum that begins with a zero value is left as it is.
-/

namespace SchemaBridge

/-- The scalar that a policy asks for where an enum becomes constants. -/
inductive EnumRepr where
  /-- The narrower of `uint8` and `int32` that holds all values. -/
  | auto
  | uint8
  | int32
deriving DecidableEq, Inhabited

def EnumRepr.ofWord? : String → Option EnumRepr
  | "auto" => some .auto
  | "uint8" => some .uint8
  | "int32" => some .int32
  | _ => none

namespace EnumDef

/-! ## From an enum to constants -/

def fitsUInt8 (e : EnumDef) : Bool := e.values.all fun v => 0 ≤ v.number && v.number ≤ 255

/-- The scalar of the constants of an enum: `uint8` only if all values fit and `int32` is not asked
for. -/
def scalar (e : EnumDef) (repr : EnumRepr) : Scalar :=
  if repr ≠ .int32 ∧ e.fitsUInt8 then .uint8 else .int32

def constant (type : Scalar) (v : EnumValue) : Constant :=
  { name := v.name, type, value := toString v.number.toInt, comments := v.comments }

/-- The constants for the values of an enum; the name and comments of the enum stand before those of
the first value. -/
def toConstants (e : EnumDef) (type : Scalar) : List Constant :=
  match e.values.map (constant type) with
  | [] => []
  | first :: rest => { first with comments := e.name :: e.comments ++ first.comments } :: rest

/-! ## A zero value in front -/

/-- The zero value that is added to an enum without one. -/
def unspecified (e : EnumDef) : EnumValue := ⟨upperSnakeCase e.name ++ "_UNSPECIFIED", 0, []⟩

/-- An enum with its first zero value moved to the front, or with one added there. -/
def zeroFirst (e : EnumDef) : EnumDef :=
  let zero := (e.values.find? (·.number = 0)).getD e.unspecified
  { e with values := zero :: e.values.eraseP (·.number = 0) }

/-- The enum `e'` is the enum `e` with its first zero value moved to the front, or with one added there
if it has none. -/
inductive HasZeroInFront (e : EnumDef) : EnumDef → Prop
  | added (hnone : ∀ v ∈ e.values, v.number ≠ 0) :
      HasZeroInFront e { e with values := e.unspecified :: e.values }
  | moved {before after : List EnumValue} {zero : EnumValue}
      (hvalues : e.values = before ++ zero :: after) (hbefore : ∀ v ∈ before, v.number ≠ 0)
      (hzero : zero.number = 0) : HasZeroInFront e { e with values := zero :: (before ++ after) }

theorem hasZeroInFront_zeroFirst (e : EnumDef) : e.HasZeroInFront e.zeroFirst := by
  cases hfind : e.values.find? (·.number = 0) with
  | none =>
    have hnone : ∀ v ∈ e.values, v.number ≠ 0 := by simpa using hfind
    have hvalues : e.zeroFirst = { e with values := e.unspecified :: e.values } := by
      rw [zeroFirst, hfind, Option.getD_none, List.eraseP_of_forall_not (by simpa using hnone)]
    exact hvalues ▸ .added hnone
  | some zero =>
    obtain ⟨hzero, before, after, hsplit, hbefore⟩ := List.find?_eq_some_iff_append.1 hfind
    have hvalues : e.zeroFirst = { e with values := zero :: (before ++ after) } := by
      have hfirst : (zero :: after).eraseP (·.number = 0) = after := List.eraseP_cons_of_pos hzero
      rw [zeroFirst, hfind, Option.getD_some, hsplit,
        List.eraseP_append_right _ (by simpa using hbefore), hfirst]
    exact hvalues ▸ .moved hsplit (by simpa using hbefore) (by simpa using hzero)

theorem zeroFirst_eq_self {e : EnumDef} {zero : EnumValue} {rest : List EnumValue}
    (hvalues : e.values = zero :: rest) (hzero : zero.number = 0) : e.zeroFirst = e := by
  obtain ⟨name, values, comments⟩ := e
  obtain rfl : values = zero :: rest := hvalues
  simp [zeroFirst, hzero]

/-! ## From constants to an enum -/

def valueOf? (c : Constant) : Option EnumValue :=
  if c.type.isInteger then
    (Text.int32Literal? c.value.toList).map fun n => ⟨c.name, n, c.comments⟩
  else none

/-- The enum of the constants that are integers, with a zero value in front. -/
def ofConstants (name : String) (constants : List Constant) : EnumDef :=
  zeroFirst { name, values := constants.filterMap valueOf? }

end EnumDef

end SchemaBridge
