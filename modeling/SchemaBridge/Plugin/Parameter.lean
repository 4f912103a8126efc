import SchemaBridge.EnumGroup
import SchemaBridge.Error
import SchemaBridge.Text.Blank

/-!
# The parameter of a plugin

The compiler passes a plugin one parameter: entries `key` or `key=value` between commas. Blanks around
entries, keys and values count for nothing, and so do empty entries. `Options.withParameter` applies
the entries one after the other.
-/

namespace SchemaBridge.Plugin

open Text

structure Options where
  /-- Whether the first file that fails stops the whole run. -/
  strict : Bool := false
  enumRepr : EnumRepr := .auto
deriving DecidableEq, Inhabited

structure Entry where
  /-- The whole entry, without the blanks around it. -/
  text : String
  key : String
  value : Option String
deriving DecidableEq, Inhabited

/-- The entry that a text without blanks around it spells. -/
def Entry.ofText (text : List Char) : Entry :=
  let key := text.takeWhile (· ≠ '=')
  match text.dropWhile (· ≠ '=') with
  | [] => ⟨String.ofList text, String.ofList text, none⟩
  | _ :: value =>
    ⟨String.ofList text, String.ofList (trim key), some (String.ofList (trim value))⟩

def entries (parameter : String) : List Entry :=
  (((parameter.toList.splitOn ',').map trim).filter (¬ ·.isEmpty)).map Entry.ofText

def truthValue? : String → Option Bool
  | "true" => some true
  | "false" => some false
  | _ => none

namespace Options

/-- The options that result from setting `key` to `value`. -/
def set (o : Options) (key : String) (value : Option String) : Except ParameterFault Options :=
  match key, value with
  | "strict", none => .ok { o with strict := true }
  | "strict", some word =>
    match truthValue? word with
    | some b => .ok { o with strict := b }
    | none => .error (.truthValue word)
  | "enum_repr", some word =>
    match EnumRepr.ofWord? word with
    | some r => .ok { o with enumRepr := r }
    | none => .error (.enumRepr word)
  | "enum_repr", none => .error .missingValue
  | key, _ => .error (.unknownOption key)

def apply (o : Options) (e : Entry) : Except DecodeError Options :=
  (o.set e.key e.value).mapError (.parameter e.text)

/-- The options that result from a parameter; the first entry that is refused is the error. -/
def withParameter (o : Options) (parameter : String) : Except DecodeError Options :=
  (entries parameter).foldlM apply o

end Options

end SchemaBridge.Plugin
