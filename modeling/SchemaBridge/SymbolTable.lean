import SchemaBridge.Distinct
import SchemaBridge.Error
import SchemaBridge.Schema

/-!
# Symbol tables

The types that a batch of files declares, nested ones included, and the packages of the files.

* `lookup` finds a type by its qualified name and fails if more than one type has it.
* `ofFiles_eq`: a table holds the types of all files and nothing else.
* `collisions` tells which messages would be one message if nesting were flattened; there are none if
  all of them have one qualified name (`collisions_eq_none_iff`).
-/

namespace SchemaBridge

/-- A declared type is a message, or an enum with its definition. -/
inductive SymbolKind where
  | message
  | enum (definition : EnumDef)
deriving DecidableEq, Inhabited

structure Symbol where
  name : TypeName
  file : String
  kind : SymbolKind
deriving DecidableEq, Inhabited

def Symbol.enumDef? (s : Symbol) : Option EnumDef :=
  match s.kind with
  | .message => none
  | .enum definition => some definition

/-- The reference that a resolved name becomes. -/
def Symbol.typeRef (s : Symbol) : TypeRef :=
  match s.kind with
  | .message => .message s.name
  | .enum _ => .enum s.name

def Schema.symbols (s : Schema) : List Symbol :=
  (s.namedEnums.map fun (name, e) => ⟨name, s.name, .enum e⟩) ++
    s.flatten.map fun (name, _) => ⟨name, s.name, .message⟩

/-- The types of a batch of files, in the order of the files, and the files' packages. -/
structure SymbolTable where
  symbols : List Symbol := []
  packages : List (List String) := []
deriving DecidableEq, Inhabited

namespace SymbolTable

/-! ## Building -/

def addFile (t : SymbolTable) (s : Schema) : SymbolTable :=
  ⟨t.symbols ++ s.symbols, t.packages ++ [s.package]⟩

def ofFiles (files : List Schema) : SymbolTable := files.foldl addFile {}

theorem foldl_addFile (t : SymbolTable) (files : List Schema) :
    files.foldl addFile t =
      ⟨t.symbols ++ files.flatMap Schema.symbols, t.packages ++ files.map (·.package)⟩ := by
  induction files generalizing t with
  | nil => simp
  | cons s files ih => simp [ih, addFile]

theorem ofFiles_eq (files : List Schema) :
    ofFiles files = ⟨files.flatMap Schema.symbols, files.map (·.package)⟩ := by
  simp [ofFiles, foldl_addFile]

/-! ## Queries -/

def named (t : SymbolTable) (qualified : String) : List Symbol :=
  t.symbols.filter fun s => s.name.qualified = qualified

theorem mem_named {t : SymbolTable} {qualified : String} {s : Symbol} :
    s ∈ t.named qualified ↔ s ∈ t.symbols ∧ s.name.qualified = qualified := by
  simp [named]

/-- The only type of a qualified name; `file`, which refers to it, is for the error. -/
def lookup (t : SymbolTable) (qualified file : String) : Except ConversionError (Option Symbol) :=
  match t.named qualified with
  | [] => .ok none
  | [s] => .ok (some s)
  | many => .error (.ambiguous qualified file (many.map (·.file)))

theorem lookup_eq_some_iff_named {t : SymbolTable} {qualified file : String} {s : Symbol} :
    t.lookup qualified file = .ok (some s) ↔ t.named qualified = [s] := by
  unfold lookup
  split <;> simp_all

/-- The type of the first of several names that names any. -/
def lookupFirst (t : SymbolTable) (file : String) :
    List String → Except ConversionError (Option Symbol)
  | [] => .ok none
  | name :: names =>
    match t.lookup name file with
    | .ok none => t.lookupFirst file names
    | answer => answer

/-- The definition of an enum, if its name is the name of no other type. -/
def enumDef? (t : SymbolTable) (name : TypeName) : Option EnumDef :=
  match t.named name.qualified with
  | [s] => s.enumDef?
  | _ => none

/-- The qualified names of the messages whose flattened name is that of `name`, sorted. -/
def flattenedTo (t : SymbolTable) (name : TypeName) : List String :=
  sortedDistinct <|
    (t.symbols.filter fun s =>
      s.kind = .message ∧ s.name.flat.qualified = name.flat.qualified).map (·.name.qualified)

/-- The messages that share a flattened name, if it is not the name of one message only. -/
def collisions (t : SymbolTable) (name : TypeName) : Option (List String) :=
  let names := t.flattenedTo name
  if 1 < names.length then some names else none

theorem mem_flattenedTo {t : SymbolTable} {name : TypeName} {x : String} :
    x ∈ t.flattenedTo name ↔
      ∃ s ∈ t.symbols, s.kind = .message ∧ s.name.flat.qualified = name.flat.qualified ∧
        s.name.qualified = x := by
  simp [flattenedTo, mem_sortedDistinct, and_assoc]

theorem collisions_eq_none_iff {t : SymbolTable} {name : TypeName} :
    t.collisions name = none ↔ ∀ x ∈ t.flattenedTo name, ∀ y ∈ t.flattenedTo name, x = y := by
  have hlength : t.collisions name = none ↔ (t.flattenedTo name).length ≤ 1 := by
    rw [collisions]
    split
    · next hlt => simp [hlt]
    · next hle => simp [Nat.not_lt.1 hle]
  rw [hlength, flattenedTo, length_sortedDistinct_le_one_iff]
  simp only [mem_sortedDistinct]

def hasPackage (t : SymbolTable) (package : List String) : Bool := t.packages.contains package

def size (t : SymbolTable) : Nat := (t.symbols.map (·.name.qualified)).eraseDups.length

end SymbolTable

end SchemaBridge
