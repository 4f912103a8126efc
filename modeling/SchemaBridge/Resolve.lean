import SchemaBridge.Spelling
import SchemaBridge.SymbolTable

/-!
# Resolving references

`Schema.resolve` replaces every reference that is only spelled by the type it means.

A proto3 reference is, in this order:

* a well-known type, with or without a leading dot; any other name of `google.protobuf` has no
  counterpart;
* with a leading dot, the type of exactly that name;
* otherwise a type of the innermost enclosing scope that declares the name.

A ROS reference is, in this order:

* a well-known type, spelled `pkg/Type` or `pkg/msg/Type`;
* one name: a type of the file's own package, or `std_msgs/Header` if it is `Header`;
* `pkg/Type` or `pkg/msg/Type`: a type of that package. If no file of the batch has that package, the
  type is trusted to exist.

A name that more than one type has is always an error.
-/

namespace SchemaBridge

/-- Where a reference stands: the file, the enclosing message and the field. -/
structure Site where
  file : String
  enclosing : TypeName
  field : String
deriving DecidableEq, Inhabited

/-! ## One reference -/

/-- The absolute names that a relative name may mean in a scope, innermost first. -/
def relativeCandidates (scope : List String) (name : String) : List String :=
  (List.range (scope.length + 1)).reverse.map fun i => ".".intercalate (scope.take i ++ [name])

namespace Site

def unresolved (site : Site) (spelling : String) : ConversionError :=
  .unresolved (withoutDots spelling) site.file site.enclosing.dottedPath site.field

def unsupported (site : Site) (construct : Construct) : ConversionError :=
  .unsupported construct site.file (.field site.enclosing.dottedPath site.field)

/-- The names under which a proto3 reference is looked up. -/
def candidates (site : Site) (spelling : String) : List String :=
  if isAbsolute spelling then [withoutDots spelling]
  else relativeCandidates (site.enclosing.package ++ site.enclosing.path) spelling

def resolveProto (table : SymbolTable) (site : Site) (spelling : String) :
    Except ConversionError TypeRef :=
  match WellKnown.ofProtoName? spelling with
  | some w => .ok (.wellKnown w)
  | none =>
    let bare := withoutDots spelling
    if bare = "google.protobuf.Any" then .error (site.unsupported .any)
    else if isGoogleName bare then .error (site.unsupported (.wellKnown bare))
    else
      match table.lookupFirst site.file (site.candidates spelling) with
      | .ok (some symbol) => .ok symbol.typeRef
      | .ok none => .error (site.unresolved spelling)
      | .error e => .error e

/-- The type that a ROS reference to a type of another package means. -/
def resolveQualified (table : SymbolTable) (site : Site) (spelling package name : String) :
    Except ConversionError TypeRef :=
  match table.lookup (TypeName.mk [package] [name]).qualified site.file with
  | .ok (some symbol) => .ok symbol.typeRef
  | .ok none =>
    if [package] = site.enclosing.package || table.hasPackage [package] then
      .error (site.unresolved spelling)
    else .ok (.message ⟨[package], [name]⟩)
  | .error e => .error e

/-- The type that a ROS reference without a package means. -/
def resolveLocal (table : SymbolTable) (site : Site) (spelling name : String) :
    Except ConversionError TypeRef :=
  match table.lookup (TypeName.mk site.enclosing.package [name]).qualified site.file with
  | .ok (some symbol) => .ok symbol.typeRef
  | .ok none =>
    if name = "Header" then .ok (.message ⟨["std_msgs"], ["Header"]⟩)
    else .error (site.unresolved spelling)
  | .error e => .error e

def shortForm (spelling : String) : String :=
  match slashParts spelling with
  | [package, "msg", name] => package ++ "/" ++ name
  | _ => spelling

def resolveRos (table : SymbolTable) (site : Site) (spelling : String) :
    Except ConversionError TypeRef :=
  match WellKnown.ofRosName? (shortForm spelling) with
  | some w => .ok (.wellKnown w)
  | none =>
    match slashParts spelling with
    | [name] => site.resolveLocal table spelling name
    | [package, name] => site.resolveQualified table spelling package name
    | [package, "msg", name] => site.resolveQualified table spelling package name
    | _ => .error (site.unresolved spelling)

/-- The type that a reference means by the rules of a language. -/
def resolve (table : SymbolTable) (site : Site) : Dialect → String → Except ConversionError TypeRef
  | .proto3, spelling => site.resolveProto table spelling
  | .ros, spelling => site.resolveRos table spelling

end Site

/-! ## Whole files -/

/-- A field with its type resolved. -/
def Field.resolve (table : SymbolTable) (dialect : Dialect) (file : String) (enclosing : TypeName)
    (f : Field) : Except ConversionError Field :=
  match f.type with
  | .named spelling => do
    let type ← Site.resolve table ⟨file, enclosing, f.name⟩ dialect spelling
    pure { f with type := type }
  | _ => pure f

namespace Message

mutual

/-- A message of a scope with the types of all fields resolved, those of nested messages included. -/
def resolve (table : SymbolTable) (dialect : Dialect) (file : String) (scope : TypeName) :
    Message → Except ConversionError Message
  | ⟨name, fields, nested, enums, constants, comments⟩ => do
    let fields ← fields.mapM (Field.resolve table dialect file (scope.child name))
    let nested ← resolveAll table dialect file (scope.child name) nested
    pure ⟨name, fields, nested, enums, constants, comments⟩

def resolveAll (table : SymbolTable) (dialect : Dialect) (file : String) (scope : TypeName) :
    List Message → Except ConversionError (List Message)
  | [] => pure []
  | m :: ms => do
    let m ← resolve table dialect file scope m
    let ms ← resolveAll table dialect file scope ms
    pure (m :: ms)

end

end Message

/-- A schema with the types of all fields resolved; the first reference that fails is the error. -/
def Schema.resolve (table : SymbolTable) (s : Schema) : Except ConversionError Schema := do
  let messages ← Message.resolveAll table s.dialect s.name (.root s.package) s.messages
  pure { s with messages := messages }

end SchemaBridge
