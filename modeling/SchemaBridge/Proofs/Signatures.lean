import SchemaBridge.Proofs.Skeletons

/-!
# Signatures

The signature of a file is what it declares without comments, default values, bounds and constants
(`Schema.signature`). References are resolved in a file as in its signature (`Schema.resolve_signature`),
and a table says of the signatures what it says of the files (`SymbolTable.ofFiles_signature`).
-/

namespace SchemaBridge

/-- A field without its comments, its default value and its bounds. -/
def Field.signature (f : Field) : Field := { f with default := none, bounds := [], comments := [] }

namespace Message

mutual

/-- A message with nothing but the names, types and ordinals that are declared in it. -/
def signature : Message → Message
  | ⟨name, fields, nested, enums, _, _⟩ =>
    { name
      fields := fields.map Field.signature
      nested := signatures nested
      enums := enums.map EnumDef.bare }

def signatures : List Message → List Message
  | [] => []
  | m :: ms => signature m :: signatures ms

end

theorem signatures_eq_map (ms : List Message) : signatures ms = ms.map signature := by
  induction ms with
  | nil => rfl
  | cons m ms ih => rw [signatures, ih, List.map_cons]

variable {m : Message}

@[simp] theorem name_signature : m.signature.name = m.name := by
  cases m
  rfl

@[simp] theorem fields_signature : m.signature.fields = m.fields.map Field.signature := by
  cases m
  rfl

@[simp] theorem enums_signature : m.signature.enums = m.enums.map EnumDef.bare := by
  cases m
  rfl

@[simp] theorem constants_signature : m.signature.constants = [] := by
  cases m
  rfl

@[simp] theorem comments_signature : m.signature.comments = [] := by
  cases m
  rfl

end Message

/-- A file with the signatures of its messages, and with its enums without comments. -/
def Schema.signature (s : Schema) : Schema :=
  { s with messages := s.messages.map Message.signature, enums := s.enums.map EnumDef.bare }

variable {t : SymbolTable} {dialect : Dialect} {file : String}

/-! ## References -/

theorem Field.resolve_signature (enclosing : TypeName) (f : Field) :
    f.signature.resolve t dialect file enclosing =
      (f.resolve t dialect file enclosing).map Field.signature := by
  obtain ⟨name, type, _, _, _, _, _, _⟩ := f
  cases type with
  | named spelling =>
    simp only [Field.resolve, Field.signature]
    cases Site.resolve t ⟨file, enclosing, name⟩ dialect spelling <;> rfl
  | scalar k => rfl
  | message n => rfl
  | enum n => rfl
  | wellKnown w => rfl

mutual

theorem Message.resolve_signature : ∀ (scope : TypeName) (m : Message),
    m.signature.resolve t dialect file scope = (m.resolve t dialect file scope).map signature
  | scope, ⟨name, fields, nested, enums, constants, comments⟩ => by
    simp only [signature, resolve, mapM_map_eq (Field.resolve_signature (scope.child name)),
      resolveAll_signatures (scope.child name) nested, bind_map_eq, map_bind_eq]
    rfl

theorem Message.resolveAll_signatures : ∀ (scope : TypeName) (ms : List Message),
    resolveAll t dialect file scope (signatures ms) =
      (resolveAll t dialect file scope ms).map signatures
  | _, [] => rfl
  | scope, m :: ms => by
    simp only [signatures, resolveAll, resolve_signature scope m, resolveAll_signatures scope ms,
      bind_map_eq, map_bind_eq]
    rfl

end

/-- The references of a file are those of its signature. -/
theorem Schema.resolve_signature (s : Schema) :
    s.signature.resolve t = (s.resolve t).map Schema.signature := by
  have hmessages : Message.resolveAll t s.dialect s.name (.root s.package)
        (Message.signatures s.messages) =
      (Message.resolveAll t s.dialect s.name (.root s.package) s.messages).map Message.signatures :=
    Message.resolveAll_signatures _ _
  rw [Message.signatures_eq_map] at hmessages
  simp only [Schema.resolve, Schema.signature, hmessages, bind_map_eq, map_bind_eq,
    Message.signatures_eq_map]
  rfl

/-! ## Tables -/

mutual

theorem Message.flatten_signature : ∀ (scope : TypeName) (m : Message),
    m.signature.flatten scope = (m.flatten scope).map fun p => (p.1, p.2.signature)
  | scope, ⟨name, fields, nested, enums, constants, comments⟩ => by
    simp only [signature, flatten, List.map_cons, flattenAll_signatures (scope.child name) nested]

theorem Message.flattenAll_signatures : ∀ (scope : TypeName) (ms : List Message),
    flattenAll scope (signatures ms) = (flattenAll scope ms).map fun p => (p.1, p.2.signature)
  | _, [] => rfl
  | scope, m :: ms => by
    simp only [signatures, flattenAll, List.map_append, flatten_signature scope m,
      flattenAll_signatures scope ms]

end

theorem Schema.flatten_signature (s : Schema) :
    s.signature.flatten = s.flatten.map fun p => (p.1, p.2.signature) := by
  rw [flatten, flatten, signature, ← Message.signatures_eq_map]
  exact Message.flattenAll_signatures _ s.messages

theorem Schema.namedEnums_signature (s : Schema) :
    s.signature.namedEnums = s.namedEnums.map bareEnum := by
  simp only [namedEnums, flatten_signature, List.map_append, List.flatMap_map, List.map_flatMap,
    Message.namedEnums, Message.enums_signature, List.map_map]
  simp only [signature, List.map_map]
  rfl

theorem Schema.symbols_signature (s : Schema) : s.signature.symbols = s.symbols.map Symbol.bare := by
  simp only [symbols, namedEnums_signature, flatten_signature, List.map_append, List.map_map]
  rfl

/-- The table of some signatures is that of the files without the comments of enums. -/
theorem SymbolTable.ofFiles_signature (files : List Schema) :
    ofFiles (files.map Schema.signature) = (ofFiles files).bare := by
  rw [ofFiles_eq, ofFiles_eq, bare, List.map_flatMap, List.flatMap_map, List.map_map]
  exact congrArg (SymbolTable.mk · _) (List.flatMap_congr fun s _ => s.symbols_signature)

/-- Files with the same signatures resolve references alike. -/
theorem resolve_eq_of_signatures {files files' : List Schema}
    (h : files.map Schema.signature = files'.map Schema.signature) (s : Schema) :
    s.resolve (.ofFiles files) = s.resolve (.ofFiles files') := by
  rw [← SymbolTable.resolve_bare, ← SymbolTable.ofFiles_signature, h, SymbolTable.ofFiles_signature,
    SymbolTable.resolve_bare]

end SchemaBridge
