import Mathlib.Data.List.Lex
import Mathlib.Data.List.Perm.Basic
import SchemaBridge.Plugin.TypeListing
import SchemaBridge.Proofs.JsonText
import SchemaBridge.Proofs.ReferenceRoundTrip
import SchemaBridge.Proofs.SupportedConstructs

/-!
# Listed types are the types of the symbol table

The listing of a file and the symbol table go through the types of the file each in its own way: the
listing puts the name of a message behind a text, the package of what is nested in it, and the table
keeps packages and paths as lists. What they have to agree on is said without either: a type has an
address, the steps that lead to it from the file (`DeclaredIn`), and addresses have an order.

* `mem_types_iff`, `ordered_types`: `FileDescriptor.types` holds every declared type, in the order of the
  addresses and therefore once.
* `listedTypes_eq`: the listing goes through these types in this order.
* `perm_symbols`: the table of the file's skeleton holds the symbols of these types.
* `listedAs_of_hasType`: a type is listed with the name of its symbol.
* `typeListing_agrees_with_table`: the whole, of the items that the text of the listing spells.
-/

namespace SchemaBridge

open RosText (IsIdentifier)
open Plugin

/-! ## Declared types -/

/-- A step from a file or a message to a type that is declared right in it. -/
inductive TypeStep where
  | enum (index : Nat)
  | message (index : Nat)
deriving DecidableEq

/-- Enums come before messages, and both in the order of their declarations. -/
inductive TypeStep.Before : TypeStep → TypeStep → Prop where
  | enums {i j : Nat} (h : i < j) : Before (.enum i) (.enum j)
  | kinds {i j : Nat} : Before (.enum i) (.message j)
  | messages {i j : Nat} (h : i < j) : Before (.message i) (.message j)

inductive TypeDescriptor where
  | enum (e : EnumDescriptor)
  | message (m : MessageDescriptor)

namespace TypeDescriptor

def name : TypeDescriptor → String
  | .enum e => e.name.getD ""
  | .message m => m.name.getD ""

/-- What a symbol of the type is. -/
def kind : TypeDescriptor → SymbolKind
  | .enum e => .enum e.skeleton
  | .message _ => .message

def listed (package : String) : TypeDescriptor → ListedType
  | .enum e => .enum package e
  | .message m => .message package m

end TypeDescriptor

/-- A type, the steps that lead to it, and the names of the messages around it, outermost first. -/
structure DeclaredType where
  address : List TypeStep
  enclosing : List String
  type : TypeDescriptor

namespace DeclaredType

/-- A type of a message, as a type of what declares the message. -/
def within (index : Nat) (m : MessageDescriptor) (d : DeclaredType) : DeclaredType :=
  ⟨.message index :: d.address, m.name.getD "" :: d.enclosing, d.type⟩

/-- The symbol of a type that is declared in a scope. -/
def symbol (file : String) (scope : TypeName) (d : DeclaredType) : Symbol :=
  ⟨⟨scope.package, scope.path ++ d.enclosing ++ [d.type.name]⟩, file, d.type.kind⟩

/-- The type as it is listed if the package has the given segments. -/
def listed (segments : List String) (d : DeclaredType) : ListedType :=
  d.type.listed (".".intercalate (segments ++ d.enclosing))

/-- The address of the first type is less than that of the second one: a message comes before the types
in it, and those come before the next message. -/
def Precedes (d d' : DeclaredType) : Prop := List.Lex TypeStep.Before d.address d'.address

end DeclaredType

/-- A type is one of these enums or messages, or is declared in one of these messages. -/
inductive DeclaredIn : List EnumDescriptor → List MessageDescriptor → DeclaredType → Prop where
  | enum {enums : List EnumDescriptor} {messages : List MessageDescriptor} {i : Nat}
      {e : EnumDescriptor} (h : enums[i]? = some e) : DeclaredIn enums messages ⟨[.enum i], [], .enum e⟩
  | message {enums : List EnumDescriptor} {messages : List MessageDescriptor} {i : Nat}
      {m : MessageDescriptor} (h : messages[i]? = some m) :
      DeclaredIn enums messages ⟨[.message i], [], .message m⟩
  | nested {enums : List EnumDescriptor} {messages : List MessageDescriptor} {i : Nat}
      {m : MessageDescriptor} {d : DeclaredType} (h : messages[i]? = some m)
      (hd : DeclaredIn m.enums m.nested d) : DeclaredIn enums messages (d.within i m)

/-- The types that are enums. -/
def enumTypes (enums : List EnumDescriptor) : List DeclaredType :=
  enums.mapIdx fun i e => ⟨[.enum i], [], .enum e⟩

namespace MessageDescriptor

mutual

/-- The message at position `index` and the types in it. -/
def types (index : Nat) : MessageDescriptor → List DeclaredType
  | m@⟨_, _, nested, enums, _, _, _, _⟩ =>
    ⟨[.message index], [], .message m⟩ :: (enumTypes enums ++ typesFrom 0 nested).map (·.within index m)

/-- The messages at the positions `index`, … and the types in them. -/
def typesFrom (index : Nat) : List MessageDescriptor → List DeclaredType
  | [] => []
  | m :: ms => types index m ++ typesFrom (index + 1) ms

end

theorem types_eq (index : Nat) (m : MessageDescriptor) :
    m.types index =
      ⟨[.message index], [], .message m⟩ ::
        (enumTypes m.enums ++ typesFrom 0 m.nested).map (·.within index m) := by
  cases m
  rw [types]

end MessageDescriptor

open MessageDescriptor (types typesFrom types_eq)

namespace FileDescriptor

def types (f : FileDescriptor) : List DeclaredType := enumTypes f.enums ++ typesFrom 0 f.messages

def HasType (f : FileDescriptor) (d : DeclaredType) : Prop := DeclaredIn f.enums f.messages d

/-- The symbol that a type of the file has in the table of the file's skeleton. -/
def symbolOf (f : FileDescriptor) (d : DeclaredType) : Symbol :=
  d.symbol f.skeleton.name (.root f.skeleton.package)

/-- The package is empty or is made of identifiers and dots, and all messages have identifiers as names. -/
structure NamedByIdentifiers (f : FileDescriptor) : Prop where
  package : ∃ segments : List String,
    (∀ s ∈ segments, IsIdentifier s.toList) ∧ f.package.getD "" = ".".intercalate segments
  messages : ∀ m, f.HasMessage m → IsIdentifier (m.name.getD "").toList

end FileDescriptor

/-! ## All types and no others -/

section

variable {enums : List EnumDescriptor} {messages : List MessageDescriptor} {m : MessageDescriptor}
  {d : DeclaredType} {index : Nat}

theorem mem_enumTypes_iff :
    d ∈ enumTypes enums ↔ ∃ i e, enums[i]? = some e ∧ d = ⟨[.enum i], [], .enum e⟩ := by
  rw [enumTypes, List.mem_mapIdx]
  constructor
  · rintro ⟨i, hi, rfl⟩
    exact ⟨i, enums[i], List.getElem?_eq_getElem hi, rfl⟩
  · rintro ⟨i, e, he, rfl⟩
    obtain ⟨hi, rfl⟩ := List.getElem?_eq_some_iff.1 he
    exact ⟨i, hi, rfl⟩

theorem mem_typesFrom_iff :
    d ∈ typesFrom index messages ↔
      ∃ (i : Nat) (m : MessageDescriptor), messages[i]? = some m ∧ d ∈ m.types (index + i) := by
  induction messages generalizing index with
  | nil => simp [typesFrom]
  | cons m ms ih =>
    rw [typesFrom, List.mem_append, ih]
    constructor
    · rintro (hd | ⟨i, n, hn, hd⟩)
      · exact ⟨0, m, rfl, hd⟩
      · exact ⟨i + 1, n, hn, by rwa [Nat.add_comm i, ← Nat.add_assoc]⟩
    · rintro ⟨i, n, hn, hd⟩
      cases i with
      | zero =>
        obtain rfl : m = n := by simpa using hn
        exact .inl hd
      | succ i => exact .inr ⟨i, n, by simpa using hn, by rwa [Nat.add_assoc, Nat.add_comm 1]⟩

theorem MessageDescriptor.mem_types_iff :
    d ∈ m.types index ↔
      d = ⟨[.message index], [], .message m⟩ ∨
        ∃ d' ∈ enumTypes m.enums ++ typesFrom 0 m.nested, d'.within index m = d := by
  rw [types_eq, List.mem_cons, List.mem_map]

theorem DeclaredIn.mem (h : DeclaredIn enums messages d) : d ∈ enumTypes enums ++ typesFrom 0 messages := by
  induction h with
  | enum h => exact List.mem_append_left _ (mem_enumTypes_iff.2 ⟨_, _, h, rfl⟩)
  | @message _ _ i m h =>
    refine List.mem_append_right _ (mem_typesFrom_iff.2 ⟨i, m, h, ?_⟩)
    rw [Nat.zero_add]
    exact MessageDescriptor.mem_types_iff.2 (.inl rfl)
  | @nested _ _ i m d h _ ih =>
    refine List.mem_append_right _ (mem_typesFrom_iff.2 ⟨i, m, h, ?_⟩)
    rw [Nat.zero_add]
    exact MessageDescriptor.mem_types_iff.2 (.inr ⟨d, ih, rfl⟩)

mutual

/-- What is found in a message is declared by what declares the message. -/
theorem declaredIn_of_mem_types : ∀ (m : MessageDescriptor) {enums : List EnumDescriptor}
    {messages : List MessageDescriptor} {i : Nat} {d : DeclaredType},
    messages[i]? = some m → d ∈ m.types i → DeclaredIn enums messages d
  | ⟨_, _, nested, enums', _, _, _, _⟩, _, _, _, _, hm, hd => by
    obtain rfl | ⟨d', hd', rfl⟩ := MessageDescriptor.mem_types_iff.1 hd
    · exact .message hm
    · refine .nested hm ?_
      rcases List.mem_append.1 hd' with hd' | hd'
      · obtain ⟨i, e, he, rfl⟩ := mem_enumTypes_iff.1 hd'
        exact .enum he
      · obtain ⟨i, n, hn, hd'⟩ := mem_typesFrom_iff.1 hd'
        rw [Nat.zero_add] at hd'
        exact declaredIn_of_mem_typesFrom nested n (List.mem_of_getElem? hn) hn hd'

theorem declaredIn_of_mem_typesFrom : ∀ (ms : List MessageDescriptor), ∀ m ∈ ms,
    ∀ {enums : List EnumDescriptor} {messages : List MessageDescriptor} {i : Nat} {d : DeclaredType},
    messages[i]? = some m → d ∈ m.types i → DeclaredIn enums messages d
  | [], _, hmem, _, _, _, _, _, _ => nomatch hmem
  | m :: ms, n, hmem, _, _, _, _, hn, hd => by
    rcases List.mem_cons.1 hmem with heq | hmem
    · exact declaredIn_of_mem_types m (heq ▸ hn) (heq ▸ hd)
    · exact declaredIn_of_mem_typesFrom ms n hmem hn hd

end

theorem mem_append_iff_declaredIn :
    d ∈ enumTypes enums ++ typesFrom 0 messages ↔ DeclaredIn enums messages d := by
  refine ⟨fun hd => ?_, DeclaredIn.mem⟩
  rcases List.mem_append.1 hd with hd | hd
  · obtain ⟨i, e, he, rfl⟩ := mem_enumTypes_iff.1 hd
    exact .enum he
  · obtain ⟨i, m, hm, hd⟩ := mem_typesFrom_iff.1 hd
    rw [Nat.zero_add] at hd
    exact declaredIn_of_mem_types m hm hd

/-! ## The order of the types -/

theorem exists_address_of_mem_types (h : d ∈ m.types index) :
    ∃ rest, d.address = .message index :: rest := by
  obtain rfl | ⟨d', -, rfl⟩ := MessageDescriptor.mem_types_iff.1 h
  · exact ⟨[], rfl⟩
  · exact ⟨d'.address, rfl⟩

theorem exists_address_of_mem_typesFrom (h : d ∈ typesFrom index messages) :
    ∃ i rest, index ≤ i ∧ d.address = .message i :: rest := by
  obtain ⟨i, m, -, hd⟩ := mem_typesFrom_iff.1 h
  obtain ⟨rest, hrest⟩ := exists_address_of_mem_types hd
  exact ⟨index + i, rest, Nat.le_add_right .., hrest⟩

theorem address_ne_nil (h : d ∈ enumTypes enums ++ typesFrom 0 messages) : d.address ≠ [] := by
  rcases List.mem_append.1 h with h | h
  · obtain ⟨i, e, -, rfl⟩ := mem_enumTypes_iff.1 h
    exact List.cons_ne_nil _ _
  · obtain ⟨i, rest, -, hrest⟩ := exists_address_of_mem_typesFrom h
    exact hrest ▸ List.cons_ne_nil _ _

theorem ordered_enumTypes (enums : List EnumDescriptor) :
    (enumTypes enums).Pairwise DeclaredType.Precedes := by
  rw [List.pairwise_iff_getElem]
  intro i j hi hj hij
  simp only [enumTypes, List.getElem_mapIdx]
  exact .rel (.enums hij)

theorem ordered_append (h : (typesFrom 0 messages).Pairwise DeclaredType.Precedes) :
    (enumTypes enums ++ typesFrom 0 messages).Pairwise DeclaredType.Precedes := by
  refine List.pairwise_append.2 ⟨ordered_enumTypes enums, h, fun d hd d' hd' => ?_⟩
  obtain ⟨i, e, -, rfl⟩ := mem_enumTypes_iff.1 hd
  obtain ⟨j, rest, -, hrest⟩ := exists_address_of_mem_typesFrom hd'
  rw [DeclaredType.Precedes, hrest]
  exact .rel .kinds

mutual

theorem ordered_types : ∀ (m : MessageDescriptor) (index : Nat),
    (m.types index).Pairwise DeclaredType.Precedes
  | ⟨_, _, nested, _, _, _, _, _⟩, index => by
    rw [types_eq, List.pairwise_cons, List.pairwise_map]
    constructor
    · intro d hd
      obtain ⟨d', hd', rfl⟩ := List.mem_map.1 hd
      -- the address of the message is the beginning of every address in it
      obtain ⟨step, rest, hrest⟩ := List.exists_cons_of_ne_nil (address_ne_nil hd')
      rw [DeclaredType.Precedes, DeclaredType.within, hrest]
      exact .cons .nil
    · exact (ordered_append (ordered_typesFrom nested 0)).imp .cons

theorem ordered_typesFrom : ∀ (ms : List MessageDescriptor) (index : Nat),
    (typesFrom index ms).Pairwise DeclaredType.Precedes
  | [], _ => .nil
  | m :: ms, index => by
    rw [typesFrom]
    refine List.pairwise_append.2
      ⟨ordered_types m index, ordered_typesFrom ms (index + 1), fun d hd d' hd' => ?_⟩
    obtain ⟨rest, hrest⟩ := exists_address_of_mem_types hd
    obtain ⟨i, rest', hi, hrest'⟩ := exists_address_of_mem_typesFrom hd'
    rw [DeclaredType.Precedes, hrest, hrest']
    exact .rel (.messages hi)

end

end

theorem TypeStep.Before.ne {s s' : TypeStep} (h : s.Before s') : s ≠ s' := by
  cases h with
  | enums h | messages h => simpa using h.ne
  | kinds => simp

theorem DeclaredType.Precedes.ne {d d' : DeclaredType} (h : d.Precedes d') : d.address ≠ d'.address :=
  List.Lex.to_ne (List.Lex.imp (fun _ _ h => h.ne) _ _ h)

namespace FileDescriptor

variable {f : FileDescriptor}

theorem mem_types_iff {d : DeclaredType} : d ∈ f.types ↔ f.HasType d := mem_append_iff_declaredIn

theorem ordered_types (f : FileDescriptor) : f.types.Pairwise DeclaredType.Precedes :=
  ordered_append (ordered_typesFrom f.messages 0)

theorem nodup_types (f : FileDescriptor) : (f.types.map (·.address)).Nodup :=
  List.pairwise_map.2 (f.ordered_types.imp DeclaredType.Precedes.ne)

end FileDescriptor

/-! ## The listing goes through the types -/

section

variable {segments : List String} {name : String} {m : MessageDescriptor} {index : Nat}

theorem intercalate_ne_empty (hs : ∀ s ∈ segments, s ≠ "") (hne : segments ≠ []) :
    ".".intercalate segments ≠ "" := by
  obtain ⟨s, rest, rfl⟩ := List.exists_cons_of_ne_nil hne
  obtain ⟨hs, -⟩ := List.forall_mem_cons.1 hs
  cases rest with
  | nil => simpa using hs
  | cons s' rest => simp [String.intercalate_cons_cons]

theorem innerPackage_intercalate (hs : ∀ s ∈ segments, s ≠ "") :
    innerPackage (".".intercalate segments) name = ".".intercalate (segments ++ [name]) := by
  by_cases hne : segments = []
  · simp [hne, innerPackage]
  · have hempty : (".".intercalate segments).isEmpty = false := by
      simpa using intercalate_ne_empty hs hne
    rw [innerPackage, hempty, String.intercalate_append_of_ne_nil hne (by simp),
      String.intercalate_singleton]
    rfl

theorem listed_within (d : DeclaredType) :
    (d.within index m).listed segments = d.listed (segments ++ [m.name.getD ""]) := by
  rw [DeclaredType.listed, DeclaredType.listed, DeclaredType.within, List.append_assoc,
    List.singleton_append]

theorem map_listed_enumTypes (enums : List EnumDescriptor) :
    (enumTypes enums).map (·.listed segments) = enums.map (.enum (".".intercalate segments)) := by
  refine List.ext_getElem (by simp [enumTypes]) fun i _ _ => ?_
  simp [enumTypes, DeclaredType.listed, TypeDescriptor.listed]

mutual

theorem listMessage_eq : ∀ (m : MessageDescriptor) (index : Nat) {segments : List String},
    (∀ s ∈ segments, s ≠ "") → (∀ inner : MessageDescriptor, inner.Within m → inner.name.getD "" ≠ "") →
      listMessage (".".intercalate segments) m = (m.types index).map (·.listed segments)
  | ⟨name, fields, nested, enums, _, _, _, _⟩, index, segments, hs, hm => by
    have hinner : ∀ s ∈ segments ++ [name.getD ""], s ≠ "" := by
      simpa [or_imp, forall_and] using And.intro hs (hm _ (.self _))
    have hnested := listMessages_eq nested 0 hinner fun n hn inner h => hm inner (.nested hn h)
    rw [listMessage, types_eq, List.map_cons, List.map_map, innerPackage_intercalate hs, hnested]
    simp only [Function.comp_def, listed_within, List.map_append, map_listed_enumTypes]
    simp [DeclaredType.listed, TypeDescriptor.listed]

theorem listMessages_eq : ∀ (ms : List MessageDescriptor) (index : Nat) {segments : List String},
    (∀ s ∈ segments, s ≠ "") →
      (∀ m ∈ ms, ∀ inner : MessageDescriptor, inner.Within m → inner.name.getD "" ≠ "") →
        listMessages (".".intercalate segments) ms = (typesFrom index ms).map (·.listed segments)
  | [], _, _, _, _ => by rw [listMessages, typesFrom, List.map_nil]
  | m :: ms, index, _, hs, hms => by
    obtain ⟨hm, hms⟩ := List.forall_mem_cons.1 hms
    rw [listMessages, typesFrom, List.map_append, listMessage_eq m index hs hm,
      listMessages_eq ms (index + 1) hs hms]

end

end

theorem name_ne_empty_of_isIdentifier {name : String} (h : IsIdentifier name.toList) : name ≠ "" :=
  (isSegment_of_isIdentifier h).1

/-- The listing has the types of the file, each in the package that its enclosing messages tell. -/
theorem listedTypes_eq {f : FileDescriptor} {segments : List String}
    (hsegments : ∀ s ∈ segments, IsIdentifier s.toList)
    (hpackage : f.package.getD "" = ".".intercalate segments)
    (hmessages : ∀ m, f.HasMessage m → IsIdentifier (m.name.getD "").toList) :
    listedTypes f = f.types.map (·.listed segments) := by
  have hsegments' : ∀ s ∈ segments, s ≠ "" := fun s hs => name_ne_empty_of_isIdentifier (hsegments s hs)
  have hlisted := listMessages_eq f.messages 0 hsegments' fun top htop m hm =>
    name_ne_empty_of_isIdentifier (hmessages m ⟨top, htop, hm⟩)
  rw [listedTypes, FileDescriptor.types, List.map_append, map_listed_enumTypes, hpackage, hlisted]

/-! ## The table holds the symbols of the types -/

/-- The symbols of a message and of the enums that are nested right in it. -/
def symbolsOf (file : String) (p : TypeName × Message) : List Symbol :=
  ⟨p.1, file, .message⟩ :: (p.2.namedEnums p.1).map fun q => ⟨q.1, file, .enum q.2⟩

section

variable {file : String} {scope : TypeName} {m : MessageDescriptor} {index : Nat}

theorem symbol_within (d : DeclaredType) :
    (d.within index m).symbol file scope = d.symbol file (scope.child (m.name.getD "")) := by
  simp [DeclaredType.symbol, DeclaredType.within, TypeName.child]

theorem map_symbol_enumTypes (file : String) (scope : TypeName) (enums : List EnumDescriptor) :
    (enumTypes enums).map (·.symbol file scope) =
      (enums.map EnumDescriptor.skeleton).map fun e => ⟨scope.child e.name, file, .enum e⟩ := by
  refine List.ext_getElem (by simp [enumTypes]) fun i _ _ => ?_
  simp [enumTypes, DeclaredType.symbol, TypeDescriptor.name, TypeDescriptor.kind, TypeName.child,
    EnumDescriptor.skeleton]

mutual

theorem map_symbol_types (file : String) : ∀ (m : MessageDescriptor) (index : Nat) (scope : TypeName),
    (m.types index).map (·.symbol file scope) = (m.skeleton.flatten scope).flatMap (symbolsOf file)
  | ⟨name, _, nested, enums, _, _, _, _⟩, index, scope => by
    have hnested := map_symbol_typesFrom file nested 0 (scope.child (name.getD ""))
    rw [types_eq, List.map_cons, List.map_map, MessageDescriptor.skeleton, Message.flatten,
      List.flatMap_cons, ← hnested]
    simp only [Function.comp_def, symbol_within, List.map_append, map_symbol_enumTypes, symbolsOf,
      Message.namedEnums, List.map_map, List.cons_append]
    simp [DeclaredType.symbol, TypeDescriptor.name, TypeDescriptor.kind, TypeName.child]

theorem map_symbol_typesFrom (file : String) : ∀ (ms : List MessageDescriptor) (index : Nat) (scope : TypeName),
    (typesFrom index ms).map (·.symbol file scope) =
      (Message.flattenAll scope (MessageDescriptor.skeletons ms)).flatMap (symbolsOf file)
  | [], _, _ => by rw [typesFrom, MessageDescriptor.skeletons, Message.flattenAll, List.map_nil,
      List.flatMap_nil]
  | m :: ms, index, scope => by
    rw [typesFrom, MessageDescriptor.skeletons, Message.flattenAll, List.map_append, List.flatMap_append,
      map_symbol_types file m index scope, map_symbol_typesFrom file ms (index + 1) scope]

end

end

/-- A schema has the symbols of its outermost enums and those of its messages and the enums in them. -/
theorem Schema.perm_symbols (s : Schema) :
    ((s.enums.map fun e => (⟨(TypeName.root s.package).child e.name, s.name, .enum e⟩ : Symbol)) ++
      s.flatten.flatMap (symbolsOf s.name)).Perm s.symbols := by
  have hsplit := List.map_append_flatMap_perm s.flatten
    (fun p : TypeName × Message => (⟨p.1, s.name, .message⟩ : Symbol))
    fun p => (p.2.namedEnums p.1).map fun q => (⟨q.1, s.name, .enum q.2⟩ : Symbol)
  rw [Schema.symbols, Schema.namedEnums, List.map_append, List.map_map, List.map_flatMap, List.append_assoc]
  exact (hsplit.symm.trans List.perm_append_comm).append_left _

theorem FileDescriptor.perm_symbols (f : FileDescriptor) :
    (f.types.map f.symbolOf).Perm (SymbolTable.ofFiles [f.skeleton]).symbols := by
  have houtermost := map_symbol_enumTypes f.skeleton.name (.root f.skeleton.package) f.enums
  have hmessages := map_symbol_typesFrom f.skeleton.name f.messages 0 (.root f.skeleton.package)
  have hsymbols : (SymbolTable.ofFiles [f.skeleton]).symbols = f.skeleton.symbols := by
    simp [SymbolTable.ofFiles_eq]
  rw [hsymbols, FileDescriptor.types, List.map_append]
  refine .trans (.of_eq ?_) f.skeleton.perm_symbols
  exact congrArg₂ (· ++ ·) houtermost hmessages

/-! ## The members of a listed type -/

namespace Json

/-- The value of a member of an object. -/
def member? (key : String) : Json → Option Json
  | .object members => members.lookup key
  | _ => none

/-- The full name of a listed type: its package and its name, or its name alone in the root package. -/
def listedName? (item : Json) : Option String :=
  match item.member? "package", item.member? "name" with
  | some (.text package), some (.text name) =>
    some (if package = "<root>" then name else package ++ "." ++ name)
  | _, _ => none

end Json

/-- The kind of a symbol, as a listed type spells it. -/
def SymbolKind.text : SymbolKind → String
  | .message => "Message"
  | .enum _ => "Enum"

/-- The item lists the type: it has what a listed type has, the name of the type's symbol, and its kind. -/
structure FileDescriptor.ListedAs (f : FileDescriptor) (d : DeclaredType) (item : Json) : Prop where
  members : ∃ package, item = listedJson (f.name.getD "") (d.type.listed package)
  name : item.listedName? = some (f.symbolOf d).name.qualified
  kind : item.member? "type" = some (.text (f.symbolOf d).kind.text)

section

variable {file : String} {t : ListedType}

theorem member?_type_listedJson (d : TypeDescriptor) (package : String) :
    (listedJson file (d.listed package)).member? "type" = some (.text d.kind.text) := by
  cases d <;> rfl

theorem listedName?_listedJson :
    (listedJson file t).listedName? =
      some (if packageText t.package = "<root>" then t.name else packageText t.package ++ "." ++ t.name) := rfl

theorem package_listed (d : TypeDescriptor) (package : String) : (d.listed package).package = package := by
  cases d <;> rfl

theorem name_listed (d : TypeDescriptor) (package : String) : (d.listed package).name = d.name := by
  cases d <;> rfl

end

section

variable {segments : List String} {name : String}

/-- Dots and identifiers do not spell the root package. -/
theorem intercalate_ne_root (hs : ∀ s ∈ segments, IsIdentifier s.toList) :
    ".".intercalate segments ≠ "<root>" := by
  intro heq
  have hsegments := flatMap_packageSegments fun s h => isSegment_of_isIdentifier (hs s h)
  have hroot : packageSegments "<root>" = ["<root>"] := by decide +kernel
  rw [← heq, packageSegments_intercalate, hsegments, heq] at hroot
  exact absurd (hs "<root>" (by simp [hroot])) (by decide)

theorem listedName?_eq (hs : ∀ s ∈ segments, IsIdentifier s.toList) (file : String) (d : TypeDescriptor) :
    (listedJson file (d.listed (".".intercalate segments))).listedName? =
      some (".".intercalate (segments ++ [d.name])) := by
  rw [listedName?_listedJson, package_listed, name_listed, packageText]
  by_cases hne : segments = []
  · simp [hne]
  · have hempty : (".".intercalate segments).isEmpty = false := by
      simpa using intercalate_ne_empty (fun s h => name_ne_empty_of_isIdentifier (hs s h)) hne
    rw [hempty, if_neg (by decide : ¬ false = true), if_neg (intercalate_ne_root hs),
      String.intercalate_append_of_ne_nil hne (by simp), String.intercalate_singleton]

end

/-- The messages around a type have identifiers as names if all messages have. -/
theorem DeclaredIn.isIdentifier_enclosing {enums : List EnumDescriptor} {messages : List MessageDescriptor}
    {d : DeclaredType} (h : DeclaredIn enums messages d)
    (hmessages : ∀ top ∈ messages, ∀ m : MessageDescriptor, m.Within top →
      IsIdentifier (m.name.getD "").toList) :
    ∀ s ∈ d.enclosing, IsIdentifier s.toList := by
  induction h with
  | enum | message => exact fun s hs => nomatch hs
  | nested h _ ih =>
    have hm := hmessages _ (List.mem_of_getElem? h)
    refine List.forall_mem_cons.2 ⟨hm _ (.self _), ih fun n hn inner hinner => hm inner (.nested hn hinner)⟩

section

variable {f : FileDescriptor} {segments : List String}

theorem qualified_symbolOf (hsegments : ∀ s ∈ segments, IsIdentifier s.toList)
    (hpackage : f.package.getD "" = ".".intercalate segments) (d : DeclaredType) :
    (f.symbolOf d).name.qualified = ".".intercalate (segments ++ d.enclosing ++ [d.type.name]) := by
  have hskeleton : f.skeleton.package = segments := by
    have hflat := flatMap_packageSegments fun s h => isSegment_of_isIdentifier (hsegments s h)
    rw [← hflat, ← packageSegments_intercalate, ← hpackage]
    rfl
  simp [FileDescriptor.symbolOf, DeclaredType.symbol, TypeName.qualified, TypeName.root, hskeleton]

theorem listedAs_of_hasType (hsegments : ∀ s ∈ segments, IsIdentifier s.toList)
    (hpackage : f.package.getD "" = ".".intercalate segments)
    (hmessages : ∀ m, f.HasMessage m → IsIdentifier (m.name.getD "").toList) {d : DeclaredType}
    (hd : f.HasType d) : f.ListedAs d (listedJson (f.name.getD "") (d.listed segments)) where
  members := ⟨_, rfl⟩
  name := by
    have henclosing := hd.isIdentifier_enclosing fun top htop m hm => hmessages m ⟨top, htop, hm⟩
    have hall : ∀ s ∈ segments ++ d.enclosing, IsIdentifier s.toList := by
      simpa [or_imp, forall_and] using And.intro hsegments henclosing
    rw [qualified_symbolOf hsegments hpackage, DeclaredType.listed, listedName?_eq hall]
  kind := member?_type_listedJson d.type _

end

/-! ## The listing and the table -/

/-- What a listed type tells of its symbol. -/
def Json.signature (item : Json) : Option String × Option Json := (item.listedName?, item.member? "type")

/-- What a symbol's listed type tells of it. -/
def Symbol.signature (s : Symbol) : Option String × Option Json :=
  (some s.name.qualified, some (.text s.kind.text))

/-- The items list the types of the file: every one in the place that its address gives it, and each under
the name that the table of the file's skeleton has for it. -/
structure FileDescriptor.ListsTypes (f : FileDescriptor) (types : List DeclaredType)
    (items : List Json) : Prop where
  complete : ∀ d, d ∈ types ↔ f.HasType d
  ordered : types.Pairwise DeclaredType.Precedes
  distinct : (types.map (·.address)).Nodup
  listed : List.Forall₂ f.ListedAs types items
  symbols : (types.map f.symbolOf).Perm (SymbolTable.ofFiles [f.skeleton]).symbols
  signatures : (items.map Json.signature).Perm
    ((SymbolTable.ofFiles [f.skeleton]).symbols.map Symbol.signature)

theorem map_signature_of_listedAs {f : FileDescriptor} {types : List DeclaredType} {items : List Json}
    (h : List.Forall₂ f.ListedAs types items) :
    items.map Json.signature = (types.map f.symbolOf).map Symbol.signature := by
  rw [List.map_map]
  refine map_eq_of_forall₂ (h.imp fun d item hitem => ?_)
  rw [Json.signature, hitem.name, hitem.kind]
  rfl

/-- A file whose package and messages are named by identifiers is listed in one output file. The text of
this file is JSON for a list and for nothing else, and the list has one item for each enum and message of
every depth: the outermost enums first, and then each message, its enums, and the messages in it with
theirs. The names and kinds of the items are those of the symbols of the file's skeleton. The names of
enums may be anything. -/
theorem Plugin.typeListing_agrees_with_table {f : FileDescriptor} (h : f.NamedByIdentifiers)
    (context : Context) :
    ∃ text types items,
      typeListing context f = .ok [⟨f.name.getD "" ++ ".json", text⟩] ∧
        (∀ json : Json, json.SpelledBy text ↔ json = .array items) ∧ f.ListsTypes types items := by
  obtain ⟨⟨segments, hsegments, hpackage⟩, hmessages⟩ := h
  have hlisted : List.Forall₂ f.ListedAs f.types
      (f.types.map fun d => listedJson (f.name.getD "") (d.listed segments)) :=
    List.forall₂_map_right_iff.2 <| List.forall₂_same.2 fun d hd =>
      listedAs_of_hasType hsegments hpackage hmessages (FileDescriptor.mem_types_iff.1 hd)
  refine ⟨_, f.types, f.types.map fun d => listedJson (f.name.getD "") (d.listed segments), ?_,
    fun json => Json.spelledBy_render_iff, ?_⟩
  · rw [typeListing, listedTypes_eq hsegments hpackage hmessages, List.map_map]
    rfl
  · exact
      { complete := fun d => FileDescriptor.mem_types_iff
        ordered := f.ordered_types
        distinct := f.nodup_types
        listed := hlisted
        symbols := f.perm_symbols
        signatures := map_signature_of_listedAs hlisted ▸ f.perm_symbols.map Symbol.signature }

/-- A file of the root package with an enum, and with an enum in a message in a message. -/
def houseFile : FileDescriptor :=
  { name := some "house.proto"
    messages :=
      [{ name := some "House"
         nested := [{ name := some "Room", enums := [{ name := some "Use" }] }] }]
    enums := [{ name := some "Season" }] }

theorem Plugin.typeListing_agrees_with_table_houseFile :
    houseFile.NamedByIdentifiers ∧
      ((listedTypes houseFile).map fun t => (listedJson "house.proto" t).listedName?) =
        [some "Season", some "House", some "House.Room", some "House.Room.Use"] ∧
      ∃ text types items,
        typeListing ⟨.ofFiles [houseFile.skeleton], {}⟩ houseFile = .ok [⟨"house.proto.json", text⟩] ∧
          (∀ json : Json, json.SpelledBy text ↔ json = .array items) ∧
          houseFile.ListsTypes types items := by
  have hnamed : houseFile.NamedByIdentifiers := by
    refine ⟨⟨[], by simp, rfl⟩, ?_⟩
    rintro m ⟨top, htop, hm⟩
    obtain rfl := List.mem_singleton.1 htop
    cases hm with
    | self => decide
    | nested hmem hm =>
      obtain rfl := List.mem_singleton.1 hmem
      cases hm with
      | self => decide
      | nested hmem => nomatch hmem
  exact ⟨hnamed, by decide +kernel, typeListing_agrees_with_table hnamed _⟩

end SchemaBridge
