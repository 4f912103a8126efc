import SchemaBridge.Wire.Token

/-!
# Records

A record is the list of its known fields in the order in which they arrive; which fields are known,
and of what kind, depends on the kind of record. `encode` writes a record and `decode?` reads one.

* A known field whose payload does not fit its kind makes the bytes malformed; an unknown field is
  skipped, a group with all it holds.
* Nesting is limited by a budget: a record inside a record, and an unknown field, need some budget
  left, and what is inside a record or a group has one less.

Of a field that occurs more than once the views give the last value (`text?`, `varint?`), all values
(`texts`, `varints`, `records`), or the parts of one record put together (`record?`).
-/

namespace SchemaBridge.Wire

/-- The kinds of fields of a record; `κ` are the kinds of records. -/
inductive FieldKind (κ : Type) where
  | varint
  /-- A list of numbers, one by one or packed. -/
  | varints
  | text
  | blob
  | fixed64
  | record (kind : κ)
deriving DecidableEq, Inhabited

inductive Item where
  | varint (tag : Nat) (n : UInt64)
  | packed (tag : Nat) (ns : List UInt64)
  | text (tag : Nat) (s : String)
  | blob (tag : Nat) (bytes : List UInt8)
  | fixed64 (tag : Nat) (bytes : List UInt8)
  | record (tag : Nat) (items : List Item)
deriving Inhabited

/-- The known fields of a record in the order of their arrival. -/
abbrev Record := List Item

def Item.tag : Item → Nat
  | .varint tag _ | .packed tag _ | .text tag _ | .blob tag _ | .fixed64 tag _ | .record tag _ => tag

/-! ## Text -/

def textBytes (s : String) : List UInt8 := s.toByteArray.data.toList

/-- The text whose UTF-8 form some bytes are. -/
def textOf? (bs : List UInt8) : Option String := String.fromUTF8? ⟨bs.toArray⟩

/-! ## Writing -/

/-- The key of a field: its tag and its wire type. -/
def writeKey (tag wireType : Nat) : List UInt8 := writeNat (tag * 8 + wireType)

/-- Some bytes with their number in front. -/
def withLength (bs : List UInt8) : List UInt8 := writeNat bs.length ++ bs

mutual

def Item.encode : Item → List UInt8
  | .varint tag n => writeKey tag 0 ++ writeVarint n
  | .packed tag ns => writeKey tag 2 ++ withLength (ns.flatMap writeVarint)
  | .text tag s => writeKey tag 2 ++ withLength (textBytes s)
  | .blob tag bytes => writeKey tag 2 ++ withLength bytes
  | .fixed64 tag bytes => writeKey tag 1 ++ bytes
  | .record tag items => writeKey tag 2 ++ withLength (encode items)

def encode : List Item → List UInt8
  | [] => []
  | item :: items => item.encode ++ encode items

end

/-! ## Reading -/

section

variable {κ : Type}

/-- The known field of a tag with a payload of its kind; `inner` reads the records inside. -/
def readItem? (inner : κ → List UInt8 → Option Record) (tag : Nat) :
    FieldKind κ → Payload → Option Item
  | .varint, .varint n => some (.varint tag n)
  | .varints, .varint n => some (.varint tag n)
  | .varints, .bytes bs => (readVarints? bs).map (.packed tag)
  | .text, .bytes bs => (textOf? bs).map (.text tag)
  | .blob, .bytes bs => some (.blob tag bs)
  | .fixed64, .fixed64 bs => some (.fixed64 tag bs)
  | .record kind, .bytes bs => (inner kind bs).map (.record tag)
  | _, _ => none

/-- The known fields among some tokens. `groups` are the tags of the open groups, the innermost
first; nothing inside them is known. -/
def readItems? (inner : κ → List UInt8 → Option Record) (fields : Nat → Option (FieldKind κ))
    (budget : Nat) : List Nat → List Token → Option Record
  | [], [] => some []
  | _ :: _, [] => none
  | [], ⟨tag, payload⟩ :: tokens =>
    match fields tag with
    | some kind =>
      match readItem? inner tag kind payload with
      | some item => (readItems? inner fields budget [] tokens).map (item :: ·)
      | none => none
    | none =>
      if budget = 0 then none
      else
        match payload with
        | .openGroup => readItems? inner fields budget [tag] tokens
        | .closeGroup => none
        | _ => readItems? inner fields budget [] tokens
  | group :: groups, ⟨tag, payload⟩ :: tokens =>
    match payload with
    | .closeGroup => if tag = group then readItems? inner fields budget groups tokens else none
    | .openGroup =>
      if budget ≤ groups.length + 1 then none
      else readItems? inner fields budget (tag :: group :: groups) tokens
    | _ =>
      if budget ≤ groups.length + 1 then none
      else readItems? inner fields budget (group :: groups) tokens

/-- The record of a kind that some bytes are; `fields` tells the known fields of each kind. -/
def decode? (fields : κ → Nat → Option (FieldKind κ)) : Nat → κ → List UInt8 → Option Record
  | 0, kind, bs => (tokens? bs).bind (readItems? (fun _ _ => none) (fields kind) 0 [])
  | budget + 1, kind, bs =>
    (tokens? bs).bind (readItems? (decode? fields budget) (fields kind) (budget + 1) [])

end

/-! ## Views of a record -/

namespace Record

def texts (tag : Nat) (r : Record) : List String :=
  r.filterMap fun
    | .text t s => if t = tag then some s else none
    | _ => none

def text? (tag : Nat) (r : Record) : Option String := (texts tag r).getLast?

/-- The numbers of a field, packed or not. -/
def varints (tag : Nat) (r : Record) : List UInt64 :=
  r.flatMap fun
    | .varint t n => if t = tag then [n] else []
    | .packed t ns => if t = tag then ns else []
    | _ => []

def varint? (tag : Nat) (r : Record) : Option UInt64 := (varints tag r).getLast?

def int32? (tag : Nat) (r : Record) : Option Int32 := (varint? tag r).map toInt32

def bool? (tag : Nat) (r : Record) : Option Bool := (varint? tag r).map toBool

def records (tag : Nat) (r : Record) : List Record :=
  r.filterMap fun
    | .record t items => if t = tag then some items else none
    | _ => none

/-- The one record of a field; if the field occurs more than once, its parts put together. -/
def record? (tag : Nat) (r : Record) : Option Record :=
  match records tag r with
  | [] => none
  | parts => some parts.flatten

/-- Whether a field other than those of the given tags occurs. -/
def hasOther (tags : List Nat) (r : Record) : Bool := r.any fun item => item.tag ∉ tags

/-! ## Records of values -/

def ofText (tag : Nat) (s : Option String) : Record := (s.map (.text tag)).toList

def ofTexts (tag : Nat) (ss : List String) : Record := ss.map (.text tag)

def ofInt32 (tag : Nat) (i : Option Int32) : Record := (i.map fun i => .varint tag (Wire.ofInt32 i)).toList

def ofBool (tag : Nat) (b : Option Bool) : Record := (b.map fun b => .varint tag (Wire.ofBool b)).toList

/-- 32-bit integers as a packed field. -/
def ofInt32s (tag : Nat) (is : List Int32) : Record :=
  if is.isEmpty then [] else [.packed tag (is.map Wire.ofInt32)]

def ofRecord (tag : Nat) (r : Option Record) : Record := (r.map (.record tag)).toList

def ofRecords (tag : Nat) (rs : List Record) : Record := rs.map (.record tag)

end Record

end SchemaBridge.Wire
