import SchemaBridge.Wire.Record

/-!
# Records are read as they are written

A record conforms to its kind (`Conforms`) if all its fields are known, have payloads of their kinds,
and are nested no deeper than the budget allows. Such a record is read back from its bytes
(`decode?_encode`).

* `readToken?_key`: a key and a payload of its wire type are read as a token.
* `decode?_append`: the first field of some bytes is the first field of the record.
-/

namespace SchemaBridge.Wire

variable {bs content rest : List UInt8} {tag : Nat}

/-! ## Varints -/

theorem readVarint?_writeNat {n : Nat} (h : n < UInt64.size) (rest : List UInt8) :
    readVarint? (writeNat n ++ rest) = some (UInt64.ofNat n, rest) := by
  have := readVarint?_writeVarint (UInt64.ofNat n) rest
  rwa [writeVarint, UInt64.toNat_ofNat_of_lt' h] at this

theorem writeNat_ne_nil (n : Nat) : writeNat n ≠ [] := by
  rw [writeNat]
  split <;> simp

theorem readVarints?_append {n : UInt64} (h : readVarint? bs = some (n, rest)) :
    readVarints? bs = (readVarints? rest).map (n :: ·) := by
  cases bs with
  | nil => cases h
  | cons b bs =>
    rw [readVarints?]
    split
    · next m tail hm =>
      rw [h] at hm
      obtain ⟨rfl, rfl⟩ := by simpa using hm
      rfl
    · next hm =>
      rw [h] at hm
      cases hm

theorem readVarints?_flatMap (ns : List UInt64) : readVarints? (ns.flatMap writeVarint) = some ns := by
  induction ns with
  | nil => rw [List.flatMap_nil, readVarints?]
  | cons n ns ih =>
    rw [List.flatMap_cons, readVarints?_append (readVarint?_writeVarint n _), ih]
    rfl

/-! ## Tokens -/

theorem takeBytes?_append (content rest : List UInt8) :
    takeBytes? content.length (content ++ rest) = some (content, rest) := by
  simp [takeBytes?]

theorem readPayload?_varint (n : UInt64) (rest : List UInt8) :
    readPayload? 0 (writeVarint n ++ rest) = some (.varint n, rest) := by
  simp [readPayload?, readVarint?_writeVarint]

theorem readPayload?_fixed64 (h : content.length = 8) (rest : List UInt8) :
    readPayload? 1 (content ++ rest) = some (.fixed64 content, rest) := by
  have := takeBytes?_append content rest
  rw [h] at this
  simp [readPayload?, this]

theorem readPayload?_withLength (h : content.length < UInt64.size) (rest : List UInt8) :
    readPayload? 2 (withLength content ++ rest) = some (.bytes content, rest) := by
  have hread : readVarint? (writeNat content.length ++ (content ++ rest)) = _ :=
    readVarint?_writeNat h (content ++ rest)
  rw [withLength, List.append_assoc]
  simp only [readPayload?, hread, UInt64.toNat_ofNat_of_lt' h, takeBytes?_append, Option.map_some]

/-- A tag that a key can hold. -/
def IsTag (tag : Nat) : Prop := 0 < tag ∧ tag < 536870912

instance : DecidablePred IsTag := fun tag => inferInstanceAs (Decidable (0 < tag ∧ tag < 536870912))

theorem readToken?_key {wireType : Nat} {payload : Payload} (htag : IsTag tag) (hw : wireType < 8)
    (h : readPayload? wireType bs = some (payload, rest)) :
    readToken? (writeKey tag wireType ++ bs) = some (⟨tag, payload⟩, rest) := by
  obtain ⟨hpos, hlt⟩ := htag
  have hkey : tag * 8 + wireType < UInt32.size := by
    show tag * 8 + wireType < 4294967296
    omega
  have hread := readVarint?_writeNat (Nat.lt_trans hkey (by decide)) bs
  have hnat : (UInt64.ofNat (tag * 8 + wireType)).toNat = tag * 8 + wireType :=
    UInt64.toNat_ofNat_of_lt' (Nat.lt_trans hkey (by decide))
  have hmod : (tag * 8 + wireType) % 8 = wireType := by omega
  have hdiv : (tag * 8 + wireType) / 8 = tag := by omega
  rw [readToken?, writeKey, hread]
  simp only [hnat, hmod, hdiv, h, Option.map_some]
  rw [if_pos ⟨by omega, hkey⟩]

theorem tokens?_append {t : Token} (h : readToken? bs = some (t, rest)) :
    tokens? bs = (tokens? rest).map (t :: ·) := by
  cases bs with
  | nil => cases h
  | cons b bs =>
    rw [tokens?]
    split
    · next t' tail ht =>
      rw [h] at ht
      obtain ⟨rfl, rfl⟩ := by simpa using ht
      rfl
    · next ht =>
      rw [h] at ht
      cases ht

/-! ## Text -/

theorem textOf?_textBytes (s : String) : textOf? (textBytes s) = some s := by
  unfold textOf? textBytes String.fromUTF8?
  rw [Array.toArray_toList, dif_pos s.isValidUTF8]
  rfl

/-! ## Records -/

section

variable {κ : Type} {fields : κ → Nat → Option (FieldKind κ)} {budget : Nat} {kind inner : κ}
  {r r' : Record}

/-- A record whose fields are known in its kind, have payloads of their kinds, and are nested no
deeper than the budget allows. -/
inductive Conforms (fields : κ → Nat → Option (FieldKind κ)) : Nat → κ → Record → Prop
  | nil {budget : Nat} {kind : κ} : Conforms fields budget kind []
  | varint {budget tag : Nat} {kind : κ} {n : UInt64} {r : Record} (htag : IsTag tag)
      (hf : fields kind tag = some .varint ∨ fields kind tag = some .varints)
      (hr : Conforms fields budget kind r) : Conforms fields budget kind (.varint tag n :: r)
  | packed {budget tag : Nat} {kind : κ} {ns : List UInt64} {r : Record} (htag : IsTag tag)
      (hf : fields kind tag = some .varints) (hr : Conforms fields budget kind r) :
      Conforms fields budget kind (.packed tag ns :: r)
  | text {budget tag : Nat} {kind : κ} {s : String} {r : Record} (htag : IsTag tag)
      (hf : fields kind tag = some .text) (hr : Conforms fields budget kind r) :
      Conforms fields budget kind (.text tag s :: r)
  | blob {budget tag : Nat} {kind : κ} {bytes : List UInt8} {r : Record} (htag : IsTag tag)
      (hf : fields kind tag = some .blob) (hr : Conforms fields budget kind r) :
      Conforms fields budget kind (.blob tag bytes :: r)
  | fixed64 {budget tag : Nat} {kind : κ} {bytes : List UInt8} {r : Record} (htag : IsTag tag)
      (hf : fields kind tag = some .fixed64) (hbytes : bytes.length = 8)
      (hr : Conforms fields budget kind r) : Conforms fields budget kind (.fixed64 tag bytes :: r)
  | record {budget tag : Nat} {kind inner : κ} {items r : Record} (htag : IsTag tag)
      (hf : fields kind tag = some (.record inner)) (hi : Conforms fields budget inner items)
      (hr : Conforms fields (budget + 1) kind r) :
      Conforms fields (budget + 1) kind (.record tag items :: r)

theorem Conforms.append (h : Conforms fields budget kind r) (h' : Conforms fields budget kind r') :
    Conforms fields budget kind (r ++ r') := by
  induction h with
  | nil => exact h'
  | varint htag hf _ ih => exact .varint htag hf (ih h')
  | packed htag hf _ ih => exact .packed htag hf (ih h')
  | text htag hf _ ih => exact .text htag hf (ih h')
  | blob htag hf _ ih => exact .blob htag hf (ih h')
  | fixed64 htag hf hbytes _ ih => exact .fixed64 htag hf hbytes (ih h')
  | record htag hf hi _ _ ih => exact .record htag hf hi (ih h')

/-- How the records inside a record are read. -/
def readInner (fields : κ → Nat → Option (FieldKind κ)) : Nat → κ → List UInt8 → Option Record
  | 0 => fun _ _ => none
  | budget + 1 => decode? fields budget

theorem decode?_eq (fields : κ → Nat → Option (FieldKind κ)) (budget : Nat) (kind : κ)
    (bs : List UInt8) :
    decode? fields budget kind bs =
      (tokens? bs).bind (readItems? (readInner fields budget) (fields kind) budget []) := by
  cases budget with
  | zero => rw [decode?, readInner]
  | succ budget => rw [decode?, readInner]

theorem decode?_append {payload : Payload} {fk : FieldKind κ} {item : Item}
    (ht : readToken? bs = some (⟨tag, payload⟩, rest)) (hf : fields kind tag = some fk)
    (hi : readItem? (readInner fields budget) tag fk payload = some item) :
    decode? fields budget kind bs = (decode? fields budget kind rest).map (item :: ·) := by
  rw [decode?_eq, decode?_eq, tokens?_append ht]
  cases tokens? rest with
  | none => rfl
  | some tokens => simp only [Option.map_some, Option.bind_some, readItems?, hf, hi]

theorem length_withLength (content : List UInt8) :
    content.length ≤ (withLength content).length := by
  rw [withLength, List.length_append]
  omega

/-- A field whose payload has its length in front. -/
theorem decode?_withLength {fk : FieldKind κ} {item : Item} (htag : IsTag tag)
    (hf : fields kind tag = some fk) (hlen : content.length < UInt64.size)
    (hi : readItem? (readInner fields budget) tag fk (.bytes content) = some item) :
    decode? fields budget kind (writeKey tag 2 ++ (withLength content ++ rest)) =
      (decode? fields budget kind rest).map (item :: ·) :=
  decode?_append (readToken?_key htag (by decide) (readPayload?_withLength hlen rest)) hf hi

/-- A record is read back from its bytes. -/
theorem decode?_encode (h : Conforms fields budget kind r) (hlen : (encode r).length < UInt64.size) :
    decode? fields budget kind (encode r) = some r := by
  induction h with
  | nil => rw [decode?_eq, encode, tokens?]; rfl
  | @varint budget tag kind n r htag hf _ ih =>
    rw [encode, Item.encode, List.append_assoc] at hlen ⊢
    simp only [List.length_append] at hlen
    have ht := readToken?_key htag (by decide) (readPayload?_varint n (encode r))
    rcases hf with hf | hf
    · rw [decode?_append ht hf rfl, ih (by omega)]
      rfl
    · rw [decode?_append ht hf rfl, ih (by omega)]
      rfl
  | @packed budget tag kind ns r htag hf _ ih =>
    rw [encode, Item.encode, List.append_assoc] at hlen ⊢
    simp only [List.length_append] at hlen
    have hcontent := length_withLength (ns.flatMap writeVarint)
    have hitem : readItem? (readInner fields budget) tag .varints
        (.bytes (ns.flatMap writeVarint)) = some (.packed tag ns) := by
      rw [readItem?, readVarints?_flatMap]
      rfl
    rw [decode?_withLength htag hf (by omega) hitem, ih (by omega)]
    rfl
  | @text budget tag kind s r htag hf _ ih =>
    rw [encode, Item.encode, List.append_assoc] at hlen ⊢
    simp only [List.length_append] at hlen
    have hcontent := length_withLength (textBytes s)
    have hitem : readItem? (readInner fields budget) tag .text (.bytes (textBytes s)) =
        some (.text tag s) := by
      rw [readItem?, textOf?_textBytes]
      rfl
    rw [decode?_withLength htag hf (by omega) hitem, ih (by omega)]
    rfl
  | @blob budget tag kind bytes r htag hf _ ih =>
    rw [encode, Item.encode, List.append_assoc] at hlen ⊢
    simp only [List.length_append] at hlen
    have hcontent := length_withLength bytes
    rw [decode?_withLength htag hf (by omega) rfl, ih (by omega)]
    rfl
  | @fixed64 budget tag kind bytes r htag hf hbytes _ ih =>
    rw [encode, Item.encode, List.append_assoc] at hlen ⊢
    simp only [List.length_append] at hlen
    have ht := readToken?_key htag (by decide) (readPayload?_fixed64 hbytes (encode r))
    rw [decode?_append ht hf rfl, ih (by omega)]
    rfl
  | @record budget tag kind inner items r htag hf _ _ ihi ihr =>
    rw [encode, Item.encode, List.append_assoc] at hlen ⊢
    simp only [List.length_append] at hlen
    have hcontent := length_withLength (encode items)
    have hitem : readItem? (readInner fields (budget + 1)) tag (.record inner)
        (.bytes (encode items)) = some (.record tag items) := by
      rw [readItem?, readInner, ihi (by omega)]
      rfl
    rw [decode?_withLength htag hf (by omega) hitem, ihr (by omega)]
    rfl

end

end SchemaBridge.Wire
