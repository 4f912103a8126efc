import SchemaBridge.Wire.Varint

/-!
# Tokens of the wire format

On the wire a record is a sequence of tokens, each a tag with a payload; a group is opened by one
token and closed by another. `tokens?` splits bytes into tokens and knows nothing of what the tags
mean.

* `readToken?_length`: a token takes at least one byte.
-/

namespace SchemaBridge.Wire

/-- What follows a tag. -/
inductive Payload where
  | varint (n : UInt64)
  | fixed64 (bytes : List UInt8)
  | bytes (content : List UInt8)
  | openGroup
  | closeGroup
  | fixed32 (bytes : List UInt8)
deriving DecidableEq, Inhabited

structure Token where
  tag : Nat
  payload : Payload
deriving DecidableEq, Inhabited

/-- The first `n` bytes, and those after them. -/
def takeBytes? (n : Nat) (bs : List UInt8) : Option (List UInt8 × List UInt8) :=
  if n ≤ bs.length then some (bs.take n, bs.drop n) else none

/-- The payload of a wire type that some bytes begin with; types six and seven do not exist. -/
def readPayload? : Nat → List UInt8 → Option (Payload × List UInt8)
  | 0, bs => (readVarint? bs).map fun (n, rest) => (.varint n, rest)
  | 1, bs => (takeBytes? 8 bs).map fun (content, rest) => (.fixed64 content, rest)
  | 2, bs =>
    match readVarint? bs with
    | some (n, rest) => (takeBytes? n.toNat rest).map fun (content, rest) => (.bytes content, rest)
    | none => none
  | 3, bs => some (.openGroup, bs)
  | 4, bs => some (.closeGroup, bs)
  | 5, bs => (takeBytes? 4 bs).map fun (content, rest) => (.fixed32 content, rest)
  | _, _ => none

/-- The token that some bytes begin with, and the bytes after it. A key holds the tag and, in its low
three bits, the wire type; it has at most 32 bits, and its tag is not zero. -/
def readToken? (bs : List UInt8) : Option (Token × List UInt8) :=
  match readVarint? bs with
  | none => none
  | some (key, rest) =>
    if 8 ≤ key.toNat ∧ key.toNat < UInt32.size then
      (readPayload? (key.toNat % 8) rest).map fun (payload, rest) => (⟨key.toNat / 8, payload⟩, rest)
    else none

/-! ## Reading takes bytes -/

theorem takeBytes?_length {n : Nat} {bs content rest : List UInt8}
    (h : takeBytes? n bs = some (content, rest)) : rest.length ≤ bs.length := by
  unfold takeBytes? at h
  split at h
  · obtain ⟨-, rfl⟩ := by simpa using h
    simp
  · simp at h

theorem readPayload?_length {wireType : Nat} {bs rest : List UInt8} {p : Payload}
    (h : readPayload? wireType bs = some (p, rest)) : rest.length ≤ bs.length := by
  unfold readPayload? at h
  split at h
  · obtain ⟨⟨n, rest'⟩, hn, heq⟩ := Option.map_eq_some_iff.1 h
    obtain ⟨-, rfl⟩ := by simpa using heq
    exact Nat.le_of_lt (readVarint?_length hn)
  · obtain ⟨⟨content, rest'⟩, hn, heq⟩ := Option.map_eq_some_iff.1 h
    obtain ⟨-, rfl⟩ := by simpa using heq
    exact takeBytes?_length hn
  · split at h
    · next n rest₁ hn =>
      obtain ⟨⟨content, rest'⟩, ht, heq⟩ := Option.map_eq_some_iff.1 h
      obtain ⟨-, rfl⟩ := by simpa using heq
      exact Nat.le_trans (takeBytes?_length ht) (Nat.le_of_lt (readVarint?_length hn))
    · simp at h
  · obtain ⟨-, rfl⟩ := by simpa using h
    exact Nat.le_refl _
  · obtain ⟨-, rfl⟩ := by simpa using h
    exact Nat.le_refl _
  · obtain ⟨⟨content, rest'⟩, hn, heq⟩ := Option.map_eq_some_iff.1 h
    obtain ⟨-, rfl⟩ := by simpa using heq
    exact takeBytes?_length hn
  · simp at h

theorem readToken?_length {bs rest : List UInt8} {t : Token}
    (h : readToken? bs = some (t, rest)) : rest.length < bs.length := by
  unfold readToken? at h
  split at h
  · simp at h
  · next key rest₁ hkey =>
    split at h
    · obtain ⟨⟨p, rest'⟩, hp, heq⟩ := Option.map_eq_some_iff.1 h
      obtain ⟨-, rfl⟩ := by simpa using heq
      exact Nat.lt_of_le_of_lt (readPayload?_length hp) (readVarint?_length hkey)
    · simp at h

def tokens? (bs : List UInt8) : Option (List Token) :=
  match bs with
  | [] => some []
  | b :: bs =>
    match _h : readToken? (b :: bs) with
    | some (t, rest) => (tokens? rest).map (t :: ·)
    | none => none
termination_by bs.length
decreasing_by exact readToken?_length _h

end SchemaBridge.Wire
