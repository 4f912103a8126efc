/-!
# Varints

A varint writes a number in groups of seven bits, the lowest first; all bytes but the last have their
high bit set. `readVarint?` accepts longer forms than `writeVarint` writes, up to ten bytes, as long
as the number fits in 64 bits.

* `readVarint?_length`: reading takes at least one byte.
* `readVarint?_writeVarint`: what is written is read back, whatever bytes follow.
* `toInt32_ofInt32`, `toBool_ofBool`: signed numbers and truth values come back from their numbers.
-/

namespace SchemaBridge.Wire

def writeNat (n : Nat) : List UInt8 :=
  if n < 128 then [UInt8.ofNat n] else UInt8.ofNat (n % 128 + 128) :: writeNat (n / 128)
termination_by n

def writeVarint (n : UInt64) : List UInt8 := writeNat n.toNat

/-- The number that at most `room` bytes give, and the bytes after them. -/
def readNat? : Nat → List UInt8 → Option (Nat × List UInt8)
  | 0, _ => none
  | _, [] => none
  | room + 1, b :: bs =>
    if b.toNat < 128 then some (b.toNat, bs)
    else (readNat? room bs).map fun (n, rest) => (b.toNat - 128 + 128 * n, rest)

/-- The 64-bit number that some bytes begin with, and the bytes after it. -/
def readVarint? (bs : List UInt8) : Option (UInt64 × List UInt8) :=
  match readNat? 10 bs with
  | some (n, rest) => if n < UInt64.size then some (UInt64.ofNat n, rest) else none
  | none => none

/-! ## Reading takes bytes -/

theorem readNat?_length {room : Nat} {bs rest : List UInt8} {n : Nat}
    (h : readNat? room bs = some (n, rest)) : rest.length < bs.length := by
  induction room generalizing bs n with
  | zero => simp [readNat?] at h
  | succ room ih =>
    cases bs with
    | nil => simp [readNat?] at h
    | cons b bs =>
      simp only [readNat?] at h
      split at h
      · obtain ⟨-, rfl⟩ := by simpa using h
        simp
      · obtain ⟨⟨m, rest'⟩, hm, heq⟩ := Option.map_eq_some_iff.1 h
        obtain ⟨-, rfl⟩ := by simpa using heq
        exact Nat.lt_succ_of_lt (ih hm)

theorem readVarint?_length {bs rest : List UInt8} {n : UInt64}
    (h : readVarint? bs = some (n, rest)) : rest.length < bs.length := by
  unfold readVarint? at h
  split at h
  · next m rest' hm =>
    split at h
    · obtain ⟨-, rfl⟩ := by simpa using h
      exact readNat?_length hm
    · simp at h
  · simp at h

/-! ## What is written is read back -/

theorem readNat?_writeNat {room n : Nat} (hroom : 0 < room) (h : n < Nat.pow 128 room)
    (rest : List UInt8) : readNat? room (writeNat n ++ rest) = some (n, rest) := by
  induction room generalizing n with
  | zero => omega
  | succ room ih =>
    rw [writeNat]
    split
    · next small =>
      have : (UInt8.ofNat n).toNat = n := by simp; omega
      simp [readNat?, this, small]
    · next large =>
      have hb : (UInt8.ofNat (n % 128 + 128)).toNat = n % 128 + 128 := by simp; omega
      have hroom' : 0 < room := by
        cases room with
        | zero =>
          have h : n < 128 := h
          omega
        | succ _ => omega
      have hdiv : n / 128 < Nat.pow 128 room :=
        Nat.div_lt_of_lt_mul (by rw [Nat.mul_comm]; exact h)
      simp only [List.cons_append, readNat?, hb, ih hroom' hdiv, Option.map_some]
      rw [if_neg (by omega)]
      simp
      omega

theorem readVarint?_writeVarint (n : UInt64) (rest : List UInt8) :
    readVarint? (writeVarint n ++ rest) = some (n, rest) := by
  have h : n.toNat < UInt64.size := n.toNat_lt
  rw [readVarint?, writeVarint, readNat?_writeNat (by decide) (Nat.lt_trans h (by decide))]
  show (if n.toNat < UInt64.size then some (UInt64.ofNat n.toNat, rest) else none) = some (n, rest)
  rw [if_pos h, UInt64.ofNat_toNat]

/-! ## Lists of varints -/

def readVarints? (bs : List UInt8) : Option (List UInt64) :=
  match bs with
  | [] => some []
  | b :: bs =>
    match _h : readVarint? (b :: bs) with
    | some (n, rest) => (readVarints? rest).map (n :: ·)
    | none => none
termination_by bs.length
decreasing_by exact readVarint?_length _h

/-! ## Signed numbers and truth values -/

/-- A 32-bit integer as a 64-bit number: negative ones are sign-extended. -/
def ofInt32 (i : Int32) : UInt64 := i.toInt64.toUInt64

/-- The 32-bit integer in the low half of a number. -/
def toInt32 (n : UInt64) : Int32 := n.toUInt32.toInt32

def ofBool (b : Bool) : UInt64 := if b then 1 else 0

def toBool (n : UInt64) : Bool := n != 0

theorem toInt32_ofInt32 (i : Int32) : toInt32 (ofInt32 i) = i := by
  apply Int32.toBitVec_inj.1
  simp only [toInt32, ofInt32, UInt32.toBitVec_toInt32, UInt64.toBitVec_toUInt32,
    Int64.toBitVec_toUInt64, Int32.toBitVec_toInt64]
  ext j hj
  simp [BitVec.getElem_setWidth, BitVec.getLsbD_signExtend, hj]
  omega

theorem toBool_ofBool (b : Bool) : toBool (ofBool b) = b := by cases b <;> decide

end SchemaBridge.Wire
