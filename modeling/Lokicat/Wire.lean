import Mathlib.Data.List.Basic
import Mathlib.Tactic.Ring

/-!
# The protobuf wire format

A message is the sequence of its fields: a tag made of the field's number and wire
type, then a varint or a counted string of bytes. A varint holds seven bits in each
byte, the lowest first, and has at most ten bytes. Fields of fixed width and groups
are refused.
-/

namespace Lokicat.Wire

/-- Groups of seven bits, all but the last with the high bit set, in one byte and at
most `k` more. -/
def groups : Nat → Nat → List UInt8
  | 0, n => [UInt8.ofNat n]
  | k + 1, n =>
    if n < 128 then [UInt8.ofNat n] else UInt8.ofNat (n % 128 + 128) :: groups k (n / 128)

def varint (n : Nat) : List UInt8 := groups 9 n

def readGroups : Nat → List UInt8 → Option (Nat × List UInt8)
  | _, [] => none
  | 0, b :: s => if b < 128 then some (b.toNat, s) else none
  | k + 1, b :: s =>
    if b < 128 then some (b.toNat, s)
    else (readGroups k s).map (fun r => (b.toNat - 128 + 128 * r.1, r.2))

/-- The number at the start of a string and what follows it. -/
def readVarint (s : List UInt8) : Option (Nat × List UInt8) := readGroups 9 s

inductive Payload where
  | varint : Nat → Payload
  | bytes : List UInt8 → Payload
  deriving DecidableEq, Repr

structure Field where
  number : Nat
  payload : Payload
  deriving DecidableEq, Repr

def Payload.wireType : Payload → Nat
  | .varint _ => 0
  | .bytes _ => 2

def Payload.encode : Payload → List UInt8
  | .varint n => Wire.varint n
  | .bytes b => Wire.varint b.length ++ b

def Field.encode (f : Field) : List UInt8 :=
  varint (f.number * 8 + f.payload.wireType) ++ f.payload.encode

def encode (fs : List Field) : List UInt8 := fs.flatMap Field.encode

def readPayload (wireType : Nat) (s : List UInt8) : Option (Payload × List UInt8) :=
  match wireType with
  | 0 => (readVarint s).map (fun r => (.varint r.1, r.2))
  | 2 => (readVarint s).bind (fun r =>
      if r.1 ≤ r.2.length then some (.bytes (r.2.take r.1), r.2.drop r.1) else none)
  | _ => none

def readField (s : List UInt8) : Option (Field × List UInt8) :=
  (readVarint s).bind (fun tag =>
    (readPayload (tag.1 % 8) tag.2).map (fun p => (⟨tag.1 / 8, p.1⟩, p.2)))

/-- At most so many fields. -/
def readFields : Nat → List UInt8 → Option (List Field)
  | _, [] => some []
  | 0, _ :: _ => none
  | k + 1, b :: s => (readField (b :: s)).bind (fun r => (readFields k r.2).map (r.1 :: ·))

/-- The fields of a message; each takes at least one byte. -/
def decode (s : List UInt8) : Option (List Field) := readFields s.length s

/-- No message has more bytes. -/
def sizeLimit : Nat := 2 ^ 31

def Payload.Fits : Payload → Prop
  | .varint n => n < 2 ^ 64
  | .bytes b => b.length < sizeLimit

/-- The number and the payload are within the limits of the format. -/
structure Field.Fits (f : Field) : Prop where
  number : f.number < 2 ^ 29
  payload : f.payload.Fits

/-! ## Reading what was written -/

theorem lt_128_iff (b : UInt8) : b < 128 ↔ b.toNat < 128 := UInt8.lt_iff_toNat_lt

theorem readGroups_groups {k n : Nat} (h : n < 128 ^ (k + 1)) (s : List UInt8) :
    readGroups k (groups k n ++ s) = some (n, s) := by
  induction k generalizing n with
  | zero =>
    have hbyte : (UInt8.ofNat n).toNat = n := by simp; omega
    simp only [groups, List.singleton_append, readGroups, lt_128_iff, hbyte]
    rw [if_pos (by omega)]
  | succ k ih =>
    rw [groups]
    split
    · rename_i hsmall
      have hbyte : (UInt8.ofNat n).toNat = n := by simp; omega
      simp only [List.singleton_append, readGroups, lt_128_iff, hbyte, if_pos hsmall]
    · have hbyte : (UInt8.ofNat (n % 128 + 128)).toNat = n % 128 + 128 := by simp; omega
      have hrest : n / 128 < 128 ^ (k + 1) := by
        rw [Nat.div_lt_iff_lt_mul (by decide), ← Nat.pow_succ]
        exact h
      have hlarge : ¬n % 128 + 128 < 128 := by omega
      have hvalue : n % 128 + 128 - 128 + 128 * (n / 128) = n := by omega
      simp only [List.cons_append, readGroups, lt_128_iff, hbyte, if_neg hlarge, ih hrest,
        Option.map_some, hvalue]

theorem readVarint_varint {n : Nat} (h : n < 2 ^ 64) (s : List UInt8) :
    readVarint (varint n ++ s) = some (n, s) :=
  readGroups_groups (Nat.lt_of_lt_of_le h (by decide)) s

theorem readPayload_encode {p : Payload} (h : p.Fits) (s : List UInt8) :
    readPayload p.wireType (p.encode ++ s) = some (p, s) := by
  cases p with
  | varint n =>
    have hread := readVarint_varint (n := n) h s
    simp only [readPayload, Payload.wireType, Payload.encode, hread, Option.map_some]
  | bytes b =>
    have hlength : b.length < 2 ^ 64 := Nat.lt_trans h (by decide)
    have hread := readVarint_varint hlength (b ++ s)
    have hle : b.length ≤ (b ++ s).length := by simp
    simp only [readPayload, Payload.wireType, Payload.encode, List.append_assoc, hread,
      Option.bind_some, if_pos hle, List.take_left, List.drop_left]

theorem readField_encode {f : Field} (h : f.Fits) (s : List UInt8) :
    readField (f.encode ++ s) = some (f, s) := by
  have hwire : f.payload.wireType < 8 := by cases f.payload <;> simp [Payload.wireType]
  have htag : f.number * 8 + f.payload.wireType < 2 ^ 64 := by
    have hnumber := h.number
    omega
  have htype : (f.number * 8 + f.payload.wireType) % 8 = f.payload.wireType := by omega
  have hnumber : (f.number * 8 + f.payload.wireType) / 8 = f.number := by omega
  have hread := readVarint_varint htag (f.payload.encode ++ s)
  simp only [readField, Field.encode, List.append_assoc, hread, Option.bind_some, htype,
    readPayload_encode h.payload, Option.map_some, hnumber]

theorem groups_ne_nil (k n : Nat) : groups k n ≠ [] := by
  cases k with
  | zero => simp [groups]
  | succ k =>
    rw [groups]
    split <;> simp

theorem encode_ne_nil (f : Field) : f.encode ≠ [] := by
  exact List.append_ne_nil_of_left_ne_nil (groups_ne_nil _ _) _

theorem readFields_encode {fs : List Field} (h : ∀ f ∈ fs, f.Fits) {k : Nat}
    (hk : fs.length ≤ k) : readFields k (encode fs) = some fs := by
  induction fs generalizing k with
  | nil => cases k <;> rfl
  | cons f fs ih =>
    obtain ⟨k, rfl⟩ : ∃ j, k = j + 1 := ⟨k - 1, by simp at hk; omega⟩
    obtain ⟨hf, hfs⟩ := List.forall_mem_cons.mp h
    have hread := readField_encode hf (encode fs)
    have hrest := ih hfs (Nat.le_of_succ_le_succ hk)
    obtain ⟨b, s, hbytes⟩ := List.exists_cons_of_ne_nil (encode_ne_nil f)
    rw [hbytes, List.cons_append] at hread
    rw [encode, List.flatMap_cons, hbytes, List.cons_append, readFields, ← encode, hread]
    simp only [Option.bind_some, hrest, Option.map_some]

theorem length_le_encode (fs : List Field) : fs.length ≤ (encode fs).length := by
  induction fs with
  | nil => exact Nat.le_refl _
  | cons f fs ih =>
    have hpos := List.length_pos_of_ne_nil (encode_ne_nil f)
    rw [encode, List.flatMap_cons, ← encode, List.length_append, List.length_cons]
    omega

/-- Fields within the limits are read back as they were written. -/
theorem decode_encode {fs : List Field} (h : ∀ f ∈ fs, f.Fits) : decode (encode fs) = some fs :=
  readFields_encode h (length_le_encode fs)

/-! ## Sizes -/

theorem groups_length (k n : Nat) : (groups k n).length ≤ k + 1 := by
  induction k generalizing n with
  | zero => simp [groups]
  | succ k ih =>
    rw [groups]
    split
    · simp
    · simpa using ih (n / 128)

/-- The bytes of a payload that is a string. -/
def Payload.size : Payload → Nat
  | .varint _ => 0
  | .bytes b => b.length

/-- A field takes at most twenty bytes more than its string. -/
theorem payload_length (p : Payload) : p.encode.length ≤ 10 + p.size := by
  cases p with
  | varint n => exact groups_length 9 n
  | bytes b =>
    have hcount := groups_length 9 b.length
    simp only [Payload.encode, Payload.size, varint, List.length_append]
    omega

theorem field_length (f : Field) : f.encode.length ≤ 20 + f.payload.size := by
  have htag := groups_length 9 (f.number * 8 + f.payload.wireType)
  have hpayload := payload_length f.payload
  rw [Field.encode, List.length_append, varint]
  omega

theorem encode_append (fs gs : List Field) : encode (fs ++ gs) = encode fs ++ encode gs :=
  List.flatMap_append

/-- A message is as long as its strings, and twenty bytes for each field. -/
theorem encode_length (fs : List Field) :
    (encode fs).length ≤ (fs.map fun f => 20 + f.payload.size).sum := by
  induction fs with
  | nil => exact Nat.le_refl _
  | cons f fs ih =>
    have hfield := field_length f
    rw [encode, List.flatMap_cons, ← encode, List.length_append, List.map_cons, List.sum_cons]
    omega

end Lokicat.Wire
