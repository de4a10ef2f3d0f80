import Lokicat.Packing

/-!
# Libraries to run

A compressor that finds no repetitions, in the format of snappy, and a server that
uncompresses and unpacks. With the descriptors they are all that is documented.
-/

namespace Lokicat.Concrete

open CString Libraries Packing Wire

/-- Literals of at most sixty bytes, each behind its length. -/
def literals : Nat → List Byte → List Byte
  | 0, _ => []
  | _ + 1, [] => []
  | k + 1, b :: s =>
    UInt8.ofNat (4 * ((b :: s).take 60).length - 4) :: (b :: s).take 60 ++
      literals k ((b :: s).drop 60)

def readLiterals : Nat → List Byte → Option (List Byte)
  | _, [] => some []
  | 0, _ :: _ => none
  | k + 1, t :: s =>
    let n := t.toNat / 4 + 1
    if t.toNat % 4 = 0 ∧ n ≤ s.length then (readLiterals k (s.drop n)).map (s.take n ++ ·) else none

theorem readLiterals_literals {k : Nat} {s : List Byte} (h : s.length ≤ k) :
    readLiterals k (literals k s) = some s := by
  induction k generalizing s with
  | zero =>
    rw [List.eq_nil_of_length_eq_zero (Nat.le_zero.mp h)]
    rfl
  | succ k ih =>
    cases s with
    | nil => rfl
    | cons b s =>
      have hpiece : 1 ≤ ((b :: s).take 60).length ∧ ((b :: s).take 60).length ≤ 60 := by
        simp
      have htag : (UInt8.ofNat (4 * ((b :: s).take 60).length - 4)).toNat =
          4 * ((b :: s).take 60).length - 4 := by
        simp only [UInt8.toNat_ofNat']
        omega
      have hcount : (4 * ((b :: s).take 60).length - 4) / 4 + 1 = ((b :: s).take 60).length := by
        omega
      have hrest := @ih ((b :: s).drop 60) (by simp at h ⊢; omega)
      rw [literals, List.cons_append, readLiterals]
      simp only [htag, hcount, List.drop_left, List.take_left, hrest]
      rw [if_pos ⟨by omega, by simp⟩, Option.map_some, List.take_append_drop]

theorem literals_length (k : Nat) (s : List Byte) :
    (literals k s).length ≤ s.length + (s.length + 59) / 60 := by
  induction k generalizing s with
  | zero => simp [literals]
  | succ k ih =>
    cases s with
    | nil => simp [literals]
    | cons b s =>
      have hrest := ih ((b :: s).drop 60)
      simp only [literals, List.length_append, List.length_cons, List.length_take,
        List.length_drop] at *
      omega

/-- The length, and literals. -/
def literalSnappy : Snappy where
  maxCompressedLength n := 32 + n + n / 6
  compress s := varint s.length ++ literals s.length s
  uncompress b := (readVarint b).bind (fun r => readLiterals r.1 r.2)

theorem literalSnappy_documented : literalSnappy.Documented where
  fits s := by
    have hcount := groups_length 9 s.length
    have hliterals := literals_length s.length s
    simp only [literalSnappy, List.length_append, varint]
    omega
  uncompressed s hs := by
    have hread := readVarint_varint (Nat.lt_trans hs (by decide : 2 ^ 32 < 2 ^ 64))
      (literals s.length s)
    simp only [literalSnappy, hread, Option.bind_some, readLiterals_literals (Nat.le_refl _)]

def plainOutside : Outside where
  protobuf := descriptorProtobuf
  snappy := literalSnappy
  server body := (literalSnappy.uncompress body).bind pushRequestUnpack

theorem plainOutside_documented : plainOutside.Documented where
  protobuf := descriptorProtobuf_documented
  snappy := literalSnappy_documented
  server body packed r huncompressed hunpacked := by
    have hread : literalSnappy.uncompress body = some packed := huncompressed
    simp only [plainOutside, hread, Option.bind_some]
    exact hunpacked

end Lokicat.Concrete
