import Lokicat.Logproto
import Mathlib.Tactic.Ring

/-!
# Code outside the repository

The runtime that packs messages, the compression library and the server are known by what is
documented of them. Each is a record of functions, and what is relied on is a
proposition about them.
-/

namespace Lokicat.Libraries

open CString Logproto

/-- `logproto__push_request__get_packed_size` and `..._pack` (logproto.pb-c.c) call the runtime
with the descriptor of push requests; `unpack` is what a receiver calls. -/
structure Protobuf where
  getPackedSize : PushRequest → Nat
  pack : PushRequest → List Byte
  unpack : List Byte → Option PushRequest

/-- More than the bytes of a request: its strings, and a hundred for every message. -/
def sizeBound (r : PushRequest) : Nat :=
  (r.streams.map fun s =>
    100 + s.labels.length + (s.entries.map fun e => 100 + e.line.length).sum).sum

/-- What the format carries: strings that are terminated at their end, numbers of 64 and of 32
bits, and not more than two gigabytes. -/
structure Encodable (r : PushRequest) : Prop where
  labels : ∀ s ∈ r.streams, NulFree s.labels
  lines : ∀ s ∈ r.streams, ∀ e ∈ s.entries, NulFree e.line
  stamps : ∀ s ∈ r.streams, ∀ e ∈ s.entries, ∀ t ∈ e.timestamp,
    (-2 ^ 63 ≤ t.seconds ∧ t.seconds < 2 ^ 63) ∧ -2 ^ 31 ≤ t.nanos ∧ t.nanos < 2 ^ 31
  size : sizeBound r < 2 ^ 31

/-- The size is that of what is packed, and what is packed is unpacked again. -/
structure Protobuf.Documented (protobuf : Protobuf) : Prop where
  packedSize : ∀ r, protobuf.getPackedSize r = (protobuf.pack r).length
  short : ∀ r, Encodable r → (protobuf.pack r).length < 2 ^ 31
  unpacked : ∀ r, Encodable r → protobuf.unpack (protobuf.pack r) = some r

structure Snappy where
  maxCompressedLength : Nat → Nat
  compress : List Byte → List Byte
  uncompress : List Byte → Option (List Byte)

/-- What is compressed takes no more than the maximum, and is uncompressed again if its length
has 32 bits. -/
structure Snappy.Documented (snappy : Snappy) : Prop where
  fits : ∀ s, (snappy.compress s).length ≤ snappy.maxCompressedLength s.length
  uncompressed : ∀ s, s.length < 2 ^ 32 → snappy.uncompress (snappy.compress s) = some s

/-- What a body passes through. -/
structure Outside where
  protobuf : Protobuf
  snappy : Snappy
  /-- What the server takes a body for. -/
  server : List Byte → Option PushRequest

/-- The server takes a body for the request that it is when uncompressed and unpacked. -/
structure Outside.Documented (outside : Outside) : Prop where
  protobuf : outside.protobuf.Documented
  snappy : outside.snappy.Documented
  server : ∀ body packed r, outside.snappy.uncompress body = some packed →
    outside.protobuf.unpack packed = some r → outside.server body = some r

/-- The body of a push: the packed request, compressed. -/
def Outside.body (outside : Outside) (r : PushRequest) : List Byte :=
  outside.snappy.compress (outside.protobuf.pack r)

/-- The server takes the body of a request within the limits of the format for that request. -/
theorem server_body {outside : Outside} (documented : outside.Documented) {r : PushRequest}
    (h : Encodable r) : outside.server (outside.body r) = some r := by
  have hshort := documented.protobuf.short r h
  have huncompressed := documented.snappy.uncompressed _ (Nat.lt_trans hshort (by decide))
  exact documented.server _ _ r huncompressed (documented.protobuf.unpacked r h)

end Lokicat.Libraries
