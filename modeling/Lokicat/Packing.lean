import Lokicat.Codecs
import Lokicat.Libraries
import Mathlib.Algebra.Order.BigOperators.Group.List

/-!
# Packing push requests (logproto.pb-c.c, timestamp.pb-c.c)

The message descriptors, as codecs of the wire format: a runtime that is documented as the
pushes need it. A `char *` member is packed up to its terminator.
-/

namespace Lokicat.Packing

open Codecs CString Libraries Logproto Wire

def timestampDescriptor : Codec Timestamp :=
  ((int 64 1 (by decide) (by decide)).pair (int 32 2 (by decide) (by decide)) (by decide)).map
    (fun p => ⟨p.1, p.2⟩) (fun t => (t.seconds, t.nanos)) (fun _ => True) (fun _ _ => rfl)

def entryDescriptor : Codec Entry :=
  ((message 1 (by decide) timestampDescriptor).pair (string 2 (by decide)) (by decide)).map
    (fun p => ⟨p.1, p.2⟩) (fun e => (e.timestamp, cstr e.line)) (fun e => NulFree e.line)
    (fun e h => by rw [cstr_eq_self h])

def streamDescriptor : Codec Stream :=
  ((string 1 (by decide)).pair (repeated 2 (by decide) entryDescriptor) (by decide)).map
    (fun p => ⟨p.1, p.2⟩) (fun s => (cstr s.labels, s.entries)) (fun s => NulFree s.labels)
    (fun s h => by rw [cstr_eq_self h])

def pushRequestDescriptor : Codec PushRequest :=
  (repeated 1 (by decide) streamDescriptor).map (fun s => ⟨s⟩) (fun r => r.streams)
    (fun _ => True) (fun _ _ => rfl)

def pushRequestPack (pushRequest : PushRequest) : List Byte :=
  pushRequestDescriptor.pack pushRequest

def pushRequestUnpack (data : List Byte) : Option PushRequest := pushRequestDescriptor.unpack data

/-- One entry without a stamp, and one at 300 seconds. -/
example : pushRequestPack ⟨[⟨[104], [⟨none, [105]⟩, ⟨some ⟨300, 0⟩, []⟩]⟩]⟩ =
    [10, 15, 10, 1, 104, 18, 3, 18, 1, 105, 18, 5, 10, 3, 8, 172, 2] := by decide

/-! ## Sizes -/

theorem timestamp_length (t : Timestamp) : (timestampDescriptor.pack t).length ≤ 20 + 20 :=
  pair_length (by decide) (int_length t.seconds) (int_length t.nanos)

theorem cstr_length (s : List Byte) : (cstr s).length ≤ s.length := Framing.visible_length isNul s

theorem entry_length (e : Entry) :
    (entryDescriptor.pack e).length ≤ 20 + (20 + 20) + (20 + e.line.length) :=
  pair_length (by decide) (message_length fun t _ => timestamp_length t)
    ((string_length _).trans (Nat.add_le_add_left (cstr_length e.line) 20))

theorem stream_length (s : Stream) :
    (streamDescriptor.pack s).length ≤
      20 + s.labels.length + (s.entries.map fun e => 100 + e.line.length).sum := by
  have hentries : (s.entries.map fun e => 20 + (entryDescriptor.pack e).length).sum ≤
      (s.entries.map fun e => 100 + e.line.length).sum := by
    apply List.sum_le_sum
    intro e _
    have he := entry_length e
    omega
  exact pair_length (by decide) ((string_length _).trans (Nat.add_le_add_left (cstr_length _) 20))
    ((repeated_length s.entries).trans hentries)

theorem pushRequest_length (r : PushRequest) :
    (pushRequestPack r).length ≤ sizeBound r := by
  have hstreams : (r.streams.map fun s => 20 + (streamDescriptor.pack s).length).sum ≤
      sizeBound r := by
    apply List.sum_le_sum
    intro s _
    have hs := stream_length s
    omega
  have hpack : (pushRequestPack r).length ≤ _ :=
    @repeated_length _ streamDescriptor 1 (by decide) r.streams
  exact hpack.trans hstreams

/-! ## What is packed is unpacked -/

section Encodable

variable {r : PushRequest} (h : Encodable r)

include h in
/-- No stream is longer than the request, and no entry than its stream. -/
theorem stream_bound {s : Stream} (hs : s ∈ r.streams) :
    100 + s.labels.length + (s.entries.map fun e => 100 + e.line.length).sum < 2 ^ 31 :=
  Nat.lt_of_le_of_lt (List.le_sum_of_mem (List.mem_map.mpr ⟨s, hs, rfl⟩)) h.size

theorem timestamp_fits {t : Timestamp} (ht : (-2 ^ 63 ≤ t.seconds ∧ t.seconds < 2 ^ 63) ∧
    -2 ^ 31 ≤ t.nanos ∧ t.nanos < 2 ^ 31) : timestampDescriptor.PackFits t :=
  ⟨⟨trivial, ht⟩, Nat.lt_of_le_of_lt (timestamp_length t) (by decide)⟩

include h in
theorem entry_fits {s : Stream} (hs : s ∈ r.streams) {e : Entry} (he : e ∈ s.entries) :
    entryDescriptor.PackFits e := by
  have hbound := stream_bound h hs
  have hline : 100 + e.line.length ≤ (s.entries.map fun e => 100 + e.line.length).sum :=
    List.le_sum_of_mem (List.mem_map.mpr ⟨e, he, rfl⟩)
  have hcstr := cstr_length e.line
  have hlength := entry_length e
  refine ⟨⟨h.lines s hs e he, fun t ht => timestamp_fits (h.stamps s hs e he t ht), ?_⟩, ?_⟩
  · show (cstr e.line).length < 2 ^ 31
    omega
  · rw [sizeLimit]
    omega

include h in
theorem stream_fits {s : Stream} (hs : s ∈ r.streams) : streamDescriptor.PackFits s := by
  have hbound := stream_bound h hs
  have hcstr := cstr_length s.labels
  have hlength := stream_length s
  refine ⟨⟨h.labels s hs, ?_, fun e he => entry_fits h hs he⟩, ?_⟩
  · show (cstr s.labels).length < 2 ^ 31
    omega
  · rw [sizeLimit]
    omega

end Encodable

/-- The runtime with these descriptors. -/
def descriptorProtobuf : Protobuf where
  getPackedSize r := (pushRequestPack r).length
  pack := pushRequestPack
  unpack := pushRequestUnpack

theorem descriptorProtobuf_documented : descriptorProtobuf.Documented where
  packedSize _ := rfl
  short r h := Nat.lt_of_le_of_lt (pushRequest_length r) h.size
  unpacked _ h := unpack_pack pushRequestDescriptor ⟨trivial, fun _ hs => stream_fits h hs⟩

end Lokicat.Packing
