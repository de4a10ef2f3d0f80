import Lokicat.Concrete
import Lokicat.Curl

/-!
# The resources of a push (lokicat.c)

`send_push_request` with its two buffers, the state of libcurl, its handle and its
list of headers as blocks on a heap. libcurl is given the address of the body and does
not copy it, so the buffer must be in use until the transfer is over.
-/

namespace Lokicat.Sending

open Concrete CString Curl Heaps Libraries Logproto Packing Push

variable {κ : Type}

def malloc (size : Nat) : Prog (Block κ) Nat := alloc (.buffer size [])

/-- Write a buffer from its start. -/
def fill (a : Nat) (bytes : List Byte) : Prog (Block κ) Unit := do
  match ← load a with
  | .buffer size _ => if bytes.length ≤ size then store a (.buffer size bytes) else failure
  | .library _ => failure

/-- The value of a variable, which must have been stored. -/
def used : Option Int → Prog (Block κ) Int
  | some n => pure n
  | none => failure

/-- `"lokicat/0.1.0"` -/
def userAgent : List Byte :=
  ascii ['l', 'o', 'k', 'i', 'c', 'a', 't', '/', '0', '.', '1', '.', '0']

/-- `"Content-Type: application/octet-stream"` -/
def contentType : List Byte :=
  ascii ['C', 'o', 'n', 't', 'e', 'n', 't', '-', 'T', 'y', 'p', 'e', ':', ' ', 'a', 'p', 'p', 'l',
    'i', 'c', 'a', 't', 'i', 'o', 'n', '/', 'o', 'c', 't', 'e', 't', '-', 's', 't', 'r', 'e', 'a',
    'm']

/-- Setting up the transfer of a buffer and performing it: the status, the request, the response
code and the log. A handle that is NULL is logged and used all the same, and `response_code` is
not initialised. -/
def transfer (curl : Libcurl κ) (lokiUrl : List Byte) (compressedBuf compressedLen : Nat)
    (o : PushOutcome) : Prog (Block κ) (Int × Option Post × Int × List LogLine) := do
  curl.globalInit
  let handle ← curl.easyInit
  let missing : List LogLine := if handle = none then [.noHandle] else []
  curl.easySetopt handle (.url lokiUrl)
  curl.easySetopt handle (.userAgent userAgent)
  let list ← curl.slistAppend none contentType
  curl.easySetopt handle (.httpHeader list)
  curl.easySetopt handle (.postFieldSize compressedLen)
  curl.easySetopt handle (.postFields compressedBuf)
  let performed ← curl.easyPerform o handle
  let stored ← curl.getinfo handle
  let responseCode ← used stored
  curl.easyCleanup handle
  curl.slistFreeAll list
  curl.globalCleanup
  pure (performed.1, performed.2, responseCode, missing)

/-- The buffer with the packed request, one for the compressed request, and what is compressed. -/
def serialise (protobuf : Protobuf) (snappy : Snappy) (pushRequest : PushRequest) :
    Prog (Block κ) (Nat × Nat × List Byte) := do
  let len := protobuf.getPackedSize pushRequest
  let buf ← malloc len
  fill buf (protobuf.pack pushRequest)
  let compressedBuf ← malloc (snappy.maxCompressedLength len)
  let packed ← bytesAt buf len
  pure (buf, compressedBuf, packed)

/-- The return code, the log and the request that was performed. -/
def sendPushRequest (protobuf : Protobuf) (snappy : Snappy) (curl : Libcurl κ)
    (pushRequest : PushRequest) (lokiUrl : List Byte) (o : PushOutcome) :
    Prog (Block κ) (Int × List LogLine × Option Post) := do
  let bufs ← serialise protobuf snappy pushRequest
  if o.compressedRes ≠ snappyOk then do
    free bufs.2.1
    free bufs.1
    pure (1, [.errorCompressing o.compressedRes], none)
  else do
    let compressed := snappy.compress bufs.2.2
    fill bufs.2.1 compressed
    let answer ← transfer curl lokiUrl bufs.2.1 compressed.length o
    let failed : List LogLine := if answer.1 ≠ curleOk then [.curlFailed answer.1] else []
    let report : List LogLine :=
      if answer.2.2.1.tdiv 100 ≠ 2 then [.unexpectedResponse lokiUrl answer.2.2.1]
      else
        let lines := pushRequest.streams.foldl (fun lines s => lines + s.entries.length) 0
        [.sent lines compressed.length]
    free bufs.1
    free bufs.2.1
    pure (0, answer.2.2.2 ++ failed ++ report, answer.2.1)

/-! ## What each call does to the blocks -/

variable {m : Multiset (Nat × Block κ)}

theorem ends_fill {a size : Nat} {old bytes : List Byte} (h : bytes.length ≤ size)
    (m : Multiset (Nat × Block κ)) :
    Ends (fill a bytes) (m + {(a, .buffer size old)}) () (m + {(a, .buffer size bytes)}) := by
  apply runs_then (ends_load (mem_last m _))
  show Ends (if bytes.length ≤ size then store a (Block.buffer size bytes) else failure) _ _ _
  rw [if_pos h]
  exact ends_store _ rfl

theorem runs_serialise {protobuf : Protobuf} (documented : protobuf.Documented) (snappy : Snappy)
    (pushRequest : PushRequest) (m : Multiset (Nat × Block κ)) :
    let packed := protobuf.pack pushRequest
    Runs (serialise protobuf snappy pushRequest) m fun r m' => r.2.2 = packed ∧
      m' = m + {(r.1, .buffer packed.length packed)} +
        {(r.2.1, .buffer (snappy.maxCompressedLength packed.length) [])} := by
  intro packed
  simp only [serialise, documented.packedSize]
  apply runs_bind (runs_alloc _ m)
  rintro buf _ rfl
  apply runs_then (ends_fill (Nat.le_refl _) m)
  apply runs_bind (runs_alloc _ _)
  rintro compressedBuf _ rfl
  have hbuf : (buf, Block.buffer packed.length packed) ∈
      m + {(buf, Block.buffer packed.length packed)} +
        {(compressedBuf, Block.buffer (snappy.maxCompressedLength packed.length) [])} := by
    simp
  apply runs_then (ends_bytesAt hbuf (Nat.le_refl _))
  exact runs_pure ⟨List.take_length, rfl⟩

section Transfer

variable {curl : Libcurl κ} {layout : Layout κ} (documented : curl.Documented layout)
  (handles : curl.HasHandles)

include documented handles in
/-- A transfer gives everything back but the buffer, which is not its own. -/
theorem ends_transfer (lokiUrl : List Byte) {buf size : Nat} {bytes : List Byte}
    (hbuf : (buf, .buffer size bytes) ∈ m) (o : PushOutcome) :
    Ends (transfer curl lokiUrl buf bytes.length o) m
      (o.resp, some ⟨lokiUrl, userAgent, [contentType], bytes⟩, o.responseCode, []) m := by
  apply runs_bind (documented.globalInit m)
  rintro _ _ ⟨g, hg, rfl⟩
  apply runs_bind (runs_easyInit documented handles _)
  rintro _ _ ⟨a, h₀, rfl, hh₀, rfl⟩
  apply runs_bind (documented.easySetopt _ a _ _ h₀ _ hh₀)
  rintro _ _ ⟨h₁, hh₁, rfl⟩
  apply runs_bind (documented.easySetopt _ a _ _ h₁ _ hh₁)
  rintro _ _ ⟨h₂, hh₂, rfl⟩
  rw [← add_zero (m + g + h₂)]
  apply runs_bind (documented.slistAppend _ none [] 0 _ documented.slistEmpty)
  rintro list _ ⟨b, hlist, rfl⟩
  rw [add_right_comm]
  apply runs_bind (documented.easySetopt _ a _ _ h₂ _ hh₂)
  rintro _ _ ⟨h₃, hh₃, rfl⟩
  apply runs_bind (documented.easySetopt _ a _ _ h₃ _ hh₃)
  rintro _ _ ⟨h₄, hh₄, rfl⟩
  apply runs_bind (documented.easySetopt _ a _ _ h₄ _ hh₄)
  rintro _ _ ⟨h₅, hh₅, rfl⟩
  have hbody : (buf, Block.buffer size bytes) ∈ m + g + b := by simp [hbuf]
  apply runs_bind (documented.easyPerform _ o a _ _ h₅ _ b buf size bytes hh₅ hlist
    (Multiset.le_add_left _ _) rfl hbody (Nat.le_refl _))
  rintro _ _ ⟨rfl, h₆, hh₆, rfl⟩
  apply runs_then (documented.getinfo _ a _ _ h₆ hh₆)
  apply runs_then (ends_pure o.responseCode _)
  apply runs_then (documented.easyCleanup _ a _ _ h₆ hh₆)
  apply runs_then (documented.slistFreeAll _ list _ b hlist)
  apply runs_then (documented.globalCleanup m g hg)
  exact runs_pure ⟨by simp [Options.set], rfl⟩

end Transfer

/-- The request that is performed for a body. -/
def post (lokiUrl body : List Byte) : Post := ⟨lokiUrl, userAgent, [contentType], body⟩

theorem sent_compressed {o : PushOutcome} (h : o.compressedRes = snappyOk)
    (pushRequest : PushRequest) (lokiUrl : List Byte) :
    Push.sendPushRequest pushRequest lokiUrl o =
      (0, (if o.resp ≠ curleOk then [.curlFailed o.resp] else []) ++
        if o.responseCode.tdiv 100 ≠ 2 then [.unexpectedResponse lokiUrl o.responseCode]
        else [.sent (pushRequest.streams.foldl (fun lines s => lines + s.entries.length) 0)
          o.compressedLen]) := by
  by_cases hresp : o.resp = curleOk <;>
    by_cases hcode : o.responseCode.tdiv 100 = 2 <;>
      simp [Push.sendPushRequest, h, hresp, hcode]

/-- Whatever the outcome, the body is in a buffer that is in use when the request is performed, all
blocks are given back, and code and log are those of the value model. -/
theorem send_keeps_blocks (protobuf : Protobuf) (snappy : Snappy) (curl : Libcurl κ)
    (layout : Layout κ) (packing : protobuf.Documented) (compressing : snappy.Documented)
    (documented : curl.Documented layout) (handles : curl.HasHandles) (pushRequest : PushRequest)
    (lokiUrl : List Byte) (o : PushOutcome) (m : Multiset (Nat × Block κ)) :
    let compressed := snappy.compress (protobuf.pack pushRequest)
    let sent := Push.sendPushRequest pushRequest lokiUrl
      { o with compressedLen := compressed.length }
    let performed := if o.compressedRes = snappyOk then some (post lokiUrl compressed) else none
    Ends (sendPushRequest protobuf snappy curl pushRequest lokiUrl o) m
      (sent.1, sent.2, performed) m := by
  intro compressed sent performed
  apply runs_bind (runs_serialise packing snappy pushRequest m)
  rintro ⟨buf, compressedBuf, packed⟩ _ ⟨rfl, rfl⟩
  by_cases hres : o.compressedRes = snappyOk
  · rw [if_neg (not_not.mpr hres)]
    apply runs_then (ends_fill (compressing.fits _) _)
    apply runs_then (ends_transfer documented handles lokiUrl (mem_last _ _) o)
    rw [add_right_comm]
    apply runs_then (ends_free rfl)
    apply runs_then (ends_free rfl)
    refine runs_pure ⟨?_, rfl⟩
    simp only [sent, performed, sent_compressed (o := { o with compressedLen := compressed.length })
      hres, if_pos hres]
    rfl
  · rw [if_pos hres]
    apply runs_then (ends_free rfl)
    apply runs_then (ends_free rfl)
    refine runs_pure ⟨?_, rfl⟩
    simp [sent, performed, Push.sendPushRequest, hres]

/-- One line for the host `h`, accepted. -/
theorem send_one_line :
    let pushRequest : PushRequest := ⟨[⟨[104], [⟨none, [105]⟩]⟩]⟩
    let o : PushOutcome := ⟨snappyOk, 0, curleOk, 204⟩
    let compressed := literalSnappy.compress (descriptorProtobuf.pack pushRequest)
    let sent := Push.sendPushRequest pushRequest [] { o with compressedLen := compressed.length }
    let performed := if o.compressedRes = snappyOk then some (post [] compressed) else none
    Ends (sendPushRequest descriptorProtobuf literalSnappy simpleCurl pushRequest [] o) 0
      (sent.1, sent.2, performed) 0 :=
  send_keeps_blocks descriptorProtobuf literalSnappy simpleCurl simpleLayout
    descriptorProtobuf_documented literalSnappy_documented simpleCurl_documented
    simpleCurl_hasHandles ⟨[⟨[104], [⟨none, [105]⟩]⟩]⟩ [] ⟨snappyOk, 0, curleOk, 204⟩ 0

end Lokicat.Sending
