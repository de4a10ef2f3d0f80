import Lokicat.Logproto

/-!
# Pushing a batch (lokicat.c)

`send_push_request` with the answers of snappy, curl and the server as inputs,
`push_request_reset` and `flush_push_request`.
-/

namespace Lokicat.Push

open CString Logproto

/-- What the libraries and the server answer to one push. -/
structure PushOutcome where
  compressedRes : Int
  compressedLen : Nat
  resp : Int
  responseCode : Int
  deriving DecidableEq, Repr

def snappyOk : Int := 0

def curleOk : Int := 0

/-- Compressed, transferred and answered with a 2xx code. -/
def PushOutcome.accepted (o : PushOutcome) : Bool :=
  o.compressedRes = snappyOk && o.resp = curleOk && 200 ≤ o.responseCode && o.responseCode ≤ 299

/-- The messages logged while sending, each with its arguments as printed. -/
inductive LogLine where
  /-- `"error compressing: %d"` -/
  | errorCompressing : Int → LogLine
  /-- `"error intialising curl"` -/
  | noHandle : LogLine
  /-- `"curl_easy_perform() failed: %s"`, for the text of a curl code -/
  | curlFailed : Int → LogLine
  /-- `"unexpected response code from %s, %ld"` -/
  | unexpectedResponse : List Byte → Int → LogLine
  /-- `"sent bytes=%zu lines=%zu to loki"` -/
  | sent : Nat → Nat → LogLine
  deriving DecidableEq, Repr

/-- The return code and the log, where curl has a handle to give. -/
def sendPushRequest (pushRequest : PushRequest) (lokiUrl : List Byte) (o : PushOutcome) :
    Int × List LogLine :=
  let returnCode := 0
  if o.compressedRes ≠ snappyOk then (1, [.errorCompressing o.compressedRes])
  else
    let performed : Int × List LogLine :=
      if o.resp ≠ curleOk then (0, [.curlFailed o.resp]) else (returnCode, [])
    if o.responseCode.tdiv 100 ≠ 2 then
      (0, performed.2 ++ [.unexpectedResponse lokiUrl o.responseCode])
    else
      let lines := pushRequest.streams.foldl (fun lines s => lines + s.entries.length) 0
      (performed.1, performed.2 ++ [.sent lines o.compressedLen])

/-- All entries freed, all counts zero. -/
def pushRequestReset (pushRequest : PushRequest) : PushRequest :=
  { pushRequest with streams := pushRequest.streams.map (fun s => { s with entries := [] }) }

/-- The request and `*timestamp_oldest_entry` after the flush, and the log. The
return code of the send is discarded. -/
def flushPushRequest (pushRequest : PushRequest) (lokiUrl : List Byte) (o : PushOutcome) :
    PushRequest × Int × List LogLine :=
  (pushRequestReset pushRequest, 0, (sendPushRequest pushRequest lokiUrl o).2)

/-- A flush empties every stream and clears the age mark whatever the outcome. -/
theorem flush_resets (pushRequest : PushRequest) (lokiUrl : List Byte) (o : PushOutcome) :
    (∀ s ∈ (flushPushRequest pushRequest lokiUrl o).1.streams, s.entries = []) ∧
      (flushPushRequest pushRequest lokiUrl o).2.1 = 0 := by
  constructor
  · intro s hs
    obtain ⟨t, -, rfl⟩ := List.mem_map.mp hs
    rfl
  · rfl

end Lokicat.Push
