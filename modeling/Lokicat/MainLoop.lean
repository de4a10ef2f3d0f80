import Lokicat.InputLogread
import Lokicat.Ledger
import Lokicat.Push
import Mathlib.Data.Finset.Card

/-!
# The main loop (lokicat.c)

One `stepMain` is one iteration of `while (1)`: the age check, `select`, `read` and
the inner loop over the bytes read. A `Turn` is what the environment supplies
for it. The state keeps a trace of what the loop has done so far.
-/

namespace Lokicat.MainLoop

open CString InputLogread Iteration Ledger LocalTime Logproto Push

def maxEntries : Nat := 64

def maxAgeOfEntry : Int := 30

def readBufLen : Nat := 2

/-- What stays the same over a run. `overflow` is what an overflowing signed
addition evaluates to: the language leaves it open, so it is arbitrary here. -/
structure Config where
  zone : ZoneRule
  fd : Nat
  lokiUrl : List Byte
  labels : List Byte
  overflow : Int → Int → Int

/-- `(int) t`: reduction to 32 bits. -/
def cInt (t : Int) : Int := Int.bmod t (2 ^ 32)

def intAdd (overflow : Int → Int → Int) (a b : Int) : Int :=
  if -2 ^ 31 ≤ a + b ∧ a + b < 2 ^ 31 then a + b else overflow a b

/-- The clock readings and the push outcome while one line is completed. -/
structure LineEnv where
  parseClock : Int
  storeClock : Int
  outcome : PushOutcome

inductive Waited where
  | error : Waited
  | ready : (Nat → Bool) → Waited

/-- The bytes one `read` may return; none of them is end of file. -/
structure Chunk where
  bytes : List Byte
  fits : bytes.length ≤ readBufLen

inductive ReadResult where
  | error : ReadResult
  | data : Chunk → ReadResult

/-- The environment of one iteration; `line k` belongs to the `k`-th line completed in it. -/
structure Turn where
  now : Int
  outcome : PushOutcome
  waited : Waited
  read : ReadResult
  line : Nat → LineEnv

/-- A flush is due to a full batch or to the age check at a clock reading. -/
inductive Cause where
  | full : Cause
  | age : Int → Cause
  deriving DecidableEq, Repr

structure Sent where
  cause : Cause
  request : PushRequest
  outcome : PushOutcome
  log : List LogLine
  deriving DecidableEq, Repr

inductive Action where
  /-- The age check read the clock. -/
  | looked : Int → Action
  /-- `read` returned some bytes. -/
  | read : List Byte → Action
  /-- `input_logread20` was given so many bytes, took so many and returned a status. -/
  | call : Nat → Nat → InputStatus → Action
  /-- `input_logread20` completed an entry, parsing its line at a clock reading. -/
  | completed : Entry → Int → Action
  /-- An entry was stored at an index at a clock reading. -/
  | stored : Nat → Entry → Int → Action
  /-- A request was passed to `send_push_request`. -/
  | sent : Sent → Action
  deriving DecidableEq, Repr

inductive Phase where
  /-- At the loop head. -/
  | looping : Phase
  /-- Left by the `break` at end of file. -/
  | left : Phase
  /-- Ended by `die`. -/
  | died : Phase
  /-- The inner loop did not end. -/
  | spinning : Phase
  deriving DecidableEq, Repr

structure State where
  set : Finset Nat
  stream : Stream
  timestampOldestEntry : Int
  entry : Entry
  phase : Phase
  trace : List Action

/-- The state before the first iteration. -/
def init (cfg : Config) : State where
  set := insert cfg.fd ∅
  stream := ⟨cfg.labels, []⟩
  timestampOldestEntry := 0
  entry := Entry.init
  phase := .looping
  trace := []

def State.emit (st : State) (a : Action) : State := { st with trace := st.trace ++ [a] }

/-- The request whose only stream is `stream`. -/
def State.pushRequest (st : State) : PushRequest := ⟨[st.stream]⟩

/-- A call of `flush_push_request`. -/
def flush (cfg : Config) (cause : Cause) (o : PushOutcome) (st : State) : State :=
  let flushed := flushPushRequest st.pushRequest cfg.lokiUrl o
  { st.emit (.sent ⟨cause, st.pushRequest, o, flushed.2.2⟩) with
    stream := flushed.1.streams.headD st.stream
    timestampOldestEntry := flushed.2.1 }

/-- The condition of the age check. -/
def ageExpired (cfg : Config) (oldest now : Int) : Bool :=
  oldest > 0 && intAdd cfg.overflow oldest maxAgeOfEntry < cInt now

/-- `&&` reads the clock only for a positive age mark. -/
def ageCheck (cfg : Config) (now : Int) (o : PushOutcome) (st : State) : State :=
  let st := if st.timestampOldestEntry > 0 then st.emit (.looked now) else st
  if ageExpired cfg st.timestampOldestEntry now then flush cfg (.age now) o st else st

/-- Append the completed entry, flush a full batch, and start a fresh entry. -/
def storeEntry (cfg : Config) (env : LineEnv) (st : State) : State :=
  let oldest :=
    if st.timestampOldestEntry = 0 then cInt env.storeClock else st.timestampOldestEntry
  let st := st.emit (.stored st.stream.entries.length st.entry env.storeClock)
  let st := { st with
    timestampOldestEntry := oldest
    stream := { st.stream with entries := st.stream.entries ++ [st.entry] } }
  let st := if st.stream.entries.length ≥ maxEntries then flush cfg .full env.outcome st else st
  { st with entry := Entry.init }

/-- The state of the inner loop: lines completed in it, bytes from `start` to
`end`, and the state of the main loop. -/
structure Inner where
  count : Nat
  start : List Byte
  main : State

/-- The body of `while (start <= end)`. -/
def innerBody (cfg : Config) (line : Nat → LineEnv) (s : Inner) : Pass Inner State :=
  if s.start = [] then .leave s.main
  else
    let env := line s.count
    let r := inputLogread20 cfg.zone env.parseClock s.start s.main.entry
    let st := { s.main.emit (.call s.start.length r.2.1 r.1) with entry := r.2.2 }
    match r.1 with
    | .continue => .leave st
    | .success =>
      .again ⟨s.count + 1, s.start.drop r.2.1,
        storeEntry cfg env (st.emit (.completed r.2.2 env.parseClock))⟩
    | _ => .again { s with main := st }

/-- Forward the bytes read to the input. -/
def forward (cfg : Config) (line : Nat → LineEnv) (bytes : List Byte) (st : State) : State :=
  match loop (innerBody cfg line) (bytes.length + 1) ⟨0, bytes, st⟩ with
  | some st => st
  | none => { st with phase := .spinning }

/-- `select` for reading: the set becomes the ready descriptors that were in it. -/
def select (nfds : Nat) (set : Finset Nat) (ready : Nat → Bool) : Nat × Finset Nat :=
  let set := set.filter (fun d => d < nfds ∧ ready d = true)
  (set.card, set)

/-- One iteration of the main loop. -/
def stepMain (cfg : Config) (st : State) (t : Turn) : State :=
  match st.phase with
  | .looping =>
    let st := ageCheck cfg t.now t.outcome st
    match t.waited with
    | .error => { st with phase := .died }
    | .ready f =>
      let selected := select (cfg.fd + 1) st.set f
      let st := { st with set := selected.2 }
      if selected.1 = 0 then st
      else
        match t.read with
        | .error => { st with phase := .died }
        | .data c =>
          if c.bytes.length = 0 then { st with phase := .left }
          else forward cfg t.line c.bytes (st.emit (.read c.bytes))
  | _ => st

/-- The state of the main loop after some turns from the start. -/
def runMain (cfg : Config) (turns : List Turn) : State := run (stepMain cfg) (init cfg) turns

/-- A configuration for concrete runs: UTC, descriptor 0, no URL and no labels. -/
def utcConfig : Config := ⟨ZoneRule.constant 0, 0, [], [], fun _ _ => 0⟩

def acceptedOutcome : PushOutcome := ⟨snappyOk, 0, curleOk, 204⟩

/-- A turn at a clock reading whose `select` times out. -/
def idleTurn (now : Int) : Turn where
  now := now
  outcome := acceptedOutcome
  waited := .ready (fun _ => false)
  read := .error
  line := fun _ => ⟨now, now, acceptedOutcome⟩

/-- A turn at a clock reading that reads the first bytes of a string. -/
def readTurn (now : Int) (s : List Byte) : Turn :=
  { idleTurn now with
    waited := .ready (fun _ => true)
    read := .data ⟨s.take readBufLen, by simp⟩ }

/-! Views of the trace. -/

def reads (tr : List Action) : List (List Byte) :=
  tr.filterMap (fun | .read b => some b | _ => none)

def completed (tr : List Action) : List Entry :=
  tr.filterMap (fun | .completed e _ => some e | _ => none)

def stored (tr : List Action) : List Entry :=
  tr.filterMap (fun | .stored _ e _ => some e | _ => none)

def sents (tr : List Action) : List Sent :=
  tr.filterMap (fun | .sent s => some s | _ => none)

/-- The clock at the age checks that read it and at the stores, in order. -/
def clockReadings (tr : List Action) : List Int :=
  tr.filterMap (fun | .looked a => some a | .stored _ _ a => some a | _ => none)

/-- The stores and the requests as moves of a shipping ledger. -/
def moves (tr : List Action) : List (Move (Entry × Int) Sent) :=
  tr.filterMap (fun | .stored _ e a => some (.put (e, a)) | .sent s => some (.ship s) | _ => none)

def Sent.entries (s : Sent) : List Entry := s.request.streams.flatMap Stream.entries

/-- The bytes read so far. -/
def State.bytesRead (st : State) : List Byte := (reads st.trace).flatten

/-- The entry list of each request, in the order of the calls. -/
def State.batches (st : State) : List (List Entry) := (sents st.trace).map Sent.entries

/-- The ledger of the entries stored, each with its clock reading. -/
def State.account (st : State) : Account (Entry × Int) Sent := replay (moves st.trace)

end Lokicat.MainLoop
