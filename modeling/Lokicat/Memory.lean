import Lokicat.Heaps
import Lokicat.MainLoop

/-!
# The program on the heap

The main loop with its entries, timestamps and lines as blocks on a heap, and
pointers to blocks, to the static empty string and NULL. An access to a block that
is not in use, or a `free` of anything else, is a failure. The two buffers that
`send_push_request` allocates and frees itself are left out.
-/

namespace Lokicat.Memory

open CString Heaps InputLogread Iteration LocalTime Logproto MainLoop Push Strptime Util

inductive Pointer where
  | null : Pointer
  /-- `protobuf_c_empty_string`, which is not on the heap. -/
  | emptyString : Pointer
  | block : Nat → Pointer
  deriving DecidableEq, Repr

/-- The pointers of a `Logproto__Entry`. -/
structure EntryBlock where
  timestamp : Pointer
  line : Pointer
  deriving DecidableEq, Repr

/-- What `malloc` was called for. A text is stored without its terminator. -/
inductive Block where
  | entry : EntryBlock → Block
  | timestamp : Timestamp → Block
  | text : List Byte → Block
  deriving DecidableEq, Repr

/-- `free`, which accepts NULL and nothing else that `malloc` has not returned. -/
def freePointer : Pointer → Prog Block Unit
  | .null => pure ()
  | .emptyString => failure
  | .block a => free a

def freeIf (c : Bool) (p : Pointer) : Prog Block Unit := if c then freePointer p else pure ()

def entryAt (a : Nat) : Prog Block EntryBlock := do
  match ← load a with
  | .entry e => pure e
  | _ => failure

def timestampAt : Pointer → Prog Block (Option Timestamp)
  | .null => pure none
  | .emptyString => failure
  | .block a => do
    match ← load a with
    | .timestamp t => pure (some t)
    | _ => failure

/-- The string at a pointer; all readers test for NULL and take it as no text. -/
def stringAt : Pointer → Prog Block (List Byte)
  | .null => pure []
  | .emptyString => pure []
  | .block a => do
    match ← load a with
    | .text s => pure (cstr s)
    | _ => failure

def setTimestamp (entry : Nat) (p : Pointer) : Prog Block Unit := do
  let e ← entryAt entry
  store entry (.entry { e with timestamp := p })

def setLine (entry : Nat) (p : Pointer) : Prog Block Unit := do
  let e ← entryAt entry
  store entry (.entry { e with line := p })

/-- `malloc` and `logproto__entry__init` -/
def newEntry : Prog Block Nat := alloc (.entry ⟨.null, .emptyString⟩)

/-- Allocate the timestamp of an entry. -/
def stamp (seconds : Int) (entry : Nat) : Prog Block Unit := do
  let timestamp ← alloc (.timestamp { Timestamp.init with seconds := seconds })
  setTimestamp entry (.block timestamp)

/-- Allocate the line of an entry, a copy of the trimmed text. -/
def storeLine (res : List Byte) (entry : Nat) : Prog Block Unit := do
  let trimmed := trimWhitespace res
  let line ← alloc (.text (strncpy trimmed.1 trimmed.2))
  setLine entry (.block line)

def inputLogreadParseLine (z : ZoneRule) (now : Int) (line : Pointer) (entry : Nat) :
    Prog Block Unit := do
  let text ← stringAt line
  let openwrt := strptime text openwrtFormat Tm.zero
  match openwrt.1 with
  | some res => do
    stamp (mktime z openwrt.2).1 entry
    storeLine res entry
  | none =>
    let journalctl := strptime text journalctlFormat openwrt.2
    match journalctl.1 with
    | some res => do
      stamp (journalctlSeconds z now journalctl.2) entry
      storeLine res entry
    | none => storeLine text entry

/-- The old text is freed if it is not empty, whoever owns it. -/
def inputLogread20 (z : ZoneRule) (now : Int) (buf : List Byte) (entry : Nat) :
    Prog Block (InputStatus × Nat) := do
  let found := findNewline buf
  let i := found.1
  let e ← entryAt entry
  let before ← stringAt e.line
  let line ← alloc (.text (before ++ buf.take i))
  freeIf (0 < before.length) e.line
  if found.2 then do
    inputLogreadParseLine z now (.block line) entry
    freePointer (.block line)
    pure (.success, i)
  else do
    setLine entry (.block line)
    pure (.continue, i)

/-- The variables of `main` in its loop, and the requests passed to `send_push_request`. -/
structure Vars where
  set : Finset Nat
  labels : List Byte
  entries : List Nat
  timestampOldestEntry : Int
  entry : Nat
  phase : Phase
  requests : List PushRequest

def start (cfg : Config) : Prog Block Vars := do
  let entry ← newEntry
  pure ⟨insert cfg.fd ∅, cfg.labels, [], 0, entry, .looping, []⟩

/-- An entry as `send_push_request` packs it. -/
def valueAt (entry : Nat) : Prog Block Entry := do
  let e ← entryAt entry
  let timestamp ← timestampAt e.timestamp
  let line ← stringAt e.line
  pure ⟨timestamp, line⟩

/-- One round of the loop of `push_request_reset`. -/
def freeEntry (entry : Nat) : Prog Block Unit := do
  let e ← entryAt entry
  freeIf (e.timestamp ≠ .null) e.timestamp
  freeIf (e.line ≠ .null) e.line
  free entry

def pushRequestReset (entries : List Nat) : Prog Block Unit := entries.forM freeEntry

/-- The outcome of the send is discarded. -/
def flushPushRequest (v : Vars) : Prog Block Vars := do
  let values ← v.entries.mapM valueAt
  pushRequestReset v.entries
  pure { v with
    entries := []
    timestampOldestEntry := 0
    requests := v.requests ++ [⟨[⟨v.labels, values⟩]⟩] }

def ageCheck (cfg : Config) (now : Int) (v : Vars) : Prog Block Vars :=
  if ageExpired cfg v.timestampOldestEntry now then flushPushRequest v else pure v

def flushFull (v : Vars) : Prog Block Vars :=
  if v.entries.length ≥ maxEntries then flushPushRequest v else pure v

/-- Append the completed entry, flush a full batch, and allocate a fresh entry. -/
def storeEntry (env : LineEnv) (v : Vars) : Prog Block Vars := do
  let oldest :=
    if v.timestampOldestEntry = 0 then cInt env.storeClock else v.timestampOldestEntry
  let v ← flushFull { v with timestampOldestEntry := oldest, entries := v.entries ++ [v.entry] }
  let entry ← newEntry
  pure { v with entry := entry }

structure Inner where
  count : Nat
  start : List Byte
  vars : Vars

def innerBody (cfg : Config) (line : Nat → LineEnv) (s : Inner) : Prog Block (Pass Inner Vars) :=
  if s.start = [] then pure (.leave s.vars)
  else do
    let env := line s.count
    let r ← inputLogread20 cfg.zone env.parseClock s.start s.vars.entry
    match r.1 with
    | .continue => pure (.leave s.vars)
    | .success => do
      let v ← storeEntry env s.vars
      pure (.again ⟨s.count + 1, s.start.drop r.2, v⟩)
    | _ => pure (.again s)

def forward (cfg : Config) (line : Nat → LineEnv) (bytes : List Byte) (v : Vars) :
    Prog Block Vars :=
  loopM (innerBody cfg line) (bytes.length + 1) ⟨0, bytes, v⟩

def stepMain (cfg : Config) (v : Vars) (t : Turn) : Prog Block Vars :=
  match v.phase with
  | .looping => do
    let v ← ageCheck cfg t.now v
    match t.waited with
    | .error => pure { v with phase := .died }
    | .ready f =>
      let selected := select (cfg.fd + 1) v.set f
      let v := { v with set := selected.2 }
      if selected.1 = 0 then pure v
      else
        match t.read with
        | .error => pure { v with phase := .died }
        | .data c =>
          if c.bytes.length = 0 then pure { v with phase := .left }
          else forward cfg t.line c.bytes v
  | _ => pure v

/-- The run of the main loop from an empty heap, if it never fails. -/
def runMain (cfg : Config) (turns : List Turn) : Option (Vars × Heap Block) :=
  (start cfg >>= turns.foldlM (stepMain cfg)) Heap.empty

end Lokicat.Memory
