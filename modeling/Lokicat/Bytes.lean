import Lokicat.Buffers
import Lokicat.LockStep
import Lokicat.MainLoop

/-!
# The program on byte buffers

The main loop with its arrays: the read buffer, the entry pointers of the stream
and the bytes of every line with their terminators. A position in a string is
an index into its buffer, and every access is checked. What becomes of a buffer
that nothing points to any more is not this model's business.
-/

namespace Lokicat.Bytes

open Buffers CString InputLogread Iteration LocalTime LockStep Logproto MainLoop Strptime

def notNul (b : Byte) : Bool := !isNul b

/-- `strlen (buf + i)` -/
def strlen (buf : Buffer Byte) (i : Nat) : Option Nat := countWhile notNul (buf.drop i)

/-- The string at `buf + i`, as a reader of terminated strings sees it. -/
def string (buf : Buffer Byte) (i : Nat) : Option (List Byte) := do
  let n ← strlen buf i
  readMany buf i n

/-- `while (end > str && isspace(*end))`, over the length. -/
def trimTrailing (buf : Buffer Byte) (str : Nat) : Nat → Option Nat
  | 0 => some 0
  | n + 1 =>
    if 0 < n then do
      let b ← read buf (str + n)
      if isspace b then trimTrailing buf str n else some (n + 1)
    else some (n + 1)

/-- The index of the trimmed string and its length. -/
def trimWhitespace (buf : Buffer Byte) (str : Nat) : Option (Nat × Nat) := do
  let n ← countWhile isspace (buf.drop str)
  let str := str + n
  let length ← strlen buf str
  let first ← read buf str
  if isNul first then some (str, length)
  else do
    let length ← trimTrailing buf str length
    some (str, length)

/-- Set so many bytes to NUL. -/
def zero (buf : Buffer Byte) (dst : Nat) : Nat → Option (Buffer Byte)
  | 0 => some buf
  | n + 1 => do
    let buf ← write buf dst 0
    zero buf (dst + 1) n

/-- Copy up to the first NUL, and fill what is left of the length with NUL. -/
def strncpy (buf : Buffer Byte) (dst : Nat) (src : Buffer Byte) (start : Nat) :
    Nat → Option (Buffer Byte)
  | 0 => some buf
  | n + 1 => do
    let b ← read src start
    let buf ← write buf dst b
    if isNul b then zero buf (dst + 1) n else strncpy buf (dst + 1) src (start + 1) n

/-- A `Logproto__Entry` with the buffer its line points to. -/
structure RawEntry where
  timestamp : Option Timestamp
  line : Buffer Byte

/-- `logproto__entry__init`: the line is the static empty string. -/
def RawEntry.init : RawEntry := ⟨none, full [0]⟩

/-- Store a terminated copy of the trimmed text at `line + res`. -/
def storeLine (line : Buffer Byte) (res : Nat) (entry : RawEntry) : Option RawEntry := do
  let (res, length) ← trimWhitespace line res
  let copy ← strncpy (malloc (length + 1)) 0 line res length
  let copy ← write copy length 0
  some { entry with line := copy }

/-- `strptime` returns a pointer into the line, behind what it has read. -/
def inputLogreadParseLine (z : ZoneRule) (now : Int) (line : Buffer Byte) (entry : RawEntry) :
    Option RawEntry := do
  let text ← string line 0
  let openwrt := strptime text openwrtFormat Tm.zero
  match openwrt.1 with
  | some res =>
    storeLine line (text.length - res.length)
      { entry with timestamp := some { Timestamp.init with seconds := (mktime z openwrt.2).1 } }
  | none =>
    let journalctl := strptime text journalctlFormat openwrt.2
    match journalctl.1 with
    | some res =>
      storeLine line (text.length - res.length)
        { entry with
          timestamp := some { Timestamp.init with
            seconds := journalctlSeconds z now journalctl.2 } }
    | none => storeLine line 0 entry

/-- The loop over `buf[i]` for so many bytes: `i` after it, and whether a newline was found. -/
def findNewline (buf : Buffer Byte) (start : Nat) : Nat → Option (Nat × Bool)
  | 0 => some (0, false)
  | n + 1 => do
    let b ← read buf start
    if isNewline b then some (1, true)
    else do
      let (i, found) ← findNewline buf (start + 1) n
      some (i + 1, found)

/-- The arguments are `read_buf`, `start - read_buf` and `len`. -/
def inputLogread20 (z : ZoneRule) (now : Int) (readBuf : Buffer Byte) (start length : Nat)
    (entry : RawEntry) : Option (InputStatus × Nat × RawEntry) := do
  let (i, found) ← findNewline readBuf start length
  let beforeLen ← strlen entry.line 0
  let lineLen := beforeLen + i + 1
  let line ← write (malloc lineLen) (lineLen - 1) 0
  let line ← memcpy line 0 entry.line 0 beforeLen
  let line ← memcpy line beforeLen readBuf start i
  if found then do
    let entry ← inputLogreadParseLine z now line entry
    some (.success, i, entry)
  else some (.continue, i, { entry with line := line })

/-- The variables of `main` in its loop, and the requests passed to `send_push_request`. -/
structure Vars where
  set : Finset Nat
  labels : List Byte
  entries : Buffer RawEntry
  nEntries : Nat
  timestampOldestEntry : Int
  entry : RawEntry
  readBuf : Buffer Byte
  phase : Phase
  requests : List PushRequest

def start (cfg : Config) : Vars where
  set := insert cfg.fd ∅
  labels := cfg.labels
  entries := malloc maxEntries
  nEntries := 0
  timestampOldestEntry := 0
  entry := RawEntry.init
  readBuf := malloc readBufLen
  phase := .looping
  requests := []

/-- An entry as `send_push_request` packs it. -/
def valueOf (entry : RawEntry) : Option Entry := do
  let line ← string entry.line 0
  some ⟨entry.timestamp, line⟩

/-- The pointers stay in the array: only the count is reset. -/
def flushPushRequest (v : Vars) : Option Vars := do
  let batch ← readMany v.entries 0 v.nEntries
  let values ← batch.mapM valueOf
  some { v with
    nEntries := 0
    timestampOldestEntry := 0
    requests := v.requests ++ [⟨[⟨v.labels, values⟩]⟩] }

def ageCheck (cfg : Config) (now : Int) (v : Vars) : Option Vars :=
  if ageExpired cfg v.timestampOldestEntry now then flushPushRequest v else some v

/-- `stream.entries[stream.n_entries++] = entry`, the flush of a full batch and a fresh entry. -/
def storeEntry (env : LineEnv) (v : Vars) : Option Vars := do
  let oldest :=
    if v.timestampOldestEntry = 0 then cInt env.storeClock else v.timestampOldestEntry
  let entries ← write v.entries v.nEntries v.entry
  let v := { v with timestampOldestEntry := oldest, entries := entries, nEntries := v.nEntries + 1 }
  let v ← if v.nEntries ≥ maxEntries then flushPushRequest v else some v
  some { v with entry := RawEntry.init }

/-- The state of the inner loop: lines completed in it, `start` and `end` as
indices into the read buffer, and the variables. -/
structure Inner where
  count : Nat
  start : Nat
  last : Nat
  vars : Vars

/-- The body of `while (start <= end)`. -/
def innerBody (cfg : Config) (line : Nat → LineEnv) (s : Inner) : Option (Pass Inner Vars) :=
  if s.start ≤ s.last then do
    let env := line s.count
    let len := s.last - s.start + 1
    let (status, len, entry) ←
      inputLogread20 cfg.zone env.parseClock s.vars.readBuf s.start len s.vars.entry
    let v := { s.vars with entry := entry }
    match status with
    | .continue => some (.leave v)
    | .success => do
      let v ← storeEntry env v
      some (.again ⟨s.count + 1, s.start + len, s.last, v⟩)
    | _ => some (.again { s with vars := v })
  else some (.leave s.vars)

/-- `read` stores the bytes it returns at the start of the buffer. -/
def fill (buf : Buffer Byte) (bytes : List Byte) : Option (Buffer Byte) :=
  memcpy buf 0 (full bytes) 0 bytes.length

def forward (cfg : Config) (line : Nat → LineEnv) (readLen : Nat) (v : Vars) : Option Vars :=
  tryLoop (innerBody cfg line) (readLen + 1) ⟨0, 0, readLen - 1, v⟩

def stepMain (cfg : Config) (v : Vars) (t : Turn) : Option Vars :=
  match v.phase with
  | .looping => do
    let v ← ageCheck cfg t.now v
    match t.waited with
    | .error => some { v with phase := .died }
    | .ready f =>
      let selected := select (cfg.fd + 1) v.set f
      let v := { v with set := selected.2 }
      if selected.1 = 0 then some v
      else
        match t.read with
        | .error => some { v with phase := .died }
        | .data c => do
          let readBuf ← fill v.readBuf c.bytes
          let v := { v with readBuf := readBuf }
          if c.bytes.length = 0 then some { v with phase := .left }
          else forward cfg t.line c.bytes.length v
  | _ => some v

/-- The run of the main loop, if it never leaves a buffer or uses what was never written. -/
def runMain (cfg : Config) (turns : List Turn) : Option Vars :=
  turns.foldlM (stepMain cfg) (start cfg)

end Lokicat.Bytes
