import Lokicat.ByteSafety
import Lokicat.Footprint
import Lokicat.MainSteps

/-!
# The byte model refines the model on values

Over whole runs the arrays of the main loop hold what the model on values says, with
stale cells behind the batch and behind the bytes last read. No step of a run leaves
a buffer or uses a cell that was never written.
-/

namespace Lokicat.ByteRuns

open Buffers Bytes ByteSafety CString Footprint Heaps InputLogread Iteration LockStep Logproto
  MainLoop MainSteps Push

/-- The variables hold the values of the other model, and the batch is at the
start of its array. -/
structure Agrees (v : Vars) (st : State) : Prop where
  set : v.set = st.set
  labels : v.labels = st.stream.labels
  entries : ∃ stale, v.entries = full (st.stream.entries.map raw) ++ stale
  size : v.entries.length = maxEntries
  count : v.nEntries = st.stream.entries.length
  nulFree : ∀ e ∈ st.stream.entries, NulFree e.line
  oldest : v.timestampOldestEntry = st.timestampOldestEntry
  entry : v.entry = raw st.entry
  buffer : v.readBuf.length = readBufLen
  phase : v.phase = st.phase
  requests : v.requests = (sents st.trace).map Sent.request

/-- At a loop head the batch has room for another entry. -/
structure Ready (v : Vars) (st : State) : Prop extends Agrees v st where
  room : st.stream.entries.length < maxEntries

variable {v : Vars} {st : State}

/-- A change of the trace that no request shows. -/
theorem agrees_emit (h : Agrees v st) {a : Action} (quiet : sents [a] = []) :
    Agrees v (st.emit a) := by
  refine { h with requests := ?_ }
  rw [h.requests, State.emit, sents, sents, List.filterMap_append, ← sents, ← sents, quiet,
    List.append_nil]

/-! ## The batch -/

theorem valueOf_raw {e : Entry} (h : NulFree e.line) : valueOf (raw e) = some e := by
  have hline := string_stringAt (stringAt_stored e.line)
  rw [cstr_eq_self h] at hline
  simp only [valueOf, raw, hline, Option.bind_eq_bind, Option.bind_some]

theorem mapM_valueOf {es : List Entry} (h : ∀ e ∈ es, NulFree e.line) :
    (es.map raw).mapM valueOf = some es := by
  induction es with
  | nil => rfl
  | cons e es ih =>
    rw [List.map_cons, List.mapM_cons, valueOf_raw (h e (by simp)),
      ih fun e' he' => h e' (by simp [he'])]
    rfl

/-- A flush sends the values of the batch. -/
theorem flush_agrees (h : Agrees v st) (cfg : Config) (cause : Cause) (o : PushOutcome) :
    ∃ v', Bytes.flushPushRequest v = some v' ∧ Agrees v' (flush cfg cause o st) ∧
      v'.readBuf = v.readBuf := by
  obtain ⟨stale, hentries⟩ := h.entries
  have hbatch : readMany v.entries 0 v.nEntries = some (st.stream.entries.map raw) := by
    have hread := readMany_gap [] stale (st.stream.entries.map raw)
    rw [hentries, h.count]
    simpa using hread
  let sent : Vars :=
    { v with
      nEntries := 0
      timestampOldestEntry := 0
      requests := v.requests ++ [⟨[⟨v.labels, st.stream.entries⟩]⟩] }
  refine ⟨sent, ?_, ?_, rfl⟩
  · simp only [Bytes.flushPushRequest, hbatch, mapM_valueOf h.nulFree, Option.bind_eq_bind,
      Option.bind_some, sent]
  · exact
      { set := h.set
        labels := h.labels
        entries := ⟨v.entries, rfl⟩
        size := h.size
        count := rfl
        nulFree := by simp
        oldest := rfl
        entry := h.entry
        buffer := h.buffer
        phase := h.phase
        requests := by simp [sent, sents, sentBy, State.pushRequest, h.requests, h.labels] }

theorem ageCheck_ready (h : Ready v st) (cfg : Config) (now : Int) (o : PushOutcome) :
    ∃ v', Bytes.ageCheck cfg now v = some v' ∧ Ready v' (MainLoop.ageCheck cfg now o st) := by
  simp only [Bytes.ageCheck, h.oldest]
  obtain ⟨hzero, hcheck⟩ | ⟨-, hyoung, hcheck⟩ | ⟨hold, hcheck⟩ := ageCheck_cases cfg now o st
  · have hyoung : ageExpired cfg st.timestampOldestEntry now = false :=
      Bool.eq_false_iff.mpr fun h => absurd (ageExpired_pos h) (by omega)
    simp only [hyoung, hcheck, Bool.false_eq_true, if_false]
    exact ⟨v, rfl, h⟩
  · simp only [hyoung, hcheck, Bool.false_eq_true, if_false]
    exact ⟨v, rfl, agrees_emit h.toAgrees rfl, h.room⟩
  · simp only [hold, hcheck, if_true]
    obtain ⟨v', hflush, hagrees, -⟩ :=
      flush_agrees (agrees_emit (a := .looked now) h.toAgrees rfl) cfg (.age now) o
    exact ⟨v', hflush, hagrees, by simp [maxEntries]⟩

/-- A completed entry goes to the next free cell of the array. -/
theorem storeEntry_ready (h : Ready v st) (cfg : Config) (env : LineEnv)
    (nulFree : NulFree st.entry.line) :
    ∃ v', Bytes.storeEntry env v = some v' ∧ Ready v' (MainLoop.storeEntry cfg env st) ∧
      v'.readBuf = v.readBuf := by
  obtain ⟨stale, hentries⟩ := h.entries
  obtain ⟨c, stale, rfl⟩ : ∃ c stale', stale = c :: stale' := by
    apply List.exists_cons_of_ne_nil
    rintro rfl
    have hsize := h.size
    rw [hentries] at hsize
    simp only [List.append_nil, full_length, List.length_map] at hsize
    exact absurd h.room (by omega)
  have hwrite : write v.entries v.nEntries v.entry =
      some (full ((st.stream.entries ++ [st.entry]).map raw) ++ stale) := by
    have hcell := write_append (full (st.stream.entries.map raw)) stale c v.entry
    rw [full_length, List.length_map] at hcell
    rw [hentries, h.count, hcell, h.entry, List.map_append, full_append, List.append_assoc]
    rfl
  have hsize : (full ((st.stream.entries ++ [st.entry]).map raw) ++ stale).length =
      maxEntries := by
    have hsize := h.size
    rw [hentries] at hsize
    simpa [Nat.add_assoc, Nat.add_comm 1] using hsize
  let pushed : Vars :=
    { v with
      timestampOldestEntry :=
        if v.timestampOldestEntry = 0 then cInt env.storeClock else v.timestampOldestEntry
      entries := full ((st.stream.entries ++ [st.entry]).map raw) ++ stale
      nEntries := v.nEntries + 1 }
  have hpushed : Agrees pushed (pushEntry env st) :=
    { set := h.set
      labels := h.labels
      entries := ⟨stale, rfl⟩
      size := hsize
      count := by simp [pushed, pushEntry, h.count]
      nulFree := by
        simp only [pushEntry, List.mem_append, List.mem_singleton]
        rintro e (he | rfl)
        · exact h.nulFree e he
        · exact nulFree
      oldest := by simp [pushed, pushEntry, h.oldest]
      entry := h.entry
      buffer := h.buffer
      phase := h.phase
      requests := (agrees_emit (a := .stored st.stream.entries.length st.entry env.storeClock)
        h.toAgrees rfl).requests }
  have hcount : pushed.nEntries = st.stream.entries.length + 1 := by simp [pushed, h.count]
  simp only [Bytes.storeEntry, hwrite, Option.bind_eq_bind, Option.bind_some]
  obtain ⟨hroom, hstore⟩ | ⟨hfull, hstore⟩ := storeEntry_cases cfg env st
  · have hnot : ¬ v.nEntries + 1 ≥ maxEntries := by
      rw [h.count]
      omega
    simp only [if_neg hnot, hstore]
    exact ⟨_, rfl, ⟨{ hpushed with entry := raw_init.symm }, by simpa [pushEntry] using hroom⟩,
      rfl⟩
  · have hyes : v.nEntries + 1 ≥ maxEntries := by
      rw [h.count]
      exact hfull
    obtain ⟨v', hflush, hagrees, hbuffer⟩ := flush_agrees hpushed cfg .full env.outcome
    simp only [if_pos hyes, hstore]
    refine ⟨{ v' with entry := RawEntry.init }, ?_, ⟨{ hagrees with entry := raw_init.symm }, ?_⟩,
      hbuffer⟩
    · rw [hflush, Option.bind_some]
    · simp [maxEntries]

/-! ## The inner loop -/

/-- The inner loops go in step on a chunk: `start` is behind the bytes that are done, and
`end` is at the last byte. -/
structure InnerAgrees (bytes : List Byte) (s : Bytes.Inner) (t : MainLoop.Inner) : Prop where
  count : s.count = t.count
  done : ∃ front, bytes = front ++ t.start ∧ s.start = front.length
  last : s.last = bytes.length - 1
  buffer : ∃ back, s.vars.readBuf = full bytes ++ back
  ready : Ready s.vars t.main

theorem inputLogread20_taken (z : LocalTime.ZoneRule) (now : Int) (buf : List Byte)
    (entry : Entry) :
    (InputLogread.inputLogread20 z now buf entry).2.1 = (InputLogread.findNewline buf).1 := by
  simp only [InputLogread.inputLogread20]
  split <;> rfl

theorem innerBody_inStep (cfg : Config) (line : Nat → LineEnv) {bytes : List Byte}
    (hne : bytes ≠ []) (s : Bytes.Inner) (t : MainLoop.Inner) (h : InnerAgrees bytes s t) :
    ∃ r, Bytes.innerBody cfg line s = some r ∧
      InStep (InnerAgrees bytes) Ready r (MainLoop.innerBody cfg line t) := by
  obtain ⟨count, start, last, v⟩ := s
  obtain ⟨count', rest, st⟩ := t
  obtain ⟨hcount, ⟨front, hbytes, hstart⟩, hlast, ⟨back, hbuffer⟩, hready⟩ := h
  simp only at hcount hbytes hstart hlast hbuffer hready
  subst hcount hstart hlast
  have hlength : bytes.length = front.length + rest.length := by
    rw [hbytes, List.length_append]
  have hpos : 0 < bytes.length := List.length_pos_iff.mpr hne
  by_cases hnil : rest = []
  · have hover : ¬ front.length ≤ bytes.length - 1 := by
      rw [hnil, List.length_nil] at hlength
      omega
    simp only [Bytes.innerBody, MainLoop.innerBody, if_neg hover, if_pos hnil]
    exact ⟨_, rfl, .leave hready⟩
  · have hrest : 0 < rest.length := List.length_pos_iff.mpr hnil
    have hunder : front.length ≤ bytes.length - 1 := by omega
    have hlen : bytes.length - 1 - front.length + 1 = rest.length := by omega
    have hcall := inputLogread20_chunk cfg.zone (line count).parseClock front rest back st.entry
    have htaken := inputLogread20_taken cfg.zone (line count).parseClock rest st.entry
    have hle := findNewline_le rest
    rw [← full_append, ← hbytes, ← hbuffer, ← hready.entry] at hcall
    simp only [Bytes.innerBody, MainLoop.innerBody, if_pos hunder, if_neg hnil, hlen, hcall,
      Option.bind_eq_bind, Option.bind_some]
    generalize hvalues : InputLogread.inputLogread20 cfg.zone (line count).parseClock rest
      st.entry = r at htaken
    obtain ⟨status, taken, e⟩ := r
    simp only at htaken
    subst htaken
    obtain ⟨rfl, htext⟩ | ⟨rfl, htext⟩ := inputLogread20_cases hnil hvalues
    · have hcalled : Agrees { v with entry := raw e }
          { st.emit (.call rest.length (InputLogread.findNewline rest).1 .success) with
            entry := e } :=
        { agrees_emit (a := .call _ _ _) hready.toAgrees rfl with entry := rfl }
      have hcompleted : Ready { v with entry := raw e } (State.emit
          { st.emit (.call rest.length (InputLogread.findNewline rest).1 .success) with entry := e }
          (.completed e (line count).parseClock)) := ⟨agrees_emit hcalled rfl, hready.room⟩
      obtain ⟨v', hstore, hready', hbuffer'⟩ := storeEntry_ready hcompleted cfg (line count) htext
      simp only [hstore, Option.bind_some]
      refine ⟨_, rfl, .again ⟨rfl, ⟨front ++ rest.take (InputLogread.findNewline rest).1, ?_, ?_⟩,
        rfl, ⟨back, hbuffer'.trans hbuffer⟩, hready'⟩⟩
      · rw [List.append_assoc, List.take_append_drop, hbytes]
      · simp [hle]
    · exact ⟨_, rfl, .leave
        ⟨{ agrees_emit (a := .call _ _ _) hready.toAgrees rfl with entry := rfl }, hready.room⟩⟩

/-- `read` puts the bytes at the start of the buffer. -/
theorem fill_fits {buf : Buffer Byte} {bytes : List Byte} (h : bytes.length ≤ buf.length) :
    fill buf bytes = some (full bytes ++ buf.drop bytes.length) := by
  have hlength : (buf.take bytes.length).length = bytes.length := by simp [h]
  have hcopy := memcpy_gap [] (buf.drop bytes.length) [] [] hlength
  simpa [fill] using hcopy

theorem forward_ready (cfg : Config) (line : Nat → LineEnv) {bytes : List Byte} (hne : bytes ≠ [])
    (hbuffer : ∃ back, v.readBuf = full bytes ++ back) (h : Ready v st) :
    ∃ v', Bytes.forward cfg line bytes.length v = some v' ∧
      Ready v' (MainLoop.forward cfg line bytes st) := by
  have hstart : InnerAgrees bytes ⟨0, 0, bytes.length - 1, v⟩ ⟨0, bytes, st⟩ :=
    ⟨rfl, ⟨[], rfl, rfl⟩, rfl, hbuffer, h⟩
  exact tryLoop_inStep (InnerAgrees bytes) Ready
    (fun s t => innerBody_inStep cfg line hne s t) hstart (loop_forward cfg line bytes st)

/-! ## The main loop -/

theorem stepMain_ready (cfg : Config) (t : Turn) (h : Ready v st) :
    ∃ v', Bytes.stepMain cfg v t = some v' ∧ Ready v' (MainLoop.stepMain cfg st t) := by
  by_cases hphase : st.phase = .looping
  · have hv : v.phase = .looping := by rw [h.phase, hphase]
    obtain ⟨v', hcheck, hready⟩ := ageCheck_ready h cfg t.now t.outcome
    have hset := hready.set
    have hstep := stepMain_cases cfg t hphase
    generalize MainLoop.stepMain cfg st t = st' at hstep
    simp only [Bytes.stepMain, hv, hcheck, Option.bind_eq_bind, Option.bind_some]
    cases hstep with
    | waitFailed waited =>
      simp only [waited]
      exact ⟨_, rfl, { hready with phase := rfl }⟩
    | idle f waited none =>
      simp only [waited, hset, none, if_true]
      exact ⟨_, rfl, { hready with set := rfl }⟩
    | readFailed f waited some read =>
      simp only [waited, hset, some, read, if_false]
      exact ⟨_, rfl, { hready with set := rfl, phase := rfl }⟩
    | ended f c waited some read eof =>
      simp only [waited, hset, some, read, eof, List.length_nil, if_true, if_false]
      exact ⟨_, rfl, { hready with set := rfl, phase := rfl }⟩
    | data f c waited some read bytes =>
      have hfits : c.bytes.length ≤ v'.readBuf.length := hready.buffer ▸ c.fits
      have hfill := fill_fits hfits
      simp only [waited, hset, some, read, hfill, List.length_eq_zero_iff, bytes, if_false,
        Option.bind_some]
      apply forward_ready cfg t.line bytes ⟨_, rfl⟩
      have hlength : (full c.bytes ++ v'.readBuf.drop c.bytes.length).length = readBufLen := by
        rw [List.length_append, List.length_drop, full_length, hready.buffer] at *
        omega
      have hfilled : Agrees
          { v' with
            set := (select (cfg.fd + 1) (MainLoop.ageCheck cfg t.now t.outcome st).set f).2
            readBuf := full c.bytes ++ v'.readBuf.drop c.bytes.length }
          { MainLoop.ageCheck cfg t.now t.outcome st with
            set := (select (cfg.fd + 1) (MainLoop.ageCheck cfg t.now t.outcome st).set f).2 } :=
        { hready with set := rfl, buffer := hlength }
      exact ⟨agrees_emit hfilled rfl, hready.room⟩
  · have hv : Bytes.stepMain cfg v t = some v := by
      rw [← h.phase] at hphase
      cases hphase' : v.phase <;> simp_all [Bytes.stepMain]
    rw [stepMain_stopped cfg t hphase, hv]
    exact ⟨v, rfl, h⟩

theorem ready_start (cfg : Config) : Ready (start cfg) (init cfg) where
  set := rfl
  labels := rfl
  entries := ⟨malloc maxEntries, rfl⟩
  size := malloc_length _
  count := rfl
  nulFree := by simp [init]
  oldest := rfl
  entry := rfl
  buffer := malloc_length _
  phase := rfl
  requests := rfl
  room := by simp [init, maxEntries]

/-- No run leaves a buffer or uses a cell that was never written, and it sends the requests
of the model on values. -/
theorem runMain_succeeds (cfg : Config) (turns : List Turn) :
    ∃ v, Bytes.runMain cfg turns = some v ∧
      v.phase = (MainLoop.runMain cfg turns).phase ∧
      v.requests = (sents (MainLoop.runMain cfg turns).trace).map Sent.request ∧
      v.entry = raw (MainLoop.runMain cfg turns).entry ∧
      ∃ stale, v.entries =
        full ((MainLoop.runMain cfg turns).stream.entries.map raw) ++ stale := by
  obtain ⟨v, hrun, hready⟩ := foldlM_inStep Ready (fun s t e h => stepMain_ready cfg e h)
    (ready_start cfg) turns
  exact ⟨v, hrun, hready.phase, hready.requests, hready.entry, hready.entries⟩

end Lokicat.ByteRuns
