import Lokicat.Delivery
import Lokicat.Footprint

/-!
# Who owns which block

The program on the heap does what the program on values does: it never frees or
touches a block that is not in use. Besides the blocks of the current entry and of
the batch, only old texts can be in use that were replaced without being freed, and
one is lost at each read that comes while the pending text starts with NUL.
-/

namespace Lokicat.Ownership

open Chunks CString Delivery Footprint Framing Heaps InputLogread Iteration Logproto MainLoop
  MainSteps Memory Push

/-- The blocks of the batch. -/
def batchCells (held : List Held) : Multiset (Nat × Block) := (held.map Held.cells).sum

/-- Exact ownership: the blocks in use are the current entry, with the pending text if
there is one, and each entry of the batch with its line and its timestamp if set. -/
def Owned (h : Heap Block) (v : Vars) : Prop :=
  ∃ (cur : Held) (held : List Held), cur.address = v.entry ∧ cur.timestamp = none ∧
    held.map Held.address = v.entries ∧ (∀ x ∈ held, x.line ≠ none) ∧
    Owns h (cur.cells + batchCells held)

/-- The variables of the two programs agree, with these blocks for the batch. -/
structure Agrees (v : Vars) (st : State) (held : List Held) : Prop where
  set : v.set = st.set
  labels : v.labels = st.stream.labels
  addresses : v.entries = held.map Held.address
  values : st.stream.entries = held.map Held.value
  parsed : ∀ x ∈ held, x.Parsed
  oldest : v.timestampOldestEntry = st.timestampOldestEntry
  phase : v.phase = st.phase
  requests : v.requests = (sents st.trace).map Sent.request

/-- The current entry, whose line is either not yet set or a text that is not empty. -/
structure Pending (v : Vars) (st : State) (cur : Held) : Prop where
  address : cur.address = v.entry
  value : cur.value = st.entry
  unstamped : cur.timestamp = none
  text : ∀ l ∈ cur.line, l.2 ≠ []

/-- The states of the two programs match, up to the blocks that are lost. -/
def Matches (lost : Multiset (Nat × Block)) (cur : Held) (v : Vars) (m : Multiset (Nat × Block))
    (st : State) : Prop :=
  ∃ held, Agrees v st held ∧ Pending v st cur ∧ m = batchCells held + (lost + cur.cells)

variable {lost m : Multiset (Nat × Block)} {cur : Held} {v : Vars} {st : State}

theorem pending_fresh {a : Nat} (hv : v.entry = a) (hst : st.entry = Entry.init) :
    Pending v st (Held.fresh a) :=
  ⟨hv.symm, by rw [hst]; rfl, rfl, by simp [Held.fresh]⟩

/-- The text is lost if it starts with NUL. -/
theorem card_orphan (h : Pending v st cur) :
    cur.orphan.card = (st.entry.line.head?.any isNul).toNat := by
  rw [← h.value]
  cases hline : cur.line with
  | none => simp [Held.orphan, Held.value, hline]
  | some l =>
    obtain ⟨b, bs, hl⟩ := List.exists_cons_of_ne_nil (h.text l hline)
    cases hb : isNul b <;> simp [Held.orphan, Held.value, hline, hl, cstr, visible, hb]

/-! ## The batch -/

/-- The variables after a flush of these values. -/
def flushed (v : Vars) (held : List Held) : Vars :=
  { v with
    entries := []
    timestampOldestEntry := 0
    requests := v.requests ++ [⟨[⟨v.labels, held.map Held.value⟩]⟩] }

theorem agrees_flush {held : List Held} (h : Agrees v st held) (cfg : Config) (cause : Cause)
    (o : PushOutcome) : Agrees (flushed v held) (flush cfg cause o st) [] where
  set := h.set
  labels := h.labels
  addresses := rfl
  values := rfl
  parsed := by simp
  oldest := rfl
  phase := h.phase
  requests := by
    simp [flushed, sents, sentBy, State.pushRequest, h.requests, h.labels, ← h.values]

/-- A change of the entry and of what no request shows. -/
theorem agrees_frame {held : List Held} (h : Agrees v st held) {st' : State}
    (set : st'.set = st.set) (stream : st'.stream = st.stream)
    (oldest : st'.timestampOldestEntry = st.timestampOldestEntry) (phase : st'.phase = st.phase)
    (sent : sents st'.trace = sents st.trace) : Agrees v st' held where
  set := h.set.trans set.symm
  labels := by rw [h.labels, stream]
  addresses := h.addresses
  values := by rw [stream, h.values]
  parsed := h.parsed
  oldest := h.oldest.trans oldest.symm
  phase := h.phase.trans phase.symm
  requests := by rw [h.requests, sent]

theorem agrees_emit {held : List Held} (h : Agrees v st held) {a : Action}
    (quiet : sents [a] = []) : Agrees v (st.emit a) held := by
  refine agrees_frame h rfl rfl rfl rfl ?_
  rw [State.emit, sents, List.filterMap_append, ← sents, ← sents, quiet, List.append_nil]

theorem runs_ageCheck (cfg : Config) (now : Int) (o : PushOutcome)
    (h : Matches lost cur v m st) :
    Runs (Memory.ageCheck cfg now v) m fun v' m' =>
      Matches lost cur v' m' (MainLoop.ageCheck cfg now o st) := by
  obtain ⟨held, hagrees, hpending, rfl⟩ := h
  simp only [Memory.ageCheck, hagrees.oldest]
  obtain ⟨hzero, hcheck⟩ | ⟨-, hyoung, hcheck⟩ | ⟨hold, hcheck⟩ := ageCheck_cases cfg now o st
  · have hyoung : ageExpired cfg st.timestampOldestEntry now = false :=
      Bool.eq_false_iff.mpr fun h => absurd (ageExpired_pos h) (by omega)
    simp only [hyoung, hcheck, Bool.false_eq_true, if_false]
    exact runs_pure ⟨held, hagrees, hpending, rfl⟩
  · simp only [hyoung, hcheck, Bool.false_eq_true, if_false]
    exact runs_pure ⟨held, agrees_emit hagrees rfl, { hpending with }, rfl⟩
  · simp only [hold, hcheck, if_true]
    refine runs_mono (ends_flushPushRequest hagrees.parsed hagrees.addresses _) ?_
    rintro _ _ ⟨rfl, rfl⟩
    refine ⟨[], agrees_flush (agrees_emit hagrees rfl) cfg _ o, { hpending with }, ?_⟩
    simp [batchCells]

/-- The variables before the test for a full batch. -/
def pushed (env : LineEnv) (v : Vars) : Vars :=
  { v with
    timestampOldestEntry :=
      if v.timestampOldestEntry = 0 then cInt env.storeClock else v.timestampOldestEntry
    entries := v.entries ++ [v.entry] }

theorem agrees_push {held : List Held} (h : Agrees v st held) (env : LineEnv)
    (address : cur.address = v.entry) (value : cur.value = st.entry) (parsed : cur.Parsed) :
    Agrees (pushed env v) (pushEntry env st) (held ++ [cur]) where
  set := h.set
  labels := h.labels
  addresses := by simp [pushed, h.addresses, address]
  values := by simp [pushEntry, h.values, value]
  parsed := by
    simp only [List.mem_append, List.mem_singleton]
    rintro x (hx | rfl)
    · exact h.parsed x hx
    · exact parsed
  oldest := by simp [pushed, pushEntry, h.oldest]
  phase := h.phase
  requests := (agrees_emit h rfl).requests

/-- The current entry changes hands, and a fresh one takes its place. -/
theorem runs_storeEntry (cfg : Config) (env : LineEnv) {held : List Held} (h : Agrees v st held)
    (address : cur.address = v.entry) (value : cur.value = st.entry) (parsed : cur.Parsed) :
    Runs (Memory.storeEntry env v) (batchCells held + (lost + cur.cells)) fun v' m' =>
      ∃ a, Matches lost (Held.fresh a) v' m' (MainLoop.storeEntry cfg env st) := by
  have hpushed := agrees_push h env address value parsed
  have hcells : batchCells held + (lost + cur.cells) = batchCells (held ++ [cur]) + lost := by
    rw [batchCells, batchCells, List.map_append, List.sum_append, List.map_singleton,
      List.sum_singleton]
    abel
  have hlength : (pushed env v).entries.length = st.stream.entries.length + 1 := by
    simp [pushed, h.addresses, h.values]
  have hbatch : ∃ v' held', Ends (flushFull (pushed env v)) (batchCells (held ++ [cur]) + lost) v'
      (batchCells held' + lost) ∧
      ∀ a, Agrees { v' with entry := a } (MainLoop.storeEntry cfg env st) held' := by
    rw [flushFull, hlength]
    obtain ⟨hroom, hstore⟩ | ⟨hfull, hstore⟩ := storeEntry_cases cfg env st
    · refine ⟨pushed env v, held ++ [cur], ?_, fun a => ?_⟩
      · rw [if_neg (by omega)]
        exact ends_pure _ _
      · rw [hstore]
        exact { hpushed with }
    · refine ⟨flushed (pushed env v) (held ++ [cur]), [], ?_, fun a => ?_⟩
      · rw [if_pos hfull, batchCells, batchCells, List.map_nil, List.sum_nil, zero_add]
        exact ends_flushPushRequest hpushed.parsed hpushed.addresses _
      · rw [hstore]
        exact { agrees_flush hpushed cfg .full env.outcome with }
  obtain ⟨v', held', hends, hagrees⟩ := hbatch
  rw [hcells]
  refine runs_then hends ?_
  refine runs_bind (runs_newEntry _) ?_
  rintro a _ rfl
  refine runs_pure ⟨a, held', hagrees a, pending_fresh rfl ?_, add_assoc _ _ _⟩
  obtain ⟨-, hstore⟩ | ⟨-, hstore⟩ := storeEntry_cases cfg env st <;> rw [hstore]

/-! ## The inner loop -/

/-- The inner loops go in step, and what is lost in the end was lost before or is the
text that the first call replaces. -/
def InnerMatches (total : Multiset (Nat × Block)) (m : Multiset (Nat × Block)) (s : Memory.Inner)
    (t : MainLoop.Inner) : Prop :=
  s.count = t.count ∧ s.start = t.start ∧ ∃ lost cur, Matches lost cur s.vars m t.main ∧
    lost + cur.orphan = total ∧ (t.start = [] → cur.orphan = 0)

theorem runs_innerBody (cfg : Config) (line : Nat → LineEnv) (total : Multiset (Nat × Block))
    (s : Memory.Inner) (t : MainLoop.Inner) (h : InnerMatches total m s t) :
    Runs (Memory.innerBody cfg line s) m fun r m' =>
      InStep (InnerMatches total m') (fun v' st' => ∃ cur', Matches total cur' v' m' st') r
        (MainLoop.innerBody cfg line t) := by
  obtain ⟨count, bytes, v⟩ := s
  obtain ⟨count', bytes', st⟩ := t
  obtain ⟨hcount, hstart, lost, cur, ⟨held, hagrees, hpending, rfl⟩, hlost, hend⟩ := h
  simp only at hcount hstart hagrees hpending hend
  subst hcount hstart
  by_cases hnil : bytes = []
  · simp only [Memory.innerBody, MainLoop.innerBody, if_pos hnil]
    rw [hend hnil, add_zero] at hlost
    subst hlost
    exact runs_pure (.leave ⟨cur, held, hagrees, hpending, rfl⟩)
  · simp only [Memory.innerBody, MainLoop.innerBody, if_neg hnil, ← hpending.value,
      ← hpending.address]
    rw [← add_assoc]
    refine runs_bind (runs_inputLogread20 cfg.zone _ bytes hpending.unstamped _) ?_
    rintro ⟨status, taken⟩ _ ⟨x', hvalues, rfl, haddress, hline, hcontinue⟩
    simp only [hvalues]
    rw [add_assoc (batchCells held), hlost, add_assoc]
    obtain ⟨rfl, htext⟩ | ⟨rfl, htext⟩ := inputLogread20_cases hnil hvalues
    · have hagrees' : Agrees v (State.emit
          { st.emit (.call bytes.length taken .success) with entry := x'.value }
          (.completed x'.value (line count).parseClock)) held :=
        agrees_frame hagrees rfl rfl rfl rfl (by simp [sents, State.emit])
      refine runs_bind (runs_storeEntry cfg (line count) hagrees'
        (haddress.trans hpending.address) rfl ⟨hline, htext⟩) ?_
      rintro v' m' ⟨a, hmatches⟩
      exact runs_pure (.again ⟨rfl, rfl, total, _, hmatches, add_zero _, fun _ => rfl⟩)
    · have hagrees' : Agrees v { st.emit (.call bytes.length taken .continue) with
          entry := x'.value } held :=
        agrees_frame hagrees rfl rfl rfl rfl (by simp [sents, State.emit])
      refine runs_pure (.leave ⟨x', held, hagrees', ?_, rfl⟩)
      refine ⟨haddress.trans hpending.address, rfl, hcontinue rfl, ?_⟩
      intro l hl
      rwa [Held.value, Option.mem_def.mp hl] at htext

theorem runs_forward (cfg : Config) (line : Nat → LineEnv) {bytes : List Byte} (hne : bytes ≠ [])
    (h : Matches lost cur v m st) :
    Runs (Memory.forward cfg line bytes v) m fun v' m' =>
      ∃ cur', Matches (lost + cur.orphan) cur' v' m' (MainLoop.forward cfg line bytes st) := by
  have hstart : InnerMatches (lost + cur.orphan) m ⟨0, bytes, v⟩ ⟨0, bytes, st⟩ :=
    ⟨rfl, rfl, lost, cur, h, rfl, fun hnil => absurd hnil hne⟩
  exact runs_loopM (InnerMatches (lost + cur.orphan))
    (fun m' v' st' => ∃ cur', Matches (lost + cur.orphan) cur' v' m' st')
    (fun m s t => runs_innerBody cfg line _ s t) hstart (loop_forward cfg line bytes st)

/-! ## The main loop -/

/-- What an iteration loses: nothing, or what a read replaces. -/
theorem runs_stepMain (cfg : Config) (t : Turn) (h : Matches lost cur v m st) :
    Runs (Memory.stepMain cfg v t) m fun v' m' => ∃ lost' cur',
      Matches lost' cur' v' m' (MainLoop.stepMain cfg st t) ∧
      ((lost' = lost ∧ reads (MainLoop.stepMain cfg st t).trace = reads st.trace) ∨
        ∃ bytes, lost' = lost + cur.orphan ∧
          reads (MainLoop.stepMain cfg st t).trace = reads st.trace ++ [bytes]) := by
  by_cases hphase : st.phase = .looping
  · have hv : v.phase = .looping := by
      obtain ⟨held, hagrees, -⟩ := h
      rw [hagrees.phase, hphase]
    simp only [Memory.stepMain, hv]
    refine runs_bind (runs_ageCheck cfg t.now t.outcome h) ?_
    rintro v' _ ⟨held, hagrees, hpending, rfl⟩
    have hset := hagrees.set
    have hreads := ageCheck_reads cfg t.now t.outcome st
    have hstep := stepMain_cases cfg t hphase
    generalize MainLoop.stepMain cfg st t = st' at hstep
    cases hstep with
    | waitFailed waited =>
      simp only [waited]
      exact runs_pure ⟨lost, cur, ⟨held, { hagrees with phase := rfl }, { hpending with }, rfl⟩,
        .inl ⟨rfl, hreads⟩⟩
    | idle f waited none =>
      simp only [waited, hset, none, if_true]
      exact runs_pure ⟨lost, cur, ⟨held, { hagrees with set := rfl }, { hpending with }, rfl⟩,
        .inl ⟨rfl, hreads⟩⟩
    | readFailed f waited some read =>
      simp only [waited, hset, some, read, if_false]
      exact runs_pure ⟨lost, cur,
        ⟨held, { hagrees with set := rfl, phase := rfl }, { hpending with }, rfl⟩,
        .inl ⟨rfl, hreads⟩⟩
    | ended f c waited some read eof =>
      simp only [waited, hset, some, read, eof, List.length_nil, if_true, if_false]
      exact runs_pure ⟨lost, cur,
        ⟨held, { hagrees with set := rfl, phase := rfl }, { hpending with }, rfl⟩,
        .inl ⟨rfl, hreads⟩⟩
    | data f c waited some read bytes =>
      simp only [waited, hset, some, read, List.length_eq_zero_iff, bytes, if_false]
      let selected := (select (cfg.fd + 1) (MainLoop.ageCheck cfg t.now t.outcome st).set f).2
      have hselected : Agrees { v' with set := selected }
          { MainLoop.ageCheck cfg t.now t.outcome st with set := selected } held :=
        { hagrees with set := rfl }
      have hread := agrees_emit (a := .read c.bytes) hselected rfl
      refine runs_mono (runs_forward cfg t.line bytes ⟨held, hread, { hpending with }, rfl⟩) ?_
      rintro v'' m' ⟨cur', hmatches⟩
      refine ⟨_, cur', hmatches, .inr ⟨c.bytes, rfl, ?_⟩⟩
      rw [forward_reads, ← hreads]
      simp [State.emit, reads]
  · have hv : Memory.stepMain cfg v t = pure v := by
      obtain ⟨held, hagrees, -⟩ := h
      rw [← hagrees.phase] at hphase
      cases hphase' : v.phase <;> simp_all [Memory.stepMain]
    rw [stepMain_stopped cfg t hphase, hv]
    exact runs_pure ⟨lost, cur, h, .inl ⟨rfl, rfl⟩⟩

/-! ## Runs -/

/-- The heap determines what a pointer leads to. -/
theorem pointed_unique {γ : Type} {h : Heap Block} (own : Owns h m) {content : γ → Block}
    (inj : Function.Injective content) {absent : Pointer} (outside : ∀ a, absent ≠ .block a)
    {s t : Option (Nat × γ)} (hs : ∀ p, s = some p → (p.1, content p.2) ∈ m)
    (ht : ∀ p, t = some p → (p.1, content p.2) ∈ m)
    (pointers : s.elim absent (fun p => .block p.1) = t.elim absent fun p => .block p.1) :
    s = t := by
  cases s with
  | none =>
    cases t with
    | none => rfl
    | some q => exact absurd pointers (outside q.1)
  | some p =>
    cases t with
    | none => exact absurd pointers.symm (outside p.1)
    | some q =>
      have haddress : p.1 = q.1 := Pointer.block.inj pointers
      have hcontent : content p.2 = content q.2 := by
        apply owns_functional own (hs p rfl)
        rw [haddress]
        exact ht q rfl
      rw [Prod.ext haddress (inj hcontent)]

theorem held_unique {h : Heap Block} (own : Owns h m) {x y : Held} (hx : x.cells ≤ m)
    (hy : y.cells ≤ m) (address : x.address = y.address) : x = y := by
  have hblock : x.block = y.block := by
    apply Block.entry.inj
    apply owns_functional own (Multiset.mem_of_le hx (entry_mem x))
    rw [address]
    exact Multiset.mem_of_le hy (entry_mem y)
  have htimestamp : x.timestamp = y.timestamp :=
    pointed_unique own (fun _ _ => Block.timestamp.inj) (by simp)
      (fun _ h => Multiset.mem_of_le hx (timestamp_mem h))
      (fun _ h => Multiset.mem_of_le hy (timestamp_mem h)) (congrArg EntryBlock.timestamp hblock)
  have hline : x.line = y.line :=
    pointed_unique own (fun _ _ => Block.text.inj) (by simp)
      (fun _ h => Multiset.mem_of_le hx (line_mem h))
      (fun _ h => Multiset.mem_of_le hy (line_mem h)) (congrArg EntryBlock.line hblock)
  cases x
  cases y
  simp_all

theorem batch_unique {h : Heap Block} (own : Owns h m) {xs ys : List Held}
    (hx : ∀ x ∈ xs, x.cells ≤ m) (hy : ∀ y ∈ ys, y.cells ≤ m)
    (addresses : xs.map Held.address = ys.map Held.address) : xs = ys := by
  induction xs generalizing ys with
  | nil => exact (List.map_eq_nil_iff.mp addresses.symm).symm
  | cons x xs ih =>
    obtain ⟨y, ys', rfl, hhead, htail⟩ := List.map_eq_cons_iff.mp addresses.symm
    rw [held_unique own (hx x (by simp)) (hy y (by simp)) hhead.symm,
      ih (fun z hz => hx z (by simp [hz])) (fun z hz => hy z (by simp [hz])) htail.symm]

theorem cells_le_batch {held : List Held} {x : Held} (hx : x ∈ held) :
    x.cells ≤ batchCells held := List.le_sum_of_mem (List.mem_map_of_mem hx)

/-- Exact ownership is the absence of lost blocks. -/
theorem owned_iff {h : Heap Block} {held : List Held} (own : Owns h m) (hagrees : Agrees v st held)
    (hpending : Pending v st cur) (hm : m = batchCells held + (lost + cur.cells)) :
    Owned h v ↔ lost = 0 := by
  constructor
  · rintro ⟨cur', held', haddress, -, haddresses, -, own'⟩
    have heq := owns_unique own own'
    have hcur : cur = cur' := by
      refine held_unique own ?_ ?_ (hpending.address.trans haddress.symm)
      · rw [hm, ← add_assoc]
        exact Multiset.le_add_left _ _
      · rw [heq]
        exact Multiset.le_add_right _ _
    have hheld : held = held' := by
      refine batch_unique own (fun x hx => ?_) (fun x hx => ?_)
        (hagrees.addresses.symm.trans haddresses.symm)
      · rw [hm]
        exact (cells_le_batch hx).trans (Multiset.le_add_right _ _)
      · rw [heq]
        exact (cells_le_batch hx).trans (Multiset.le_add_left _ _)
    rw [heq, ← hcur, ← hheld, add_comm cur.cells, add_right_inj] at hm
    exact right_eq_add.mp hm
  · rintro rfl
    refine ⟨cur, held, hpending.address, hpending.unstamped, hagrees.addresses.symm,
      fun x hx => (hagrees.parsed x hx).line, ?_⟩
    rw [zero_add, add_comm] at hm
    rwa [← hm]

/-- After these turns the programs match, and a text is lost for every read that came while the
pending text started with NUL. -/
def RunMatches (cfg : Config) (turns : List Turn) (v : Vars) (m : Multiset (Nat × Block)) : Prop :=
  ∃ lost cur, Matches lost cur v m (MainLoop.runMain cfg turns) ∧
    lost.card = hiddenHeads isNul isNewline [] (reads (MainLoop.runMain cfg turns).trace)

theorem runs_start (cfg : Config) : Runs (start cfg) 0 (RunMatches cfg []) := by
  refine runs_bind (runs_newEntry 0) ?_
  rintro a _ rfl
  refine runs_pure ⟨0, Held.fresh a, ⟨[], ?_, pending_fresh rfl rfl, rfl⟩, rfl⟩
  exact ⟨rfl, rfl, rfl, rfl, by simp, rfl, rfl, rfl⟩

theorem runs_turn (cfg : Config) (turns : List Turn) (t : Turn) (h : RunMatches cfg turns v m) :
    Runs (Memory.stepMain cfg v t) m (RunMatches cfg (turns ++ [t])) := by
  obtain ⟨lost, cur, hmatches, hlost⟩ := h
  refine runs_mono (runs_stepMain cfg t hmatches) ?_
  rintro v' m' ⟨lost', cur', hmatches', hstep⟩
  rw [RunMatches, MainLoop.runMain, run_concat]
  refine ⟨lost', cur', hmatches', ?_⟩
  obtain ⟨rfl, hreads⟩ | ⟨bytes, rfl, hreads⟩ := hstep
  · rw [hlost, ← MainLoop.runMain, hreads]
  · obtain ⟨held, -, hpending, -⟩ := hmatches
    have hline : (MainLoop.runMain cfg turns).entry.line =
        (scanChunks isNul isNewline [] (reads (MainLoop.runMain cfg turns).trace)).2 := by
      rw [pending_run, framed]
    rw [← MainLoop.runMain, hreads, hiddenHeads_concat, Multiset.card_add, hlost,
      card_orphan hpending, hline]

theorem runs_main (cfg : Config) (turns : List Turn) :
    Runs (start cfg >>= turns.foldlM (Memory.stepMain cfg)) 0 (RunMatches cfg turns) := by
  refine runs_bind (runs_start cfg) ?_
  intro v m h
  exact runs_foldlM (RunMatches cfg) (fun ts t v m h => runs_turn cfg ts t h) h turns

/-- The program on the heap sends the requests of the program on values. -/
theorem runMain_refines (cfg : Config) (turns : List Turn) :
    ∃ v h, Memory.runMain cfg turns = some (v, h) ∧
      v.phase = (MainLoop.runMain cfg turns).phase ∧
      v.requests = (sents (MainLoop.runMain cfg turns).trace).map Sent.request := by
  obtain ⟨v, h, m, hrun, -, -, -, ⟨held, hagrees, -, -⟩, -⟩ :=
    runs_main cfg turns Heap.empty owns_empty
  exact ⟨v, h, hrun, hagrees.phase, hagrees.requests⟩

/-- A run never frees or touches a block that is not in use, and at its end the blocks
in use are exactly those owned if and only if no read has come while the bytes before it
ended inside a line whose first byte is NUL. -/
theorem heap_owned_iff (cfg : Config) (turns : List Turn) :
    ∃ v h, Memory.runMain cfg turns = some (v, h) ∧
      (Owned h v ↔
        HeadsShown isNul isNewline (reads (MainLoop.runMain cfg turns).trace)) := by
  obtain ⟨v, h, m, hrun, own, lost, cur, ⟨held, hagrees, hpending, hm⟩, hlost⟩ :=
    runs_main cfg turns Heap.empty owns_empty
  refine ⟨v, h, hrun, ?_⟩
  rw [owned_iff own hagrees hpending hm, ← Multiset.card_eq_zero, hlost, hiddenHeads_eq_zero]

/-- A NUL and then another byte: the block of the first text stays in use, and the line of
the current entry, which is all there is, is the other block. -/
theorem nul_text_lost : ∃ v h,
    Memory.runMain utcConfig [readTurn 1 [0], readTurn 1 [97]] = some (v, h) ∧ ¬Owned h v := by
  refine ⟨_, _, rfl, ?_⟩
  rintro ⟨cur, held, haddress, htimestamp, haddresses, -, own⟩
  replace haddress : cur.address = 0 := haddress
  have hheld : held = [] := List.map_eq_nil_iff.mp haddresses
  have hentry := (own.exact 0 (.entry ⟨.null, .block 2⟩)).mp rfl
  have hlost := (own.exact 1 (.text [0])).mp rfl
  rw [hheld, batchCells, List.map_nil, List.sum_nil, add_zero] at own hentry hlost
  have hblock : cur.block = ⟨.null, .block 2⟩ := by
    apply Block.entry.inj
    apply owns_functional own _ hentry
    rw [← haddress]
    exact entry_mem cur
  rw [cells_unstamped htimestamp, haddress] at hlost
  cases hline : cur.line with
  | none => simp [hline] at hlost
  | some l =>
    have hpointer : l.1 = 2 := by simpa [Held.block, hline] using congrArg EntryBlock.line hblock
    have haway : 1 = l.1 ∧ [0] = l.2 := by simpa [hline] using hlost
    omega

end Lokicat.Ownership
