import Lokicat.Delivery
import Lokicat.SelectSet

/-!
# After a quiet half second

A `select` that times out empties the set, and nothing fills it again: from then on
the program reads nothing and never ends by itself. All that can still happen
is that the waiting batch gets old and is sent, once, or that `select` fails.
-/

namespace Lokicat.Stall

open Batching Chunks Delivery Iteration Logproto MainLoop MainSteps SelectSet

/-- `select` never adds to the set. -/
theorem set_subset (cfg : Config) (turns : List Turn) : (runMain cfg turns).set ⊆ {cfg.fd} := by
  apply run_invariant (fun st : State => st.set ⊆ {cfg.fd})
  · simp [init]
  · intro st t hset
    by_cases hphase : st.phase = .looping
    · have hselect : ∀ f, (select (cfg.fd + 1) st.set f).2 ⊆ {cfg.fd} :=
        fun f => (Finset.filter_subset _ _).trans hset
      have hstep := stepMain_cases cfg t hphase
      generalize stepMain cfg st t = st' at hstep
      cases hstep with
      | waitFailed => simpa using hset
      | idle f => simpa using hselect f
      | readFailed f => simpa using hselect f
      | ended f => simpa using hselect f
      | data f c =>
        rw [(forward_frame _ _ _ _).1]
        simpa [State.emit] using hselect f
    · rw [stepMain_stopped cfg t hphase]
      exact hset

/-- The waiting batch still waits, or it got old and was sent. -/
inductive BatchStalled (st st' : State) : Prop where
  | waiting (sent : sents st'.trace = sents st.trace) (stream : st'.stream = st.stream)
      (oldest : st'.timestampOldestEntry = st.timestampOldestEntry)
  | aged (s : Sent) (now : Int) (sent : sents st'.trace = sents st.trace ++ [s])
      (cause : s.cause = .age now) (entries : s.entries = st.stream.entries)
      (empty : st'.stream.entries = []) (oldest : st'.timestampOldestEntry = 0)

/-- What has become of a state since the set was emptied. -/
structure Stalled (st st' : State) : Prop where
  reads : reads st'.trace = reads st.trace
  completed : completed st'.trace = completed st.trace
  entry : st'.entry = st.entry
  phase : (st'.phase = .looping ∧ st'.set = ∅) ∨ st'.phase = .died
  batch : BatchStalled st st'

variable {cfg : Config} {st st' : State}

/-- A change outside the batch, the age mark and the requests. -/
theorem batchStalled_frame (h : BatchStalled st st') {st'' : State}
    (sent : sents st''.trace = sents st'.trace) (stream : st''.stream = st'.stream)
    (oldest : st''.timestampOldestEntry = st'.timestampOldestEntry) : BatchStalled st st'' := by
  cases h with
  | waiting sent' stream' oldest' =>
    exact .waiting (sent.trans sent') (stream.trans stream') (oldest.trans oldest')
  | aged s now sent' cause entries empty oldest' =>
    exact .aged s now (sent.trans sent') cause entries (by rw [stream, empty])
      (oldest.trans oldest')

/-- The age check sends the waiting batch, and no other. -/
theorem batchStalled_ageCheck (h : BatchStalled st st') (now : Int) (o : Push.PushOutcome) :
    BatchStalled st (ageCheck cfg now o st') := by
  have hlooked : sents (st'.emit (.looked now)).trace = sents st'.trace := by
    simp [State.emit, sents]
  obtain ⟨-, hcheck⟩ | ⟨-, -, hcheck⟩ | ⟨hold, hcheck⟩ := ageCheck_cases cfg now o st' <;>
    rw [hcheck]
  · exact h
  · exact batchStalled_frame h hlooked rfl rfl
  · have hpos := ageExpired_pos hold
    cases h with
    | waiting sent stream oldest =>
      refine .aged (sentBy cfg (.age now) o (st'.emit (.looked now))) now ?_ rfl ?_ rfl rfl
      · rw [flush_trace, sents_append, hlooked, sent]
        rfl
      · rw [sentBy_entries, ← stream]
        rfl
    | aged s now sent cause entries empty oldest => omega

theorem stalled_step (h : Stalled st st') (t : Turn) : Stalled st (stepMain cfg st' t) := by
  obtain ⟨hreads, hcompleted, hentry, ⟨hphase, hset⟩ | hphase, hbatch⟩ := h
  · have hbatch' : BatchStalled st (ageCheck cfg t.now t.outcome st') :=
      batchStalled_ageCheck hbatch t.now t.outcome
    have hcheck : Stalled st { ageCheck cfg t.now t.outcome st' with set := ∅ } :=
      ⟨by simpa using hreads, by simpa using hcompleted, by simpa using hentry,
        .inl ⟨by simpa using hphase, rfl⟩, batchStalled_frame hbatch' rfl rfl rfl⟩
    obtain ⟨-, hstep⟩ | ⟨-, hstep⟩ := @stepMain_unwatched cfg st' t hphase hset
    · rw [hstep]
      exact { hcheck with phase := .inr rfl, batch := batchStalled_frame hbatch' rfl rfl rfl }
    · rw [hstep]
      exact hcheck
  · rw [stepMain_stopped cfg t (by rw [hphase]; decide)]
    exact ⟨hreads, hcompleted, hentry, .inr hphase, hbatch⟩

/-- Once `select` has timed out, whatever comes: no byte is read any more, no line is completed,
the pending text stays, and the loop does not end by itself. At most one more request is
sent, the waiting batch when it has got old. -/
theorem stalled_for_good (cfg : Config) (turns : List Turn) (quiet : Turn) (later : List Turn)
    (h : (runMain cfg turns).phase = .looping)
    (timeout : ∃ f, quiet.waited = .ready f ∧ f cfg.fd = false) :
    let st := runMain cfg turns
    let st' := runMain cfg (turns ++ quiet :: later)
    st'.bytesRead = st.bytesRead ∧ completed st'.trace = completed st.trace ∧
      st'.entry = st.entry ∧ (st'.phase = .looping ∨ st'.phase = .died) ∧
      ((st'.batches = st.batches ∧ st'.stream.entries = st.stream.entries) ∨
        (st'.batches = st.batches ++ [st.stream.entries] ∧ st.stream.entries ≠ [] ∧
          st'.stream.entries = [])) := by
  intro st st'
  obtain ⟨f, hwaited, hf⟩ := timeout
  have hbatch : BatchStalled st (ageCheck cfg quiet.now quiet.outcome st) :=
    batchStalled_ageCheck (.waiting rfl rfl rfl) quiet.now quiet.outcome
  have hempty : (select (cfg.fd + 1) st.set f).2 = ∅ := by
    refine Finset.filter_eq_empty_iff.mpr ?_
    intro d hd
    rw [Finset.mem_singleton.mp (set_subset cfg turns hd), hf]
    simp
  have hphase : st.phase = .looping := h
  have hfirst : Stalled st (stepMain cfg st quiet) := by
    rw [stepMain_timeout hphase hwaited hempty]
    exact ⟨by simp, by simp, by simp, .inl ⟨by simpa using hphase, rfl⟩,
      batchStalled_frame hbatch rfl rfl rfl⟩
  have hrun : Stalled st st' := by
    have hsplit : st' = run (stepMain cfg) (stepMain cfg st quiet) later := by
      simp only [st', st, runMain, run_append, run_cons]
    rw [hsplit]
    exact run_invariant (Stalled st) _ hfirst (fun s t hs => stalled_step hs t) later
  have hmarked := (bounded_run cfg turns).sentinel
  refine ⟨by rw [State.bytesRead, hrun.reads, State.bytesRead], hrun.completed, hrun.entry,
    hrun.phase.imp And.left id, ?_⟩
  cases hrun.batch with
  | waiting sent stream oldest =>
    exact .inl ⟨by rw [State.batches, sent, State.batches], by rw [stream]⟩
  | aged s now sent cause entries empty oldest =>
    refine .inr ⟨?_, ?_, empty⟩
    · rw [State.batches, sent, List.map_append, List.map_singleton, entries, State.batches]
    · have hsize := (bounded_run cfg (turns ++ quiet :: later)).sizes s (by
        show s ∈ sents st'.trace
        rw [sent]
        simp)
      rw [entries] at hsize
      exact List.length_pos_iff.mp hsize.1

/-- A line waits when `select` times out; it is sent when old, and what comes next is not read. -/
theorem stalled_after_line :
    let st := runMain utcConfig [readTurn 1 [97, 10]]
    let st' := runMain utcConfig [readTurn 1 [97, 10], idleTurn 2, readTurn 40 [98, 10]]
    st'.bytesRead = st.bytesRead ∧ completed st'.trace = completed st.trace ∧
      st'.entry = st.entry ∧ (st'.phase = .looping ∨ st'.phase = .died) ∧
      ((st'.batches = st.batches ∧ st'.stream.entries = st.stream.entries) ∨
        (st'.batches = st.batches ++ [st.stream.entries] ∧ st.stream.entries ≠ [] ∧
          st'.stream.entries = [])) :=
  stalled_for_good utcConfig [readTurn 1 [97, 10]] (idleTurn 2) [readTurn 40 [98, 10]] (by decide)
    ⟨fun _ => false, rfl, rfl⟩

end Lokicat.Stall
