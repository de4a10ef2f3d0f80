import Lokicat.Chunks

/-!
# What a run of the main loop has handed over

At every loop head the requests so far, followed by the waiting batch, are the
entries completed, one for each newline read. At the end of the input nothing
is flushed: the stream was handed over completely exactly when no line is left
pending and the last batch happened to be full or old.
-/

namespace Lokicat.Delivery

open Batching Chunks CString Framing InputLogread Iteration Logproto MainLoop MainSteps Push
  Rechunking

@[simp] theorem ageCheck_entry (cfg : Config) (now : Int) (o : PushOutcome) (st : State) :
    (ageCheck cfg now o st).entry = st.entry := by
  simp only [ageCheck]
  split <;> split <;> rfl

@[simp] theorem ageCheck_completed (cfg : Config) (now : Int) (o : PushOutcome) (st : State) :
    completed (ageCheck cfg now o st).trace = completed st.trace := by
  obtain ⟨-, h⟩ | ⟨-, -, h⟩ | ⟨-, h⟩ := ageCheck_cases cfg now o st <;>
    simp [h, State.emit, completed]

@[simp] theorem ageCheck_reads (cfg : Config) (now : Int) (o : PushOutcome) (st : State) :
    reads (ageCheck cfg now o st).trace = reads st.trace := by
  obtain ⟨-, h⟩ | ⟨-, -, h⟩ | ⟨-, h⟩ := ageCheck_cases cfg now o st <;>
    simp [h, State.emit, reads]

/-- The chunks read so far. -/
def framed (st : State) : List (List Byte) × List Byte :=
  scanChunks isNul isNewline [] (reads st.trace)

/-- The entries completed are the parses of the records read, at clock readings of which
something is known, and the current entry holds what is pending. -/
structure Clocked (cfg : Config) (clock : Int → Prop) (st : State) : Prop where
  parses : Parses cfg clock (framed st).1 (completed st.trace)
  pending : st.entry = ⟨none, (framed st).2⟩

section Clocked

variable {cfg : Config} {clock : Int → Prop} {st : State}

theorem clocked_of_eq {st' : State} (h : Clocked cfg clock st) (entry : st'.entry = st.entry)
    (comp : completed st'.trace = completed st.trace) (read : reads st'.trace = reads st.trace) :
    Clocked cfg clock st' where
  parses := by
    rw [framed, read, comp]
    exact h.parses
  pending := by
    rw [framed, read, entry]
    exact h.pending

theorem clocked_forward {line : Nat → LineEnv} (hline : ∀ k, clock (line k).parseClock)
    {bytes : List Byte} (hne : bytes ≠ []) (h : Clocked cfg clock st) :
    Clocked cfg clock (forward cfg line bytes (st.emit (.read bytes))) := by
  obtain ⟨es, hes, hparses, hentry⟩ := forward_frames cfg line clock hline hne
    (st.emit (.read bytes)) (by simp only [State.emit, h.pending])
  have hcompleted : completed (st.emit (.read bytes)).trace = completed st.trace := by
    simp [State.emit, completed]
  have hread : reads (st.emit (.read bytes)).trace = reads st.trace ++ [bytes] := by
    simp [State.emit, reads]
  have hpending : (st.emit (.read bytes)).entry.line = (framed st).2 := by
    simp only [State.emit, h.pending]
  have hframed : framed (forward cfg line bytes (st.emit (.read bytes))) =
      ((framed st).1 ++ (scan isNewline (cstr (framed st).2) bytes).1,
        (scan isNewline (cstr (framed st).2) bytes).2) := by
    rw [framed, forward_reads, hread, scanChunks_concat]
    rfl
  rw [hpending] at hparses hentry
  refine ⟨?_, ?_⟩
  · rw [hframed, hes, hcompleted]
    exact List.rel_append h.parses hparses
  · rw [hframed]
    exact hentry

theorem clocked_step {t : Turn} (hline : ∀ k, clock (t.line k).parseClock)
    (h : Clocked cfg clock st) : Clocked cfg clock (stepMain cfg st t) := by
  by_cases hphase : st.phase = .looping
  · have hlook : Clocked cfg clock (ageCheck cfg t.now t.outcome st) :=
      clocked_of_eq h (ageCheck_entry ..) (ageCheck_completed ..) (ageCheck_reads ..)
    have hstep := stepMain_cases cfg t hphase
    generalize stepMain cfg st t = st' at hstep
    cases hstep with
    | waitFailed => exact clocked_of_eq hlook rfl rfl rfl
    | idle => exact clocked_of_eq hlook rfl rfl rfl
    | readFailed => exact clocked_of_eq hlook rfl rfl rfl
    | ended => exact clocked_of_eq hlook rfl rfl rfl
    | data f c waited some read bytes =>
      exact clocked_forward hline bytes (clocked_of_eq hlook rfl rfl rfl)
  · rw [stepMain_stopped cfg t hphase]
    exact h

theorem clocked_run (cfg : Config) {turns : List Turn}
    (clocks : ∀ t ∈ turns, ∀ k, clock (t.line k).parseClock) :
    Clocked cfg clock (runMain cfg turns) := by
  induction turns using List.reverseRecOn with
  | nil => exact ⟨.nil, rfl⟩
  | append_singleton turns t ih =>
    rw [runMain, run_concat]
    exact clocked_step (clocks t (by simp)) (ih fun t' ht' => clocks t' (by simp [ht']))

/-- The requests so far and the waiting batch are the entries completed. -/
theorem handed_over (cfg : Config) (turns : List Turn) :
    (runMain cfg turns).batches.flatten ++ (runMain cfg turns).stream.entries =
      completed (runMain cfg turns).trace :=
  (batches_conserve cfg turns).trans (stored_completed cfg turns)

/-- Text that is parsed at one clock reading is completed line by line. -/
theorem completed_text (cfg : Config) {now : Int} {turns : List Turn}
    (clocks : ∀ t ∈ turns, ∀ k, (t.line k).parseClock = now)
    (free : NulFree (runMain cfg turns).bytesRead) :
    completed (runMain cfg turns).trace =
      (records isNewline (runMain cfg turns).bytesRead).map (parsed cfg.zone now) := by
  have hclocked : Clocked cfg (· = now) (runMain cfg turns) := clocked_run cfg clocks
  have hparses := hclocked.parses
  have hmap := map_eq_map_of_forall₂ (f := parsed cfg.zone now) (g := id) hparses
    (by rintro r e - ⟨_, rfl, rfl⟩; rfl)
  rw [List.map_id, framed, scanChunks_eq_scan isNewline (by simp) free] at hmap
  exact hmap.symm

end Clocked

/-- The current entry holds the unfinished record, whatever the clock. -/
theorem pending_run (cfg : Config) (turns : List Turn) :
    (runMain cfg turns).entry = ⟨none, (framed (runMain cfg turns)).2⟩ := by
  have hclocked : Clocked cfg (fun _ => True) (runMain cfg turns) :=
    clocked_run cfg fun _ _ _ => trivial
  exact hclocked.pending

/-- Batching loses, doubles and moves nothing: the requests so far followed by the
waiting batch are the entries completed, and there is one for each newline read. -/
theorem batches_are_completed (cfg : Config) (turns : List Turn) :
    let st := runMain cfg turns
    st.batches.flatten ++ st.stream.entries = completed st.trace ∧
      (completed st.trace).length = st.bytesRead.countP isNewline := by
  intro st
  refine ⟨?_, ?_⟩
  · rw [batches_conserve cfg turns]
    exact stored_completed cfg turns
  · have hclocked : Clocked cfg (fun _ => True) st := clocked_run cfg fun _ _ _ => trivial
    have hlength := hclocked.parses.length_eq
    rw [← hlength, framed, scanChunks_length]
    rfl

end Lokicat.Delivery
