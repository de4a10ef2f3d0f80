import Lokicat.Batching
import Lokicat.Rechunking

/-!
# Framing by the inner loop

The inner loop is a chunked reader whose pending text is the current entry's
line, re-read as a terminated string at every call. Chunk by chunk it completes
the entries of the records that the reader finds, and keeps its pending text.
-/

namespace Lokicat.Chunks

open Batching CString Framing InputLogread Iteration Logproto MainLoop MainSteps Push Rechunking

/-- The state after the inner loop has been run on chunk after chunk. -/
def feedChunks (cfg : Config) (env : LineEnv) (st : State) (chunks : List (List Byte)) : State :=
  run (fun st c => forward cfg (fun _ => env) c st) st chunks

@[simp] theorem storeEntry_completed (cfg : Config) (env : LineEnv) (st : State) :
    completed (storeEntry cfg env st).trace = completed st.trace := by
  simp only [storeEntry]
  split <;> simp [State.emit, completed]

@[simp] theorem storeEntry_reads (cfg : Config) (env : LineEnv) (st : State) :
    reads (storeEntry cfg env st).trace = reads st.trace := by
  simp only [storeEntry]
  split <;> simp [State.emit, reads]

@[simp] theorem completeLine_entry (cfg : Config) (env : LineEnv) (given : Nat)
    (text : List Byte) (st : State) : (completeLine cfg env given text st).entry = Entry.init := rfl

theorem completeLine_completed (cfg : Config) (env : LineEnv) (given : Nat) (text : List Byte)
    {st : State} (h : st.entry.timestamp = none) :
    completed (completeLine cfg env given text st).trace =
      completed st.trace ++ [parsed cfg.zone env.parseClock (cstr st.entry.line ++ text)] := by
  simp only [completeLine, storeEntry_completed, State.emit, completed_append,
    parseLine_fresh _ _ _ h]
  simp [completed, parsed]

@[simp] theorem completeLine_reads (cfg : Config) (env : LineEnv) (given : Nat) (text : List Byte)
    (st : State) : reads (completeLine cfg env given text st).trace = reads st.trace := by
  simp only [completeLine, storeEntry_reads]
  simp [State.emit, reads]

/-- The inner loop does not read. -/
theorem forward_reads (cfg : Config) (line : Nat → LineEnv) (bytes : List Byte) (st : State) :
    reads (forward cfg line bytes st).trace = reads st.trace := by
  apply forward_correct (fun _ _ st' => reads st'.trace = reads st.trace)
    (fun st' => reads st'.trace = reads st.trace)
  · intro k w d bs st' _ _ h
    rw [completeLine_reads, h]
  · intro _ st' h
    exact h
  · intro _ buf st' _ _ h
    rw [← h]
    simp [holdText, State.emit, reads]
  · rfl

/-- The entries `es` are the parses of the records `rs`, each at some clock reading. -/
def Parses (cfg : Config) (clock : Int → Prop) (rs : List (List Byte)) (es : List Entry) : Prop :=
  List.Forall₂ (fun r e => ∃ now, clock now ∧ e = parsed cfg.zone now r) rs es

/-- One run of the inner loop is one chunk of the chunked reader. -/
theorem forward_frames (cfg : Config) (line : Nat → LineEnv) (clock : Int → Prop)
    (hclock : ∀ k, clock (line k).parseClock) {bytes : List Byte} (hne : bytes ≠ []) (st : State)
    (hfresh : st.entry.timestamp = none) :
    ∃ es, completed (forward cfg line bytes st).trace = completed st.trace ++ es ∧
      Parses cfg clock (scan isNewline (cstr st.entry.line) bytes).1 es ∧
      (forward cfg line bytes st).entry =
        ⟨none, (scan isNewline (cstr st.entry.line) bytes).2⟩ := by
  -- What is left of the chunk, scanned behind the pending text, is what is left to do.
  let total := scan isNewline (cstr st.entry.line) bytes
  let Progress (buf : List Byte) (st' : State) : Prop :=
    ∃ rs es, completed st'.trace = completed st.trace ++ es ∧ Parses cfg clock rs es ∧
      total = (rs ++ (scan isNewline (cstr st'.entry.line) buf).1,
        (scan isNewline (cstr st'.entry.line) buf).2) ∧
      st'.entry.timestamp = none ∧ (buf = [] → st'.entry.line = [])
  apply forward_correct (fun _ buf st' => Progress buf st')
    (fun st' => ∃ es, completed st'.trace = completed st.trace ++ es ∧
      Parses cfg clock total.1 es ∧ st'.entry = ⟨none, total.2⟩)
  · rintro k w d bs st' hw hd ⟨rs, es, hes, hparses, htotal, hnone, -⟩
    rw [scan_record hw hd] at htotal
    refine ⟨rs ++ [cstr st'.entry.line ++ (w ++ [d])],
      es ++ [parsed cfg.zone (line k).parseClock (cstr st'.entry.line ++ (w ++ [d]))],
      ?_, ?_, ?_, rfl, fun _ => rfl⟩
    · rw [completeLine_completed cfg _ _ _ hnone, hes, List.append_assoc]
    · exact List.rel_append hparses (.cons ⟨_, hclock k, rfl⟩ .nil)
    · simpa using htotal
  · rintro k st' ⟨rs, es, hes, hparses, htotal, hnone, hline⟩
    have hempty := hline rfl
    rw [hempty, cstr_nil, scan_nil, List.append_nil] at htotal
    rw [htotal]
    exact ⟨es, hes, hparses, by rw [eq_init hempty hnone]; rfl⟩
  · rintro k buf st' - hplain ⟨rs, es, hes, hparses, htotal, hnone, -⟩
    have hscan := scan_plain hplain (cstr st'.entry.line) []
    rw [List.append_nil] at hscan
    rw [hscan, scan_nil, List.append_nil] at htotal
    rw [htotal]
    refine ⟨es, ?_, hparses, ?_⟩
    · rw [← hes]
      simp [holdText, State.emit, completed]
    · simp [holdText, hnone]
  · exact ⟨[], [], by simp, .nil, by simp [total], hfresh, fun h => absurd h hne⟩

/-- Chunk after chunk the inner loop does what the chunked reader does. -/
theorem feed_frames (cfg : Config) (env : LineEnv) {st : State} (hfresh : st.entry = Entry.init)
    {chunks : List (List Byte)} (hne : ∀ c ∈ chunks, c ≠ []) :
    completed (feedChunks cfg env st chunks).trace =
        completed st.trace ++
          (scanChunks isNul isNewline [] chunks).1.map (parsed cfg.zone env.parseClock) ∧
      (feedChunks cfg env st chunks).entry =
        ⟨none, (scanChunks isNul isNewline [] chunks).2⟩ := by
  induction chunks using List.reverseRecOn with
  | nil => exact ⟨by simp [feedChunks], hfresh⟩
  | append_singleton chunks c ih =>
    obtain ⟨hcompleted, hentry⟩ := ih (fun d hd => hne d (by simp [hd]))
    have hlast : feedChunks cfg env st (chunks ++ [c]) =
        forward cfg (fun _ => env) c (feedChunks cfg env st chunks) := run_concat ..
    obtain ⟨es, hes, hparses, hnext⟩ := forward_frames cfg (fun _ => env) (· = env.parseClock)
      (fun _ => rfl) (hne c (by simp)) (feedChunks cfg env st chunks) (by rw [hentry])
    rw [hentry] at hparses hnext
    have heq : es =
        (scan isNewline (visible isNul (scanChunks isNul isNewline [] chunks).2) c).1.map
          (parsed cfg.zone env.parseClock) := by
      have hmap := map_eq_map_of_forall₂ (f := parsed cfg.zone env.parseClock) (g := id) hparses
        (fun r e _ h => by obtain ⟨now, rfl, rfl⟩ := h; rfl)
      rw [List.map_id] at hmap
      exact hmap.symm
    rw [hlast, scanChunks_concat]
    constructor
    · rw [hes, hcompleted, heq, List.map_append, List.append_assoc]
    · exact hnext

theorem parsed_nulFree (cfg : Config) (now : Int) {line : List Byte} (h : NulFree line) :
    parsed cfg.zone now line = inputLogreadParseLine cfg.zone now line Entry.init := by
  rw [parsed, cstr_eq_self h]

/-- Framing is exact on text: the inner loop, over any chunks, completes the
parse of each newline-terminated line and keeps the unterminated tail, and the
line reader returns the same entries and then the parse of a non-empty tail. -/
theorem feed_agrees_with_lines (cfg : Config) (env : LineEnv) (st : State)
    (chunks : List (List Byte)) (fresh : st.entry = Entry.init) (nonempty : ∀ c ∈ chunks, c ≠ [])
    (text : NulFree chunks.flatten) :
    let s := chunks.flatten
    let parse := fun line => inputLogreadParseLine cfg.zone env.parseClock line Entry.init
    let fed := feedChunks cfg env st chunks
    completed fed.trace = completed st.trace ++ (records isNewline s).map parse ∧
      (records isNewline s).length = s.countP isNewline ∧
      fed.entry = ⟨none, rest isNewline s⟩ ∧
      readAll cfg.zone env.parseClock s =
        some ((records isNewline s).map parse ++
          if rest isNewline s = [] then [] else [parse (rest isNewline s)]) := by
  intro s parse fed
  have hscan : scanChunks isNul isNewline [] chunks = scan isNewline [] s :=
    scanChunks_eq_scan isNewline (by simp) text
  obtain ⟨hcompleted, hentry⟩ := feed_frames cfg env fresh nonempty
  have hparse : (records isNewline s).map (parsed cfg.zone env.parseClock) =
      (records isNewline s).map parse :=
    List.map_congr_left (fun r hr =>
      parsed_nulFree cfg _ (fun b hb => text b (records_mem hr b hb)))
  rw [hscan] at hcompleted hentry
  refine ⟨by rw [← hparse]; exact hcompleted, records_length isNewline s, hentry, ?_⟩
  rw [readAll_lines, lines, List.map_append, hparse]
  congr 2
  cases hrest : rest isNewline s with
  | nil => rfl
  | cons b bs =>
    have hfree : NulFree (b :: bs) := fun c hc => text c (rest_mem isNewline s c (hrest ▸ hc))
    simp only [List.map_cons, List.map_nil, parsed_nulFree cfg _ hfree, reduceCtorEq, if_false]
    rfl

/-- A line in two pieces with an unterminated tail. -/
theorem feed_two_chunks :
    let env := (idleTurn 1).line 0
    let chunks : List (List Byte) := [[97, 98], [10, 99]]
    let s := chunks.flatten
    let parse := fun line => inputLogreadParseLine utcConfig.zone env.parseClock line Entry.init
    let fed := feedChunks utcConfig env (init utcConfig) chunks
    completed fed.trace = completed (init utcConfig).trace ++ (records isNewline s).map parse ∧
      (records isNewline s).length = s.countP isNewline ∧
      fed.entry = ⟨none, rest isNewline s⟩ ∧
      readAll utcConfig.zone env.parseClock s =
        some ((records isNewline s).map parse ++
          if rest isNewline s = [] then [] else [parse (rest isNewline s)]) :=
  feed_agrees_with_lines utcConfig ((idleTurn 1).line 0) (init utcConfig) [[97, 98], [10, 99]] rfl
    (by decide) (by decide)

/-- What is completed does not depend on the chunks exactly when no text that a
NUL byte of a line may hide, from any later point on, changes the line's entry. -/
theorem feed_independent_iff (cfg : Config) (env : LineEnv) (s : List Byte) :
    (∀ cs ds : List (List Byte), (∀ c ∈ cs, c ≠ []) → (∀ d ∈ ds, d ≠ []) →
      cs.flatten = s → ds.flatten = s →
        completed (feedChunks cfg env (init cfg) cs).trace =
          completed (feedChunks cfg env (init cfg) ds).trace) ↔
    ∀ line ∈ records isNewline s, ∀ x ∈ readings isNul false line,
      inputLogreadParseLine cfg.zone env.parseClock x Entry.init =
        inputLogreadParseLine cfg.zone env.parseClock (cstr line) Entry.init := by
  simp only [cstr]
  rw [← results_independent_iff]
  have hfeed : ∀ cs : List (List Byte), (∀ c ∈ cs, c ≠ []) →
      completed (feedChunks cfg env (init cfg) cs).trace =
        results isNul isNewline
          (fun x => inputLogreadParseLine cfg.zone env.parseClock x Entry.init) cs :=
    fun cs hcs => (feed_frames cfg env rfl hcs).1
  constructor
  · intro h cs ds hcs hds hcse hdse
    rw [← hfeed cs hcs, ← hfeed ds hds]
    exact h cs ds hcs hds hcse hdse
  · intro h cs ds hcs hds hcse hdse
    rw [hfeed cs hcs, hfeed ds hds]
    exact h cs ds hcs hds hcse hdse

/-- A NUL byte and a letter: read together the letter is lost, read apart it is kept. -/
theorem feed_depends_on_chunks :
    ¬ ∀ (cfg : Config) (env : LineEnv) (s : List Byte) (cs ds : List (List Byte)),
      (∀ c ∈ cs, c ≠ []) → (∀ d ∈ ds, d ≠ []) → cs.flatten = s → ds.flatten = s →
        completed (feedChunks cfg env (init cfg) cs).trace =
          completed (feedChunks cfg env (init cfg) ds).trace := by
  intro h
  have heq := h utcConfig ((idleTurn 1).line 0) [0, 97, 10] [[0, 97], [10]] [[0], [97, 10]]
    (by decide) (by decide) rfl rfl
  have hne : completed (feedChunks utcConfig ((idleTurn 1).line 0) (init utcConfig)
      [[0, 97], [10]]).trace ≠
      completed (feedChunks utcConfig ((idleTurn 1).line 0) (init utcConfig)
        [[0], [97, 10]]).trace := by decide
  exact hne heq

end Lokicat.Chunks
