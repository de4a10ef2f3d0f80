import Lokicat.Delivery
import Lokicat.SelectSet

/-!
# The end of the input

The loop is left at end of file without a flush. Whether everything read has
been handed over by then depends on the run: a tally of the lines since the
last age flush, kept on the inputs alone, tells when it has.
-/

namespace Lokicat.EndOfInput

open Batching Chunks CString Delivery Framing InputLogread Iteration Logproto MainLoop MainSteps
  SelectSet

/-- The bytes the turn's `read` returns. -/
def bytes (t : Turn) : List Byte :=
  match t.read with
  | .data c => c.bytes
  | .error => []

def stream (turns : List Turn) : List Byte := turns.flatMap bytes

/-- Lines since the last age flush, and the clock at the first line since the
last multiple of `maxEntries`, zero if there is none. -/
structure Tally where
  count : Nat
  oldest : Int

/-- An age check: an age flush starts a new tally. -/
def Tally.look (cfg : Config) (now : Int) (t : Tally) : Tally :=
  if ageExpired cfg t.oldest now then ⟨0, 0⟩ else t

def Tally.line (clock : Int) (t : Tally) : Tally where
  count := t.count + 1
  oldest :=
    if (t.count + 1) % maxEntries = 0 then 0
    else if t.oldest = 0 then cInt clock
    else t.oldest

/-- The tally after the first `n` lines of a turn. -/
def Tally.lines (line : Nat → LineEnv) (n : Nat) (t : Tally) : Tally :=
  (List.range n).foldl (fun t k => t.line (line k).storeClock) t

def Tally.turn (cfg : Config) (t : Tally) (turn : Turn) : Tally :=
  (t.look cfg turn.now).lines turn.line ((bytes turn).countP isNewline)

/-- The tally at the loop head after some turns. -/
def sinceAgeFlush (cfg : Config) (turns : List Turn) : Tally := run (Tally.turn cfg) ⟨0, 0⟩ turns

theorem lines_succ (line : Nat → LineEnv) (n : Nat) (t : Tally) :
    t.lines line (n + 1) = (t.lines line n).line (line n).storeClock := by
  simp only [Tally.lines, List.range_succ, List.foldl_append, List.foldl_cons, List.foldl_nil]

/-- The tally tells the size of the batch and the age mark. -/
structure Agrees (t : Tally) (st : State) : Prop where
  size : st.stream.entries.length = t.count % maxEntries
  mark : st.timestampOldestEntry = t.oldest

theorem agrees_ageCheck {t : Tally} {st : State} (h : Agrees t st) (cfg : Config) (now : Int)
    (o : Push.PushOutcome) : Agrees (t.look cfg now) (ageCheck cfg now o st) := by
  obtain ⟨hpos, hcheck⟩ | ⟨-, hyoung, hcheck⟩ | ⟨hold, hcheck⟩ := ageCheck_cases cfg now o st
  · have hyoung : ¬ageExpired cfg t.oldest now = true := by
      intro hold
      have := ageExpired_pos hold
      rw [h.mark] at hpos
      omega
    rw [hcheck, Tally.look, if_neg hyoung]
    exact h
  · rw [h.mark] at hyoung
    rw [hcheck, Tally.look, hyoung]
    exact ⟨h.size, h.mark⟩
  · rw [h.mark] at hold
    rw [hcheck, Tally.look, if_pos hold]
    exact ⟨rfl, rfl⟩

theorem agrees_storeEntry {t : Tally} {st : State} (h : Agrees t st) (cfg : Config)
    (env : LineEnv) : Agrees (t.line env.storeClock) (storeEntry cfg env st) := by
  have hsize := h.size
  simp only [maxEntries] at hsize
  obtain ⟨hroom, hstore⟩ | ⟨hfull, hstore⟩ := storeEntry_cases cfg env st
  · simp only [maxEntries] at hroom
    have hnext : st.stream.entries.length + 1 = (t.count + 1) % maxEntries := by
      simp only [maxEntries]
      omega
    rw [hstore]
    constructor
    · simpa [pushEntry, Tally.line] using hnext
    · have hmod : ¬(t.count + 1) % maxEntries = 0 := by omega
      simp only [pushEntry, State.emit, Tally.line, hmod, h.mark, if_false]
  · simp only [maxEntries] at hfull
    have hmod : (t.count + 1) % maxEntries = 0 := by
      simp only [maxEntries]
      omega
    rw [hstore]
    constructor <;> simp [Tally.line, hmod]

theorem agrees_completeLine {t : Tally} {st : State} (h : Agrees t st) (cfg : Config)
    (env : LineEnv) (given : Nat) (text : List Byte) :
    Agrees (t.line env.storeClock) (completeLine cfg env given text st) := by
  apply agrees_storeEntry
  exact ⟨h.size, h.mark⟩

theorem agrees_forward {t : Tally} {st : State} (h : Agrees t st) (cfg : Config)
    (line : Nat → LineEnv) (bytes : List Byte) :
    Agrees (t.lines line (bytes.countP isNewline)) (forward cfg line bytes st) := by
  apply forward_correct
    (fun k buf st' => k + buf.countP isNewline = bytes.countP isNewline ∧
      Agrees (t.lines line k) st')
    (Agrees (t.lines line (bytes.countP isNewline)))
  · rintro k w d bs st' hw hd ⟨hcount, hst'⟩
    have hplain : w.countP isNewline = 0 := countP_plain hw
    refine ⟨?_, ?_⟩
    · rw [List.countP_append, List.countP_cons, hd, hplain] at hcount
      simp only [if_true] at hcount
      omega
    · rw [lines_succ]
      exact agrees_completeLine hst' cfg (line k) _ _
  · rintro k st' ⟨hcount, hst'⟩
    rw [List.countP_nil, Nat.add_zero] at hcount
    rw [← hcount]
    exact hst'
  · rintro k buf st' - hbuf ⟨hcount, hst'⟩
    have hplain : buf.countP isNewline = 0 := countP_plain hbuf
    rw [hplain, Nat.add_zero] at hcount
    rw [← hcount]
    exact ⟨hst'.size, hst'.mark⟩
  · exact ⟨by omega, h⟩

/-- At a loop head that still watches its input, the turns so far tell what was
read, how large the batch is and what the age mark is. -/
def Follows (cfg : Config) (turns : List Turn) (st : State) : Prop :=
  st.phase = .looping → st.set.Nonempty →
    st.bytesRead = stream turns ∧ Agrees (sinceAgeFlush cfg turns) st

theorem select_nonempty {nfds : Nat} {set : Finset Nat} {f : Nat → Bool}
    (h : (select nfds set f).1 ≠ 0) : set.Nonempty := by
  obtain ⟨d, hd⟩ := Finset.card_pos.mp (Nat.pos_of_ne_zero h)
  exact ⟨d, (Finset.mem_filter.mp hd).1⟩

theorem select_none {nfds : Nat} {set : Finset Nat} {f : Nat → Bool}
    (h : (select nfds set f).1 = 0) : (select nfds set f).2 = ∅ := Finset.card_eq_zero.mp h

/-- The turn after which a loop head still watches its input read some bytes. -/
theorem stepMain_watching {cfg : Config} {st : State} {t : Turn}
    (head : (stepMain cfg st t).phase = .looping) (watching : (stepMain cfg st t).set.Nonempty) :
    st.phase = .looping ∧ st.set.Nonempty ∧ ∃ set, stepMain cfg st t =
      forward cfg t.line (bytes t)
        (State.emit { ageCheck cfg t.now t.outcome st with set := set } (.read (bytes t))) := by
  have hbefore := looping_before head
  have hstep := stepMain_cases cfg t hbefore
  generalize stepMain cfg st t = st' at hstep head watching ⊢
  cases hstep with
  | waitFailed => cases head
  | readFailed => cases head
  | ended => cases head
  | idle f waited none =>
    obtain ⟨d, hd⟩ := watching
    have hempty : d ∈ (∅ : Finset Nat) := select_none none ▸ hd
    simp at hempty
  | data f c waited some read nonempty =>
    have hst := select_nonempty some
    rw [ageCheck_set] at hst
    have hbytes : bytes t = c.bytes := by simp only [bytes, read]
    rw [hbytes]
    exact ⟨hbefore, hst, _, rfl⟩

/-- The turn that ends in the `break` made its age check and nothing else. -/
theorem stepMain_left {cfg : Config} {st : State} {t : Turn} (head : st.phase = .looping)
    (eof : (stepMain cfg st t).phase = .left) :
    st.set.Nonempty ∧
      ∃ set, stepMain cfg st t =
        { ageCheck cfg t.now t.outcome st with set := set, phase := .left } := by
  have hstep := stepMain_cases cfg t head
  generalize stepMain cfg st t = st' at hstep eof ⊢
  cases hstep with
  | waitFailed => cases eof
  | readFailed => cases eof
  | idle =>
    have hphase := ageCheck_phase cfg t.now t.outcome st
    simp only [hphase, head] at eof
    cases eof
  | data f c =>
    rw [(forward_frame ..).2] at eof
    simp only [State.emit, ageCheck_phase, head] at eof
    cases eof
  | ended f c waited some =>
    have hst := select_nonempty some
    rw [ageCheck_set] at hst
    exact ⟨hst, _, rfl⟩

theorem follows_run (cfg : Config) (turns : List Turn) :
    Follows cfg turns (runMain cfg turns) := by
  apply run_relation (Follows cfg) (init cfg)
  · intro _ _
    exact ⟨rfl, rfl, rfl⟩
  · intro turns st t ih head watching
    obtain ⟨hbefore, hset, set, hstep⟩ := stepMain_watching head watching
    obtain ⟨hread, hagrees⟩ := ih hbefore hset
    have hlook := agrees_ageCheck hagrees cfg t.now t.outcome
    rw [hstep]
    constructor
    · rw [State.bytesRead] at hread ⊢
      rw [forward_reads, stream, List.flatMap_append, ← stream, ← hread,
        ← ageCheck_reads cfg t.now t.outcome st]
      simp [State.emit, reads]
    · rw [sinceAgeFlush, run_concat]
      apply agrees_forward
      exact ⟨hlook.size, hlook.mark⟩

/-- Every line of a stream was handed over, in order and once, each as the entry
made of it at some clock reading, and nothing is left behind. -/
def Delivered (cfg : Config) (s : List Byte) (st : State) : Prop :=
  Parses cfg (fun _ => True) (lines isNewline s) st.batches.flatten ∧
    st.stream.entries = [] ∧ st.entry.line = []

theorem delivered_iff {cfg : Config} {st : State} (clocked : Clocked cfg (fun _ => True) st)
    (conserve : st.batches.flatten ++ st.stream.entries = completed st.trace)
    (text : NulFree st.bytesRead) :
    Delivered cfg st.bytesRead st ↔
      rest isNewline st.bytesRead = [] ∧ st.stream.entries = [] := by
  have hscan : Delivery.framed st = scan isNewline [] st.bytesRead :=
    scanChunks_eq_scan isNewline (by simp) text
  have hpending := clocked.pending
  have hparses := clocked.parses
  rw [hscan] at hpending hparses
  constructor
  · rintro ⟨-, hentries, hline⟩
    rw [hpending] at hline
    exact ⟨hline, hentries⟩
  · rintro ⟨hrest, hentries⟩
    rw [hentries, List.append_nil] at conserve
    refine ⟨?_, hentries, by rw [hpending]; exact hrest⟩
    rw [lines_of_rest_nil hrest, conserve]
    exact hparses

/-- At end of file everything read was handed over exactly when the stream is
empty or ends in a newline and the lines since the last age flush fill whole batches. -/
theorem delivered_at_eof_iff (cfg : Config) (turns : List Turn) (last : Turn)
    (head : (runMain cfg turns).phase = .looping)
    (eof : (runMain cfg (turns ++ [last])).phase = .left) (text : NulFree (stream turns)) :
    Delivered cfg (stream turns) (runMain cfg (turns ++ [last])) ↔
      (∀ b ∈ (stream turns).getLast?, isNewline b = true) ∧
        ((sinceAgeFlush cfg turns).look cfg last.now).count % maxEntries = 0 := by
  have hlast : runMain cfg (turns ++ [last]) = stepMain cfg (runMain cfg turns) last :=
    run_concat ..
  rw [hlast] at eof
  obtain ⟨hset, set, hstep⟩ := stepMain_left head eof
  obtain ⟨hread, hagrees⟩ := follows_run cfg turns head hset
  have hstate := hlast.trans hstep
  have hbytes : (runMain cfg (turns ++ [last])).bytesRead = stream turns := by
    rw [hstate, ← hread]
    simp only [State.bytesRead, ageCheck_reads]
  have hdelivered := delivered_iff (clocked_run cfg fun _ _ _ => trivial)
    (batches_are_completed cfg (turns ++ [last])).1 (by rw [hbytes]; exact text)
  rw [hbytes, rest_eq_nil_iff] at hdelivered
  rw [hdelivered]
  apply and_congr_right'
  rw [← (agrees_ageCheck hagrees cfg last.now last.outcome).size, List.length_eq_zero_iff, hstate]

/-- One line and end of file at once: the line is lost. -/
theorem line_lost_at_eof :
    ¬ ∀ (cfg : Config) (turns : List Turn) (last : Turn),
      (runMain cfg turns).phase = .looping → (runMain cfg (turns ++ [last])).phase = .left →
        NulFree (stream turns) →
          Delivered cfg (stream turns) (runMain cfg (turns ++ [last])) := by
  intro h
  have hlost := (h utcConfig [readTurn 1 [97, 10]] (readTurn 1 []) (by decide) (by decide)
    (by decide)).2.1
  revert hlost
  decide

/-- The same line is handed over when half a minute passes before the end of file. -/
theorem line_delivered_by_age :
    Delivered utcConfig (stream [readTurn 1 [97, 10]])
        (runMain utcConfig ([readTurn 1 [97, 10]] ++ [readTurn 32 []])) ↔
      (∀ b ∈ (stream [readTurn 1 [97, 10]]).getLast?, isNewline b = true) ∧
        ((sinceAgeFlush utcConfig [readTurn 1 [97, 10]]).look utcConfig 32).count % maxEntries =
          0 :=
  delivered_at_eof_iff utcConfig [readTurn 1 [97, 10]] (readTurn 32 []) (by decide) (by decide)
    (by decide)

end Lokicat.EndOfInput
