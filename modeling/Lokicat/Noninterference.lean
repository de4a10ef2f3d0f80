import Lokicat.LockStep
import Lokicat.MainSteps
import Lokicat.Message

/-!
# What the requests depend on

Two runs that wait, read and look at the clock in the same way flush at the same
points and for the same reasons, and their batches are related entry by entry as
the two parses of one line are. So the answers of the server have no effect on
what is sent, and the time zone, the clock at the parses, the URL and the labels have
none on when it is sent and on its texts.
-/

namespace Lokicat.Noninterference

open CString Heaps InputLogread Iteration LocalTime LockStep Logproto MainLoop MainSteps Message
  Push Util

/-- Two turns with the same clock readings outside the parses, the same outcome of
`select` and the same bytes. The two environments of a line are related by `env`. -/
structure TurnAlike (env : LineEnv → LineEnv → Prop) (t t' : Turn) : Prop where
  now : t.now = t'.now
  waited : t.waited = t'.waited
  read : t.read = t'.read
  line : ∀ k, env (t.line k) (t'.line k)

/-- Two requests for the same reason, each with one stream, with related entries. -/
def SentAlike (E : Entry → Entry → Prop) (cfg cfg' : Config) (s s' : Sent) : Prop :=
  s.cause = s'.cause ∧ ∃ es es', s.request = ⟨[⟨cfg.labels, es⟩]⟩ ∧
    s'.request = ⟨[⟨cfg'.labels, es'⟩]⟩ ∧ List.Forall₂ E es es'

/-- Two states that differ at most in what `E` lets entries differ. -/
structure StateAlike (E : Entry → Entry → Prop) (cfg cfg' : Config) (st st' : State) : Prop where
  set : st.set = st'.set
  labels : st.stream.labels = cfg.labels
  labels' : st'.stream.labels = cfg'.labels
  entries : List.Forall₂ E st.stream.entries st'.stream.entries
  oldest : st.timestampOldestEntry = st'.timestampOldestEntry
  entry : st.entry = st'.entry
  unstamped : st.entry.timestamp = none
  phase : st.phase = st'.phase
  sents : List.Forall₂ (SentAlike E cfg cfg') (sents st.trace) (sents st'.trace)

section Steps

variable {E : Entry → Entry → Prop} {env : LineEnv → LineEnv → Prop} {cfg cfg' : Config}
  {st st' : State}

/-- A change of the traces that no request shows. -/
theorem alike_emit (h : StateAlike E cfg cfg' st st') {a b : Action}
    (quiet : MainLoop.sents [a] = []) (quiet' : MainLoop.sents [b] = []) :
    StateAlike E cfg cfg' (st.emit a) (st'.emit b) := by
  refine { h with sents := ?_ }
  have happend : ∀ (tr : List Action) b, MainLoop.sents [b] = [] →
      MainLoop.sents (tr ++ [b]) = MainLoop.sents tr := by
    intro tr b hb
    rw [MainLoop.sents, List.filterMap_append, ← MainLoop.sents, ← MainLoop.sents, hb,
      List.append_nil]
  simp only [State.emit, happend _ _ quiet, happend _ _ quiet']
  exact h.sents

theorem alike_flush (h : StateAlike E cfg cfg' st st') (cause : Cause) (o o' : PushOutcome) :
    StateAlike E cfg cfg' (flush cfg cause o st) (flush cfg' cause o' st') where
  set := h.set
  labels := h.labels
  labels' := h.labels'
  entries := .nil
  oldest := rfl
  entry := h.entry
  unstamped := h.unstamped
  phase := h.phase
  sents := by
    have hsents : ∀ (tr : List Action) s, MainLoop.sents (tr ++ [.sent s]) =
        MainLoop.sents tr ++ [s] := fun tr s => List.filterMap_append ..
    rw [flush_trace, flush_trace, hsents, hsents]
    refine List.rel_append h.sents (.cons ⟨rfl, _, _, ?_, ?_, h.entries⟩ .nil)
    · simp only [sentBy, State.pushRequest, ← h.labels]
    · simp only [sentBy, State.pushRequest, ← h.labels']

theorem alike_ageCheck (overflow : cfg.overflow = cfg'.overflow)
    (h : StateAlike E cfg cfg' st st') (now : Int) (o o' : PushOutcome) :
    StateAlike E cfg cfg' (ageCheck cfg now o st) (ageCheck cfg' now o' st') := by
  have hexpired : ageExpired cfg st.timestampOldestEntry now =
      ageExpired cfg' st'.timestampOldestEntry now := by
    simp only [ageExpired, overflow, h.oldest]
  have hlooked : StateAlike E cfg cfg'
      (if st.timestampOldestEntry > 0 then st.emit (.looked now) else st)
      (if st'.timestampOldestEntry > 0 then st'.emit (.looked now) else st') := by
    rw [← h.oldest]
    split
    · exact alike_emit h rfl rfl
    · exact h
  have holdest : ∀ s : State, (if s.timestampOldestEntry > 0 then s.emit (.looked now) else
      s).timestampOldestEntry = s.timestampOldestEntry := by
    intro s
    split <;> rfl
  simp only [ageCheck, holdest, hexpired]
  split
  · exact alike_flush hlooked _ o o'
  · exact hlooked

/-- Related entries are stored at the same index, and fill the batch at the same store. -/
theorem alike_storeEntry (h : StateAlike E cfg cfg' st st') {e e' : Entry} (he : E e e')
    {l l' : LineEnv} (clock : l.storeClock = l'.storeClock) :
    StateAlike E cfg cfg' (storeEntry cfg l { st with entry := e })
      (storeEntry cfg' l' { st' with entry := e' }) := by
  have hpush : StateAlike E cfg cfg' { pushEntry l { st with entry := e } with entry := Entry.init }
      { pushEntry l' { st' with entry := e' } with entry := Entry.init } :=
    { alike_emit (a := .stored _ _ _) (b := .stored _ _ _) h rfl rfl with
      entries := List.rel_append h.entries (.cons he .nil)
      oldest := by simp only [pushEntry, h.oldest, clock]
      entry := rfl
      unstamped := rfl }
  have hlength := h.entries.length_eq
  obtain ⟨hroom, hstore⟩ | ⟨hfull, hstore⟩ := storeEntry_cases cfg l { st with entry := e } <;>
    obtain ⟨hroom', hstore'⟩ | ⟨hfull', hstore'⟩ :=
      storeEntry_cases cfg' l' { st' with entry := e' } <;> rw [hstore, hstore']
  · exact hpush
  · simp only at hroom hfull'
    omega
  · simp only at hfull hroom'
    omega
  · exact alike_flush hpush .full l.outcome l'.outcome

theorem alike_completeLine
    (parse : ∀ l l' line, env l l' → E (parsed cfg.zone l.parseClock line)
      (parsed cfg'.zone l'.parseClock line))
    (clock : ∀ l l', env l l' → l.storeClock = l'.storeClock)
    (h : StateAlike E cfg cfg' st st') {l l' : LineEnv} (hl : env l l') (given : Nat)
    (text : List Byte) :
    StateAlike E cfg cfg' (completeLine cfg l given text st)
      (completeLine cfg' l' given text st') := by
  have hparse := parse l l' (cstr st.entry.line ++ text) hl
  rw [parsed, ← parseLine_fresh _ _ _ h.unstamped, parsed, ← parseLine_fresh _ _ _ h.unstamped]
    at hparse
  simp only [completeLine, ← h.entry]
  exact alike_storeEntry (alike_emit (a := .completed _ _) (b := .completed _ _)
    (alike_emit (a := .call given text.length .success) h rfl rfl) rfl rfl) hparse (clock l l' hl)

/-- The inner loops complete the same lines, each from the same bytes. -/
theorem alike_forward
    (parse : ∀ l l' line, env l l' → E (parsed cfg.zone l.parseClock line)
      (parsed cfg'.zone l'.parseClock line))
    (clock : ∀ l l', env l l' → l.storeClock = l'.storeClock)
    (h : StateAlike E cfg cfg' st st') {line line' : Nat → LineEnv}
    (hline : ∀ k, env (line k) (line' k)) (bytes : List Byte) :
    StateAlike E cfg cfg' (forward cfg line bytes st) (forward cfg' line' bytes st') := by
  let Rel (s s' : Inner) : Prop :=
    s.count = s'.count ∧ s.start = s'.start ∧ StateAlike E cfg cfg' s.main s'.main
  have hstep : ∀ s s', Rel s s' → InStep Rel (StateAlike E cfg cfg')
      (innerBody cfg line s) (innerBody cfg' line' s') := by
    rintro ⟨k, buf, main⟩ ⟨k', buf', main'⟩ ⟨hk, hbuf, halike⟩
    simp only at hk hbuf halike
    subst hk hbuf
    rcases line_or_plain buf with ⟨w, d, bs, rfl, hw, hd⟩ | hplain
    · rw [innerBody_line cfg line k hw hd, innerBody_line cfg' line' k hw hd]
      exact .again ⟨rfl, rfl, alike_completeLine parse clock halike (hline k) _ _⟩
    · by_cases hne : buf = []
      · subst hne
        rw [innerBody_nil, innerBody_nil]
        exact .leave halike
      · rw [innerBody_plain cfg line k hne hplain, innerBody_plain cfg' line' k hne hplain]
        have hcall := alike_emit (a := .call buf.length buf.length .continue)
          (b := .call buf.length buf.length .continue) halike rfl rfl
        exact .leave { hcall with
          entry := by simp only [holdText, halike.entry]
          unstamped := halike.unstamped }
  have hstart : Rel ⟨0, bytes, st⟩ ⟨0, bytes, st'⟩ := ⟨rfl, rfl, h⟩
  exact loop_inStep Rel (StateAlike E cfg cfg') hstep hstart
    (loop_forward cfg line bytes st) (loop_forward cfg' line' bytes st')

theorem alike_stepMain (fd : cfg.fd = cfg'.fd) (overflow : cfg.overflow = cfg'.overflow)
    (parse : ∀ l l' line, env l l' → E (parsed cfg.zone l.parseClock line)
      (parsed cfg'.zone l'.parseClock line))
    (clock : ∀ l l', env l l' → l.storeClock = l'.storeClock)
    (h : StateAlike E cfg cfg' st st') {t t' : Turn} (ht : TurnAlike env t t') :
    StateAlike E cfg cfg' (stepMain cfg st t) (stepMain cfg' st' t') := by
  by_cases hphase : st.phase = .looping
  · have hphase' : st'.phase = .looping := h.phase ▸ hphase
    have hlook : StateAlike E cfg cfg' (ageCheck cfg t.now t.outcome st)
        (ageCheck cfg' t'.now t'.outcome st') := ht.now ▸ alike_ageCheck overflow h t.now _ _
    simp only [stepMain, hphase, hphase', ← ht.waited, ← ht.read, ← fd, ← hlook.set]
    have hset : ∀ set, StateAlike E cfg cfg' { ageCheck cfg t.now t.outcome st with set := set }
        { ageCheck cfg' t'.now t'.outcome st' with set := set } :=
      fun _ => { hlook with set := rfl }
    have hstop : ∀ set phase, StateAlike E cfg cfg'
        { ageCheck cfg t.now t.outcome st with set := set, phase := phase }
        { ageCheck cfg' t'.now t'.outcome st' with set := set, phase := phase } :=
      fun _ _ => { hlook with set := rfl, phase := rfl }
    cases t.waited with
    | error => exact hstop _ _
    | ready f =>
      simp only
      split
      · exact hset _
      · cases t.read with
        | error => exact hstop _ _
        | data c =>
          simp only
          split
          · exact hstop _ _
          · have hread := fun set =>
              alike_emit (a := .read c.bytes) (b := .read c.bytes) (hset set) rfl rfl
            exact alike_forward parse clock (hread _) ht.line c.bytes
  · rw [stepMain_stopped cfg t hphase, stepMain_stopped cfg' t' (h.phase ▸ hphase)]
    exact h

/-- Runs in step: what entries may differ in is all that the requests differ in. -/
theorem alike_runMain (fd : cfg.fd = cfg'.fd) (overflow : cfg.overflow = cfg'.overflow)
    (parse : ∀ l l' line, env l l' → E (parsed cfg.zone l.parseClock line)
      (parsed cfg'.zone l'.parseClock line))
    (clock : ∀ l l', env l l' → l.storeClock = l'.storeClock) {turns turns' : List Turn}
    (inputs : List.Forall₂ (TurnAlike env) turns turns') :
    StateAlike E cfg cfg' (runMain cfg turns) (runMain cfg' turns') := by
  apply run_inStep (StateAlike E cfg cfg') (TurnAlike env) _ _ inputs
  · intro st st' t t' h ht
    exact alike_stepMain fd overflow parse clock h ht
  · exact
      { set := by simp only [init, fd]
        labels := rfl
        labels' := rfl
        entries := .nil
        oldest := rfl
        entry := rfl
        unstamped := rfl
        phase := rfl
        sents := .nil }

end Steps

/-- The answers of the server decide nothing: whatever they are, the same requests are
sent for the same reasons, and the same entries wait. -/
theorem outcomes_decide_nothing (cfg : Config) (turns turns' : List Turn)
    (inputs : List.Forall₂ (TurnAlike fun l l' =>
      l.parseClock = l'.parseClock ∧ l.storeClock = l'.storeClock) turns turns') :
    let st := runMain cfg turns
    let st' := runMain cfg turns'
    (sents st.trace).map (fun s => (s.cause, s.request)) =
        (sents st'.trace).map (fun s => (s.cause, s.request)) ∧
      st.stream = st'.stream ∧ st.timestampOldestEntry = st'.timestampOldestEntry ∧
      st.entry = st'.entry ∧ st.phase = st'.phase := by
  intro st st'
  have h : StateAlike Eq cfg cfg st st' := alike_runMain rfl rfl
    (fun l l' line hl => by rw [hl.1]) (fun _ _ hl => hl.2) inputs
  refine ⟨?_, ?_, h.oldest, h.entry, h.phase⟩
  · have hsents := h.sents
    generalize sents st.trace = xs at hsents
    generalize sents st'.trace = ys at hsents
    induction hsents with
    | nil => rfl
    | cons hs _ ih =>
      obtain ⟨hcause, es, es', hrequest, hrequest', hes⟩ := hs
      rw [List.forall₂_eq_eq_eq] at hes
      rw [List.map_cons, List.map_cons, ih, hcause, hrequest, hrequest', hes]
  · have hentries := h.entries
    rw [List.forall₂_eq_eq_eq] at hentries
    have hlabels := h.labels.trans h.labels'.symm
    cases hst : st.stream
    cases hst' : st'.stream
    simp_all

/-- Every request has one stream, with the labels of the start. -/
theorem request_shape (cfg : Config) (turns : List Turn) :
    ∀ s ∈ sents (runMain cfg turns).trace, s.request = ⟨[⟨cfg.labels, s.entries⟩]⟩ := by
  have hsame : List.Forall₂ (TurnAlike fun l l' =>
      l.parseClock = l'.parseClock ∧ l.storeClock = l'.storeClock) turns turns :=
    List.forall₂_same.mpr fun t _ => ⟨rfl, rfl, rfl, fun _ => ⟨rfl, rfl⟩⟩
  have h : StateAlike Eq cfg cfg (runMain cfg turns) (runMain cfg turns) := alike_runMain rfl rfl
    (fun l l' line hl => by rw [hl.1]) (fun _ _ hl => hl.2) hsame
  intro s hs
  obtain ⟨-, es, -, hrequest, -⟩ := (List.forall₂_same.mp h.sents) s hs
  simp [Sent.entries, hrequest]

def refusedOutcome : PushOutcome := ⟨snappyOk, 0, 7, 0⟩

/-- One line, sent by age, to a server that accepts it and to one that does not answer. -/
theorem refused_decides_nothing :
    let st := runMain utcConfig [readTurn 1 [97, 10], readTurn 40 [98, 10]]
    let st' := runMain utcConfig
      [readTurn 1 [97, 10], { readTurn 40 [98, 10] with outcome := refusedOutcome }]
    (sents st.trace).map (fun s => (s.cause, s.request)) =
        (sents st'.trace).map (fun s => (s.cause, s.request)) ∧
      st.stream = st'.stream ∧ st.timestampOldestEntry = st'.timestampOldestEntry ∧
      st.entry = st'.entry ∧ st.phase = st'.phase :=
  outcomes_decide_nothing utcConfig [readTurn 1 [97, 10], readTurn 40 [98, 10]]
    [readTurn 1 [97, 10], { readTurn 40 [98, 10] with outcome := refusedOutcome }]
    (.cons ⟨rfl, rfl, rfl, fun _ => ⟨rfl, rfl⟩⟩ (.cons ⟨rfl, rfl, rfl, fun _ => ⟨rfl, rfl⟩⟩ .nil))

/-- The same text, and a timestamp in both or in neither. -/
def SameText (e e' : Entry) : Prop :=
  e.line = e'.line ∧ e.timestamp.isSome = e'.timestamp.isSome

/-- What a parse stores besides the seconds is read off the line alone. -/
theorem parsed_sameText (z z' : ZoneRule) (now now' : Int) (line : List Byte) :
    SameText (parsed z now line) (parsed z' now' line) := by
  constructor
  · rw [parsed, parsed, parse_line, parse_line]
  · simp only [parsed]
    obtain ⟨res, seconds, hdate, hparse⟩ | ⟨hdate, hparse⟩ :=
      parse_cases z now (cstr line) Entry.init <;>
    obtain ⟨res', seconds', hdate', hparse'⟩ | ⟨hdate', hparse'⟩ :=
      parse_cases z' now' (cstr line) Entry.init <;> rw [hparse, hparse']
    · rfl
    · rw [hdate] at hdate'
      cases hdate'
    · rw [hdate] at hdate'
      cases hdate'

/-- Neither the time zone nor the clock at the parses, the URL, the labels or the answers of
the server have an effect on when requests are sent, why, with how many entries and with
which texts. -/
theorem texts_independent (cfg cfg' : Config) (turns turns' : List Turn) (fd : cfg.fd = cfg'.fd)
    (overflow : cfg.overflow = cfg'.overflow)
    (inputs : List.Forall₂ (TurnAlike fun l l' => l.storeClock = l'.storeClock) turns turns') :
    let st := runMain cfg turns
    let st' := runMain cfg' turns'
    List.Forall₂ (fun s s' => s.cause = s'.cause ∧ List.Forall₂ SameText s.entries s'.entries)
        (sents st.trace) (sents st'.trace) ∧
      List.Forall₂ SameText st.stream.entries st'.stream.entries ∧
      st.entry = st'.entry ∧ st.phase = st'.phase := by
  intro st st'
  have h : StateAlike SameText cfg cfg' st st' := alike_runMain fd overflow
    (fun l l' line _ => parsed_sameText _ _ _ _ line) (fun _ _ hl => hl) inputs
  refine ⟨h.sents.imp ?_, h.entries, h.entry, h.phase⟩
  rintro s s' ⟨hcause, es, es', hrequest, hrequest', hes⟩
  refine ⟨hcause, ?_⟩
  simpa [Sent.entries, hrequest, hrequest'] using hes

/-- One line, read in two time zones, for two servers. -/
theorem texts_in_two_zones :
    let cfg := { utcConfig with zone := ZoneRule.constant 3600, lokiUrl := [104] }
    let st := runMain utcConfig [readTurn 1 [97, 10], readTurn 40 [98, 10]]
    let st' := runMain cfg [readTurn 1 [97, 10], readTurn 40 [98, 10]]
    List.Forall₂ (fun s s' => s.cause = s'.cause ∧ List.Forall₂ SameText s.entries s'.entries)
        (sents st.trace) (sents st'.trace) ∧
      List.Forall₂ SameText st.stream.entries st'.stream.entries ∧
      st.entry = st'.entry ∧ st.phase = st'.phase :=
  texts_independent utcConfig { utcConfig with zone := ZoneRule.constant 3600, lokiUrl := [104] }
    [readTurn 1 [97, 10], readTurn 40 [98, 10]] [readTurn 1 [97, 10], readTurn 40 [98, 10]] rfl rfl
    (.cons ⟨rfl, rfl, rfl, fun _ => rfl⟩ (.cons ⟨rfl, rfl, rfl, fun _ => rfl⟩ .nil))

end Lokicat.Noninterference
